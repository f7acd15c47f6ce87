import Mathlib.Data.List.Basic
import ScriptedAgent.Proofs.Agent.Refusal
import ScriptedAgent.Proofs.Store.Exported
import ScriptedAgent.Proofs.Wire.ReceivedMessage

/-!
# The shape of a response

Every request that is not dropped is answered by one response of one form (`Message.AnsweredBy`):
without an error and with a binding for each one asked for, or with an error, the number of the
binding it lies in and the bindings of the request. What is sent for it is always a message that is
received as such a response (`Agent.answers_wellFormed`).
-/

namespace ScriptedAgent

/-- The values that stand for an object or a successor that is not there. -/
def WireValue.IsException : WireValue → Prop
  | noSuchObject | noSuchInstance | endOfMibView => True
  | _ => False

theorem Value.not_isException_toWire (v : Value) : ¬ v.toWire.IsException := by
  cases v <;> exact id

/-- The substitute for a text without arcs names an object too. -/
theorem Value.names_toWire (v : Value) : v.toWire.Names := by
  cases v with
  | oid t =>
    show ((Oid.ofText? t).getD [0, 0]).Names
    cases h : Oid.ofText? t with
    | none => exact UInt32.le_iff_toNat_le.2 (Nat.zero_le _)
    | some arcs => exact Oid.names_of_ofText? h
  | _ => trivial

theorem ErrorStatus.ofSet_ne_noError (v : Version) (e : StoreError) : ofSet v e ≠ noError := by
  cases v <;> cases e <;> exact ne_of_beq_false rfl

namespace Message

variable {m r : Message}

/-- `r` is a response to `m`, either without an error and with as many bindings, or with an error
in one of the bindings of `m`, which it repeats. -/
structure AnsweredBy (m r : Message) : Prop where
  kind : r.kind = .response
  version : r.version = m.version
  community : r.community = m.community
  requestId : r.requestId = m.requestId
  outcome :
    (r.errorStatus = ErrorStatus.noError ∧ r.errorIndex = 0 ∧
      r.bindings.length = m.bindings.length) ∨
    (r.errorStatus ≠ ErrorStatus.noError ∧ r.bindings = m.bindings ∧
      ∃ i, 1 ≤ i ∧ i ≤ m.bindings.length ∧ r.errorIndex = Int64.ofNat i ∧
        (m.bindings.length < 0x8000000000000000 → r.errorIndex.toInt = i))

theorem answeredBy_respond {bs : List Binding} (h : bs.length = m.bindings.length) :
    m.AnsweredBy (m.respond bs) :=
  ⟨rfl, rfl, rfl, rfl, .inl ⟨rfl, rfl, h⟩⟩

theorem answeredBy_refuse {status : Number} {i : Nat} (hs : status ≠ ErrorStatus.noError)
    (hi : i < m.bindings.length) : m.AnsweredBy (m.refuse status i) := by
  refine ⟨rfl, rfl, rfl, rfl, .inr ⟨hs, rfl, i + 1, Nat.le_add_left 1 i, hi, rfl, fun hlen => ?_⟩⟩
  exact Int64.toInt_ofNat_of_lt (by omega)

theorem answeredBy_settle {failure : Option (Nat × StoreError)}
    (h : ∀ f, failure = some f → f.1 < m.bindings.length) : m.AnsweredBy (m.settle failure) := by
  cases failure with
  | none => exact answeredBy_respond rfl
  | some f => exact answeredBy_refuse (ErrorStatus.ofSet_ne_noError _ _) (h f rfl)

/-- A response is received as one too: the bindings that it repeats are received as they are. -/
theorem AnsweredBy.received (h : m.AnsweredBy r) (hm : m.Encodable) : m.AnsweredBy r.received := by
  refine ⟨h.kind, h.version, h.community, h.requestId, ?_⟩
  rcases h.outcome with ⟨hs, hi, hlen⟩ | ⟨hs, hbs, hi⟩
  · exact .inl ⟨hs, hi, (List.length_map _).trans hlen⟩
  · exact .inr ⟨hs, by rw [Message.received, hbs, hm.map_received], hi⟩

end Message

/-! ## Get and walk -/

section Retrieve

variable {f : Binding → Option Binding} {bs cs : List Binding} {i j : Nat}

theorem answerAll_eq_ok_iff : answerAll f i bs = .ok cs ↔ cs.map some = bs.map f := by
  induction bs generalizing i cs with
  | nil =>
    simp only [answerAll, Except.ok.injEq, List.map_nil, List.map_eq_nil_iff]
    exact eq_comm
  | cons b bs ih =>
    unfold answerAll
    cases hf : f b with
    | none => cases cs <;> simp [hf]
    | some b' =>
      cases cs with
      | nil => cases answerAll f (i + 1) bs <;> simp [Except.map]
      | cons c cs =>
        have ih : answerAll f (i + 1) bs = .ok cs ↔ cs.map some = bs.map f := ih
        cases hb : answerAll f (i + 1) bs with
        | error j =>
          rw [hb] at ih
          simp only [Except.map, reduceCtorEq, false_iff] at ih ⊢
          simp only [List.map_cons, List.cons.injEq, not_and]
          exact fun _ => ih
        | ok ds =>
          rw [hb] at ih
          simp only [Except.map, Except.ok.injEq, List.map_cons, List.cons.injEq, hf,
            Option.some.injEq, eq_comm (a := c), ← ih]

theorem lt_of_answerAll_eq_error : ∀ {bs : List Binding} {i : Nat},
    answerAll f i bs = .error j → j < i + bs.length
  | b :: bs, i, h => by
    unfold answerAll at h
    rw [List.length_cons]
    cases hf : f b with
    | none =>
      simp only [hf, Except.error.injEq] at h
      omega
    | some b' =>
      simp only [hf] at h
      cases hb : answerAll f (i + 1) bs with
      | error j' =>
        rw [hb] at h
        cases h
        have hlt := lt_of_answerAll_eq_error hb
        omega
      | ok ds =>
        rw [hb] at h
        cases h

variable {m : Message}

/-- A Get or a walk is answered in each binding, or refused for one. -/
theorem retrieve_cases (m : Message) (f : Binding → Option Binding) :
    (∃ cs, cs.map some = m.bindings.map f ∧ Agent.retrieve m f = m.respond cs) ∨
      ∃ i, i < m.bindings.length ∧ Agent.retrieve m f = m.refuse ErrorStatus.noSuchName i := by
  unfold Agent.retrieve
  split
  · rename_i cs h
    exact .inl ⟨cs, answerAll_eq_ok_iff.1 h, rfl⟩
  · rename_i i h
    exact .inr ⟨i, Nat.zero_add m.bindings.length ▸ lt_of_answerAll_eq_error h, rfl⟩

theorem answeredBy_retrieve (m : Message) (f : Binding → Option Binding) :
    m.AnsweredBy (Agent.retrieve m f) := by
  obtain ⟨cs, hcs, h⟩ | ⟨i, hi, h⟩ := retrieve_cases m f
  · rw [h]
    refine Message.answeredBy_respond ?_
    rw [← List.length_map (f := some), hcs, List.length_map]
  · rw [h]
    exact Message.answeredBy_refuse (by decide) hi

/-- Without an error, each binding of the response is what the one asked for is answered by. -/
theorem bindings_retrieve (h : (Agent.retrieve m f).errorStatus = ErrorStatus.noError) :
    (Agent.retrieve m f).bindings.map some = m.bindings.map f := by
  obtain ⟨cs, hcs, hr⟩ | ⟨i, -, hr⟩ := retrieve_cases m f
  · rw [hr]
    exact hcs
  · rw [hr] at h
    exact absurd h (by decide : ErrorStatus.noSuchName ≠ ErrorStatus.noError)

theorem exists_of_mem_retrieve {c : Binding}
    (h : (Agent.retrieve m f).errorStatus = ErrorStatus.noError)
    (hc : c ∈ (Agent.retrieve m f).bindings) : ∃ b ∈ m.bindings, f b = some c := by
  have hmem := List.mem_map_of_mem (f := some) hc
  rw [bindings_retrieve h] at hmem
  exact List.mem_map.1 hmem

end Retrieve

namespace Store

variable {s : Store} {v : Version} {b c : Binding}

/-- The binding that a Get finds: an object's value, or that there is none. -/
def found (s : Store) (b : Binding) : Binding :=
  ⟨b.oid, match s.get? b.oid.text with
    | some x => x.toWire
    | none => .noSuchObject⟩

theorem of_getBinding (h : s.getBinding v b = some c) :
    c = s.found b ∧ (v = .v1 → (s.get? b.oid.text).isSome) := by
  unfold getBinding at h
  unfold found
  cases hx : s.get? b.oid.text with
  | some x =>
    simp only [hx, Option.some.injEq] at h
    exact ⟨h.symm, fun _ => rfl⟩
  | none =>
    cases v with
    | v1 => simp [hx] at h
    | v2c =>
      simp only [hx, Option.some.injEq] at h
      exact ⟨h.symm, fun hv => by cases hv⟩

theorem of_nextBinding (h : s.nextBinding v b = some c) :
    (∃ x, s.next? b.oid = some (c.oid, x) ∧ c.value = x.toWire) ∨
      (v = .v2c ∧ c = ⟨b.oid, .endOfMibView⟩) := by
  unfold nextBinding at h
  cases hx : s.next? b.oid with
  | some e =>
    simp only [hx, Option.some.injEq] at h
    subst h
    exact .inl ⟨e.2, rfl, rfl⟩
  | none =>
    cases v with
    | v1 => simp [hx] at h
    | v2c =>
      simp only [hx, Option.some.injEq] at h
      exact .inr ⟨rfl, h.symm⟩

theorem not_isException_getBinding (h : s.getBinding .v1 b = some c) : ¬ c.value.IsException := by
  obtain ⟨rfl, hx⟩ := of_getBinding h
  obtain ⟨x, hx⟩ := Option.isSome_iff_exists.1 (hx rfl)
  simp only [found, hx]
  exact x.not_isException_toWire

theorem not_isException_nextBinding (h : s.nextBinding .v1 b = some c) :
    ¬ c.value.IsException := by
  obtain ⟨x, -, hv⟩ | ⟨hv, -⟩ := of_nextBinding h
  · rw [hv]
    exact x.not_isException_toWire
  · cases hv

theorem names_getBinding (hb : b.oid.Names) (h : s.getBinding v b = some c) : c.Names := by
  obtain ⟨rfl, -⟩ := of_getBinding h
  refine ⟨hb, ?_⟩
  simp only [found]
  split
  · exact Value.names_toWire _
  · trivial

theorem names_nextBinding (hb : b.oid.Names) (h : s.nextBinding v b = some c) : c.Names := by
  obtain ⟨x, hnext, hv⟩ | ⟨-, rfl⟩ := of_nextBinding h
  · obtain ⟨-, name, hmem, -⟩ := of_next? hnext
    obtain ⟨-, o, -, -, harcs⟩ := mem_exported_iff.1 hmem
    exact ⟨Oid.names_of_ofText? harcs, hv ▸ x.names_toWire⟩
  · exact ⟨hb, trivial⟩

/-! ## Sets -/

theorem stage_cons_eq_ok_iff {i : Nat} {bs : List Binding} {sets : List (String × Value)} :
    s.stage i (b :: bs) = .ok sets ↔ ∃ t x rest, s.varType? b.oid.text = some t ∧
      Value.ofWire t b.value = .ok x ∧ s.stage (i + 1) bs = .ok rest ∧
      sets = (b.oid.text, x) :: rest := by
  rw [stage]
  cases s.varType? b.oid.text with
  | none => simp
  | some t =>
    cases hx : Value.ofWire t b.value with
    | error e => simp [hx]
    | ok x => cases s.stage (i + 1) bs <;> simp [hx, Except.map, eq_comm]

theorem length_stage : ∀ {bs : List Binding} {i : Nat} {sets : List (String × Value)},
    s.stage i bs = .ok sets → sets.length = bs.length
  | [], i, sets, h => by
    cases h
    rfl
  | b :: bs, i, sets, h => by
    obtain ⟨t, x, rest, -, -, hrest, rfl⟩ := stage_cons_eq_ok_iff.1 h
    rw [List.length_cons, List.length_cons, length_stage hrest]

theorem lt_of_stage_eq_error {failure : Nat × StoreError} : ∀ {bs : List Binding} {i : Nat},
    s.stage i bs = .error failure → failure.1 < i + bs.length
  | b :: bs, i, h => by
    unfold stage at h
    rw [List.length_cons]
    split at h
    · cases h
      exact Nat.lt_add_of_pos_right (Nat.succ_pos _)
    · split at h
      · cases h
        exact Nat.lt_add_of_pos_right (Nat.succ_pos _)
      · cases hs : s.stage (i + 1) bs with
        | error failure' =>
          rw [hs] at h
          cases h
          have hlt := lt_of_stage_eq_error hs
          omega
        | ok rest =>
          rw [hs] at h
          cases h

theorem lt_of_setAll_closed {failure : Nat × StoreError} :
    ∀ {sets : List (String × Value)} {s : Store} {i : Nat},
      (s.setAll i sets).closed.2 = some failure → failure.1 < i + sets.length
  | [], s, i, h => by cases h
  | (oid, v) :: rest, s, i, h => by
    unfold setAll at h
    rw [List.length_cons]
    split at h
    · cases h
      exact Nat.lt_add_of_pos_right (Nat.succ_pos _)
    · have hlt := lt_of_setAll_closed h
      omega
    · cases h
      exact Nat.lt_add_of_pos_right (Nat.succ_pos _)

end Store

/-! ## Responses -/

namespace Agent

variable {a : Agent} {s : Store} {m r : Message}

/-- The messages without an answer: responses, and requests their community may not make. -/
def Drops (a : Agent) (m : Message) : Prop :=
  m.kind = .response ∨ (m.kind = .set ∧ m.community ≠ a.writeCommunity) ∨
    ((m.kind = .get ∨ m.kind = .getNext) ∧ m.community ≠ a.writeCommunity ∧
      m.community ≠ a.readCommunity)

theorem admits_eq_false_iff : a.admits m = false ↔ a.Drops m := by
  unfold admits Drops
  cases m.kind <;> simp

/-- The response to a request by its kind. -/
theorem of_handle (h : (a.handle s m).1 = some r) :
    (m.kind = .get ∧ r = retrieve m (s.getBinding m.version)) ∨
      (m.kind = .getNext ∧ r = retrieve m (s.nextBinding m.version)) ∨
      (m.kind = .set ∧ ∃ failure, r = m.settle failure ∧
        ∀ f, failure = some f → f.1 < m.bindings.length) := by
  have hpair : a.handle s m = (some r, (a.handle s m).2) := Prod.ext h rfl
  cases hk : m.kind with
  | get =>
    simp only [handle, hk] at h
    split at h
    · cases h
      exact .inl ⟨rfl, rfl⟩
    · cases h
  | getNext =>
    simp only [handle, hk] at h
    split at h
    · cases h
      exact .inr (.inl ⟨rfl, rfl⟩)
    · cases h
  | set =>
    refine .inr (.inr ⟨rfl, ?_⟩)
    obtain ⟨failure, hf, hr, -⟩ | ⟨sets, hs, hr, -⟩ := of_handle_set hk hpair
    · refine ⟨some failure, hr, fun f hf' => ?_⟩
      cases hf'
      exact Nat.zero_add m.bindings.length ▸ Store.lt_of_stage_eq_error hf
    · refine ⟨_, hr, fun f hf => ?_⟩
      rw [← Store.length_stage hs]
      exact Nat.zero_add sets.length ▸ Store.lt_of_setAll_closed hf
  | response =>
    simp only [handle, hk] at h
    split at h <;> cases h

theorem handle_eq_none_iff : (a.handle s m).1 = none ↔ a.Drops m := by
  rw [← admits_eq_false_iff]
  unfold handle
  cases ha : a.admits m with
  | false => simp
  | true =>
    unfold admits at ha
    cases hk : m.kind with
    | get | getNext => simp
    | set =>
      simp only [if_true]
      split <;> simp
    | response =>
      rw [hk] at ha
      cases ha

theorem answeredBy_of_handle (h : (a.handle s m).1 = some r) : m.AnsweredBy r := by
  obtain ⟨-, rfl⟩ | ⟨-, rfl⟩ | ⟨-, failure, rfl, hf⟩ := of_handle h
  · exact answeredBy_retrieve m _
  · exact answeredBy_retrieve m _
  · exact Message.answeredBy_settle hf

theorem names_retrieve {f : Binding → Option Binding} (hm : m.Names)
    (hf : ∀ b c, b.oid.Names → f b = some c → c.Names) : (retrieve m f).Names := by
  obtain ⟨cs, hcs, h⟩ | ⟨i, -, h⟩ := retrieve_cases m f
  · rw [h]
    intro c hc
    obtain ⟨b, hb, hbc⟩ := List.mem_map.1 (hcs ▸ List.mem_map_of_mem (f := some) hc)
    exact hf b c (hm b hb).1 hbc
  · rw [h]
    exact hm

theorem names_of_handle (hm : m.Names) (h : (a.handle s m).1 = some r) : r.Names := by
  obtain ⟨-, rfl⟩ | ⟨-, rfl⟩ | ⟨-, failure, rfl, -⟩ := of_handle h
  · exact names_retrieve hm fun b c => Store.names_getBinding
  · exact names_retrieve hm fun b c => Store.names_nextBinding
  · cases failure <;> exact hm

/-- A Get that succeeds has found something under every identifier, unless v2c says what it has
not. -/
theorem bindings_of_get (hk : m.kind = .get) (h : (a.handle s m).1 = some r)
    (hr : r.errorStatus = ErrorStatus.noError) :
    r.bindings = m.bindings.map s.found ∧
      (m.version = .v1 → ∀ b ∈ m.bindings, (s.get? b.oid.text).isSome) := by
  obtain ⟨-, rfl⟩ | ⟨hk', -⟩ | ⟨hk', -⟩ := of_handle h
  · have hbs := bindings_retrieve hr
    have hsome : ∀ b ∈ m.bindings, ∃ c, s.getBinding m.version b = some c := fun b hb => by
      obtain ⟨c, -, hc⟩ := List.mem_map.1 (hbs.symm ▸ List.mem_map_of_mem hb)
      exact ⟨c, hc.symm⟩
    refine ⟨List.map_injective_iff.2 (fun _ _ => Option.some.inj) ?_, fun hv b hb => ?_⟩
    · rw [hbs, List.map_map]
      refine List.map_congr_left fun b hb => ?_
      obtain ⟨c, hc⟩ := hsome b hb
      rw [hc, (Store.of_getBinding hc).1]
      rfl
    · obtain ⟨c, hc⟩ := hsome b hb
      exact (Store.of_getBinding hc).2 hv
  · rw [hk] at hk'
    cases hk'
  · rw [hk] at hk'
    cases hk'

theorem not_isException_of_retrieved (hv : m.version = .v1) (hk : m.kind = .get ∨ m.kind = .getNext)
    (h : (a.handle s m).1 = some r) (hr : r.errorStatus = ErrorStatus.noError) :
    ∀ c ∈ r.bindings, ¬ c.value.IsException := by
  intro c hc
  obtain ⟨-, rfl⟩ | ⟨-, rfl⟩ | ⟨hk', -⟩ := of_handle h
  · obtain ⟨b, -, hb⟩ := exists_of_mem_retrieve hr hc
    exact Store.not_isException_getBinding (hv ▸ hb)
  · obtain ⟨b, -, hb⟩ := exists_of_mem_retrieve hr hc
    exact Store.not_isException_nextBinding (hv ▸ hb)
  · rw [hk'] at hk
    rcases hk with hk | hk <;> cases hk

/-- A datagram that is answered is a request, and its answer is received as a response to it. -/
theorem of_process {d bytes : List UInt8} (h : (a.process s d).1 = some bytes) :
    ∃ m r, Message.decode d = .ok m ∧ (a.handle s m).1 = some r ∧ bytes = r.encode ∧
      (bytes.length < 0x100000000 →
        Message.decode bytes = .ok r.received ∧ m.AnsweredBy r.received) := by
  unfold process at h
  split at h
  · cases h
  · rename_i m hm
    obtain ⟨r, hr, rfl⟩ := Option.map_eq_some_iff.1 h
    have he := (Message.of_decode hm).1
    exact ⟨m, r, hm, hr, rfl, fun hlen =>
      ⟨Message.decode_encode_received (names_of_handle (fun b hb => (he b hb).names) hr) hlen,
        (answeredBy_of_handle hr).received he⟩⟩

/-- An agent drops what it may not answer and answers all else with one response: a Get with the
values under the identifiers, under v1 with no exception among them. What it sends for a datagram is
received as a response to the request in it. -/
theorem answers_wellFormed (a : Agent) (s : Store) :
    (∀ m, (a.handle s m).1 = none ↔ a.Drops m) ∧
    (∀ m r, (a.handle s m).1 = some r → m.AnsweredBy r ∧
      (m.kind = .get → r.errorStatus = ErrorStatus.noError →
        r.bindings = m.bindings.map s.found ∧
          (m.version = .v1 → ∀ b ∈ m.bindings, (s.get? b.oid.text).isSome)) ∧
      (m.version = .v1 → m.kind = .get ∨ m.kind = .getNext →
        r.errorStatus = ErrorStatus.noError → ∀ c ∈ r.bindings, ¬ c.value.IsException)) ∧
    ∀ d bytes, (a.process s d).1 = some bytes →
      ∃ m r, Message.decode d = .ok m ∧ (a.handle s m).1 = some r ∧ bytes = r.encode ∧
        (bytes.length < 0x100000000 →
          Message.decode bytes = .ok r.received ∧ m.AnsweredBy r.received) :=
  ⟨fun _ => handle_eq_none_iff,
    fun _ _ h => ⟨answeredBy_of_handle h, fun hk hr => bindings_of_get hk h hr,
      fun hv hk hr => not_isException_of_retrieved hv hk h hr⟩,
    fun _ _ h => of_process h⟩

/-- A step of a walk to an identifier that is received as another one. -/
def walkPastArc39 : Message where
  version := .v1
  community := Text.utf8 "public"
  kind := .getNext
  requestId := -7
  errorStatus := 0
  errorIndex := 0
  bindings := [⟨[1, 39], .null⟩]

/-- The same message as a walk, as a Get and as a response. -/
theorem answers_wellFormed_walk : ∃ p bytes r g, Script.Program.parse
      "var\n x: .1.40 integer\nendvar\nrun\nendrun\n" Oid.mib2 = .ok p ∧
    let a := ofCommunities "public" "private"
    let s := Store.load p.types
    (a.process s walkPastArc39.encode).1 = some bytes ∧ Message.decode bytes = .ok r ∧
      walkPastArc39.AnsweredBy r ∧ r.bindings = [⟨[2, 0], .integer 0⟩] ∧
      (a.handle s { walkPastArc39 with kind := .get, version := .v2c }).1 = some g ∧
      g.bindings = [⟨[1, 39], .noSuchObject⟩] ∧
      (a.handle s { walkPastArc39 with kind := .response }).1 = none := by
  obtain ⟨p, hp, h⟩ := Script.Program.exists_parse
    "var\n x: .1.40 integer\nendvar\nrun\nendrun\n" Oid.mib2
    (fun p =>
      let a := ofCommunities "public" "private"
      let s := Store.load p.types
      let reply := (a.process s walkPastArc39.encode).1
      reply.isSome ∧ (∀ bytes ∈ reply, bytes.length < 0x100000000 ∧
        ∀ r ∈ (Message.decode bytes).toOption, r.bindings = [⟨[2, 0], .integer 0⟩]) ∧
      ((a.handle s { walkPastArc39 with kind := .get, version := .v2c }).1.map (·.errorStatus) =
        some ErrorStatus.noError) ∧
      s.found ⟨[1, 39], .null⟩ = ⟨[1, 39], .noSuchObject⟩)
    (by decide +kernel)
  obtain ⟨hreply, hbytes, hget, hfound⟩ := of_decide_eq_true h
  obtain ⟨bytes, hreply⟩ := Option.isSome_iff_exists.1 hreply
  obtain ⟨hlen, hread⟩ := hbytes bytes hreply
  obtain ⟨g, hg, hstatus⟩ := Option.map_eq_some_iff.1 hget
  obtain ⟨hdrops, hanswers, hprocess⟩ :=
    answers_wellFormed (ofCommunities "public" "private") (.load p.types)
  obtain ⟨m, r, hm, -, -, hreceived⟩ := hprocess _ bytes hreply
  obtain ⟨hr, hanswered⟩ := hreceived hlen
  rw [show Message.decode walkPastArc39.encode = .ok walkPastArc39 by decide +kernel] at hm
  cases hm
  refine ⟨p, bytes, r.received, g, hp, hreply, hr, hanswered, ?_, hg, ?_, ?_⟩
  · exact hread _ (by rw [hr]; rfl)
  · rw [((hanswers _ g hg).2.1 rfl hstatus).1]
    exact congrArg (fun b => [b]) hfound
  · exact (hdrops _).2 (.inl rfl)

end Agent

end ScriptedAgent
