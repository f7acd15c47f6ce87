import ScriptedAgent.Proofs.Script.WellKinded
import ScriptedAgent.Proofs.Store.Sound

/-!
# What a Set leaves behind

A Set is read as a whole and then applied binding by binding, and only the second of these looks at
the access of a variable. So a Set that is refused while it is applied has put the values before the
refused one into the store (`Store.applied`): the store is unchanged exactly if these are the values
it held.
-/

namespace ScriptedAgent

namespace Store

variable {s s' : Store} {name oid : String} {v : Value}

/-- Whether a manager's set reaches the store. -/
def takes (s : Store) (set : String × Value) : Bool :=
  match s.deliver set.1 set.2 with
  | .ok (.stored _) => true
  | _ => false

/-- The value that the last of some sets gives to `name`. -/
def lastSet? (T : TypeTable) (name : String) : List (String × Value) → Option Value
  | [] => none
  | (oid, v) :: rest =>
    (lastSet? T name rest).or (if T.nameForOid? oid = some name then some v else none)

/-- The sets of a request that reach the store: none if one of its bindings has no object or not a
value for it, and otherwise those before the first that the store does not take. -/
def applied (s : Store) (bindings : List Binding) : List (String × Value) :=
  match s.stage 0 bindings with
  | .error _ => []
  | .ok sets => sets.takeWhile s.takes

/-- It depends on the types alone. -/
theorem takes_iff : s.takes (oid, v) = true ↔
    ∃ name t, s.types.nameForOid? oid = some name ∧ s.types.get? name = some t ∧ t.Admits v ∧
      t.kind ≠ .counter ∧ t.access = .readwrite := by
  unfold takes
  constructor
  · intro h
    split at h
    · rename_i hd
      obtain ⟨name, t, hn, ht, hv, hk, ⟨-, hd⟩ | ⟨ha, -⟩⟩ := of_deliver hd
      · cases hd
      · exact ⟨name, t, hn, ht, hv, hk, ha⟩
    · cases h
  · rintro ⟨name, t, hn, ht, hv, hk, ha⟩
    simp only [deliver_of_readwrite hn ht hv hk ha]

theorem takes_congr (h : s'.types = s.types) : s'.takes = s.takes := by
  funext ⟨oid, v⟩
  rw [Bool.eq_iff_iff, takes_iff, takes_iff, h]

/-- The values that sets leave, those that do not reach the store left out. -/
theorem read?_setAll (name : String) : ∀ (sets : List (String × Value)) (s : Store) (i : Nat),
    (s.setAll i sets).store.read? name =
      (lastSet? s.types name (sets.takeWhile s.takes)).or (s.read? name)
  | [], s, i => rfl
  | (oid, v) :: rest, s, i => by
    cases hd : s.deliver oid v with
    | error e => simp only [setAll, hd, List.takeWhile, takes, lastSet?]; rfl
    | ok d =>
      cases d with
      | handover n => simp only [setAll, hd, List.takeWhile, takes, lastSet?]; rfl
      | stored s₁ =>
        obtain ⟨n, t, hn, ht, hv, -, ⟨-, h⟩ | ⟨-, h⟩⟩ := of_deliver hd
        · cases h
        · cases h
          have htakes : s.takes (oid, v) = true := by simp only [takes, hd]
          have htypes : (s.put n v).types = s.types := rfl
          rw [List.takeWhile_cons_of_pos htakes, lastSet?, hn, setAll, hd]
          simp only
          rw [read?_setAll name rest (s.put n v) (i + 1), takes_congr htypes, htypes, read?_put]
          simp only [Option.some.injEq, eq_comm (a := name)]
          split <;> simp

/-- A refusal is of the first set that the store does not take. -/
theorem failure_setAll {failure : Nat × StoreError} :
    ∀ (sets : List (String × Value)) (s : Store) (i : Nat),
      (s.setAll i sets).closed.2 = some failure →
        failure.1 = i + (sets.takeWhile s.takes).length
  | [], s, i, h => by cases h
  | (oid, v) :: rest, s, i, h => by
    cases hd : s.deliver oid v with
    | error e =>
      simp only [setAll, hd, Progress.closed, Option.some.injEq] at h
      simp only [List.takeWhile, takes, hd, ← h]
      rfl
    | ok d =>
      cases d with
      | handover n =>
        simp only [setAll, hd, Progress.closed, Option.some.injEq] at h
        simp only [List.takeWhile, takes, hd, ← h]
        rfl
      | stored s₁ =>
        have htakes : s.takes (oid, v) = true := by simp only [takes, hd]
        simp only [setAll, hd] at h
        rw [List.takeWhile_cons_of_pos htakes, List.length_cons, failure_setAll rest s₁ (i + 1) h,
          takes_congr (deliver_keeps hd).1]
        omega

end Store

namespace Agent

variable {a : Agent} {s s' : Store} {m reply : Message}

/-- A Set that is answered either stops at a binding it cannot read, or applies what it has read. -/
theorem of_handle_set (hk : m.kind = .set) (h : a.handle s m = (some reply, s')) :
    (∃ failure, s.stage 0 m.bindings = .error failure ∧ reply = m.settle (some failure) ∧ s' = s) ∨
      ∃ sets, s.stage 0 m.bindings = .ok sets ∧
        reply = m.settle (s.setAll 0 sets).closed.2 ∧ s' = (s.setAll 0 sets).closed.1 := by
  unfold handle at h
  simp only [hk] at h
  split at h
  · split at h
    · rename_i failure hf
      cases h
      exact .inl ⟨failure, hf, rfl, rfl⟩
    · rename_i sets hs
      cases h
      exact .inr ⟨sets, hs, rfl, rfl⟩
  · cases h

/-- The values after a Set are those of the sets it has applied, and the others are as before. -/
theorem read?_handle_set (hk : m.kind = .set) (h : a.handle s m = (some reply, s'))
    (name : String) :
    s'.read? name = (Store.lastSet? s.types name (s.applied m.bindings)).or (s.read? name) := by
  obtain ⟨failure, hf, -, rfl⟩ | ⟨sets, hs, -, rfl⟩ := of_handle_set hk h
  · simp only [Store.applied, hf, Store.lastSet?, Option.none_or]
  · rw [Store.Progress.closed_fst, Store.read?_setAll, Store.applied, hs]

/-- The binding that a refusal blames comes right behind those that were applied, unless none was
because a binding could not be read. -/
theorem errorIndex_of_refused (hk : m.kind = .set) (h : a.handle s m = (some reply, s'))
    (he : reply.errorStatus ≠ ErrorStatus.noError) :
    (∃ failure, s.stage 0 m.bindings = .error failure) ∨
      reply.errorIndex = Int64.ofNat ((s.applied m.bindings).length + 1) := by
  obtain ⟨failure, hf, -, -⟩ | ⟨sets, hs, rfl, -⟩ := of_handle_set hk h
  · exact .inl ⟨failure, hf⟩
  · refine .inr ?_
    cases hc : (s.setAll 0 sets).closed.2 with
    | none => simp [hc, Message.settle, Message.respond] at he
    | some failure =>
      have hi := Store.failure_setAll sets s 0 hc
      rw [Nat.zero_add] at hi
      simp only [Message.settle, Message.refuse, hi, Store.applied, hs]

/-- A refused Set has put the values before the binding it blames into the store, and nothing else.
So it changes nothing exactly if every variable held the last value that these give it. -/
theorem refused_set_unchanged_iff (hk : m.kind = .set) (h : a.handle s m = (some reply, s'))
    (he : reply.errorStatus ≠ ErrorStatus.noError) :
    ((∃ failure, s.stage 0 m.bindings = .error failure) ∨
        reply.errorIndex = Int64.ofNat ((s.applied m.bindings).length + 1)) ∧
      (∀ name, s'.read? name =
        (Store.lastSet? s.types name (s.applied m.bindings)).or (s.read? name)) ∧
      ((∀ name, s'.read? name = s.read? name) ↔
        ∀ name v, Store.lastSet? s.types name (s.applied m.bindings) = some v →
          s.read? name = some v) := by
  have hread := read?_handle_set hk h
  refine ⟨errorIndex_of_refused hk h he, hread, fun hs name v hv => ?_, fun hs name => ?_⟩
  · rw [← hs name, hread, hv, Option.some_or]
  · rw [hread]
    cases hv : Store.lastSet? s.types name (s.applied m.bindings) with
    | none => rw [Option.none_or]
    | some v => rw [Option.some_or, hs name v hv]

/-- A Set of a variable that may be set and then of one that may not. -/
def halfRefused : Message where
  version := .v2c
  community := Text.utf8 "private"
  kind := .set
  requestId := 9
  errorStatus := 0
  errorIndex := 0
  bindings := [⟨[1, 3, 6, 1, 2, 1, 1], .integer 5⟩, ⟨[1, 3, 6, 1, 2, 1, 2], .integer 1⟩]

theorem handle_halfRefused : ∃ (T : TypeTable) (reply : Message) (s' : Store),
    (ofCommunities "public" "private").handle (.load T) halfRefused = (some reply, s') ∧
      reply.errorStatus = ErrorStatus.notWritable ∧
      (Store.load T).read? "x" = some (.integer 0) ∧ s'.read? "x" = some (.integer 5) := by
  obtain ⟨p, -, h⟩ := Script.Program.exists_parse
    "var\n x: 1 integer readwrite\n y: 2 integer\nendvar\nrun\nendrun\n" Oid.mib2
    (fun p =>
      let r := (ofCommunities "public" "private").handle (.load p.types) halfRefused
      r.1.map (·.errorStatus) = some ErrorStatus.notWritable ∧
        (Store.load p.types).read? "x" = some (.integer 0) ∧ r.2.read? "x" = some (.integer 5))
    (by decide +kernel)
  obtain ⟨hr, h₀, h₅⟩ := of_decide_eq_true h
  obtain ⟨reply, hr, he⟩ := Option.map_eq_some_iff.1 hr
  exact ⟨p.types, reply, _, Prod.ext hr rfl, he, h₀, h₅⟩

theorem halfRefused_changed_iff : ∃ (T : TypeTable) (reply : Message) (s' : Store),
    (ofCommunities "public" "private").handle (.load T) halfRefused = (some reply, s') ∧
      reply.errorStatus ≠ ErrorStatus.noError ∧
      ((∀ name, s'.read? name = (Store.load T).read? name) ↔
        ∀ name v, Store.lastSet? T name ((Store.load T).applied halfRefused.bindings) = some v →
          (Store.load T).read? name = some v) := by
  obtain ⟨T, reply, s', h, he, -, -⟩ := handle_halfRefused
  have he : reply.errorStatus ≠ ErrorStatus.noError := by rw [he]; decide
  exact ⟨T, reply, s', h, he, (refused_set_unchanged_iff rfl h he).2.2⟩

/-- A refused Set can change a variable. -/
theorem not_refused_set_unchanged :
    ¬ ∀ (a : Agent) (s : Store) (m reply : Message) (s' : Store), m.kind = .set →
      a.handle s m = (some reply, s') → reply.errorStatus ≠ ErrorStatus.noError →
        ∀ name, s'.read? name = s.read? name := by
  intro h
  obtain ⟨T, reply, s', hr, he, h₀, h₅⟩ := handle_halfRefused
  have hx := h _ _ _ _ _ rfl hr (by rw [he]; decide) "x"
  rw [h₀, h₅] at hx
  exact absurd hx (by decide)

end Agent

end ScriptedAgent
