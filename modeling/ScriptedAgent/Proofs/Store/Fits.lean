import ScriptedAgent.Proofs.Bitset
import ScriptedAgent.Proofs.Run.Positions
import ScriptedAgent.Proofs.Store.Registers
import ScriptedAgent.Proofs.Wire.Message

/-!
# Bitsets and the limit of an octet string

Expressions and initial values name no position past the last that fits an octet string. What comes
from outside is checked for its kind only, so a bitset that a manager or a caller of the store
brings is held whatever its positions are (`not_bitsets_fit`). There is no other way in: every
position that a store holds is within the limit, or some operation brought it. So the bitsets fit
as long as all that are brought do, which holds of those in datagrams of the size of an octet string
(`Store.bitsets_fit_iff`).
-/

namespace ScriptedAgent

variable {q : Nat}

theorem Bitset.length_octets_le_maxSize_iff {b : Bitset} :
    b.octets.length ≤ Octets.maxSize ↔ ∀ p ∈ b, p ≤ maxPosition := by
  rw [length_octets_le_iff]
  refine forall₂_congr fun p _ => ?_
  rw [maxPosition, Octets.maxSize]
  omega

/-- A datagram with a position in it is long enough for the octets before it. -/
theorem Message.lt_of_carries_decode {datagram : List UInt8} {m : Message}
    (h : decode datagram = .ok m) (hq : m.Carries q) : q < 8 * datagram.length := by
  obtain ⟨b, hb, bytes, hbytes, hmem⟩ := hq
  have hlt := Bitset.lt_of_mem_ofOctets hmem
  have hvalue : bytes.length < b.value.encode.length := by
    rw [hbytes]
    exact Ber.length_lt_tlv Ber.Tag.octetString bytes
  have hbinding : b.value.encode.length < b.encode.length := by
    have := Ber.length_lt_tlv Ber.Tag.sequence (Ber.oid b.oid ++ b.value.encode)
    rw [List.length_append] at this
    rw [Binding.encode]
    omega
  have hbindings := Binding.length_encode_le hb
  have hpdu : (m.bindings.flatMap Binding.encode).length < m.pdu.length := by
    have := Ber.length_lt_tlv Ber.Tag.sequence (m.bindings.flatMap Binding.encode)
    rw [pdu, List.length_append]
    omega
  have hbody : m.pdu.length < m.body.length := by
    have := Ber.length_lt_tlv m.kind.tag m.pdu
    rw [body, List.length_append]
    omega
  have hmessage := Ber.length_lt_tlv Ber.Tag.sequence m.body
  rw [← encode_eq] at hmessage
  have := (of_decode h).2
  omega

namespace Store

/-- What happens to a store, with all that is brought to it from outside. -/
inductive Action where
  | operate (op : Operation)
  | initials (is : List Initializer)
  | request (a : Agent) (m : Message)
  | datagram (a : Agent) (bytes : List UInt8)
  /-- A statement is executed by a machine in the place of whose store this one is. -/
  | execute (T : TypeTable) (stmt : Script.Stmt) (fuel : Nat) (m : Machine)

/-- The store after the action. An execution without an outcome leaves it as it is. -/
def act (s : Store) : Action → Store
  | .operate op => s.after (s.perform op)
  | .initials is => (Initializer.applyAll s is).1
  | .request a m => (a.handle s m).2
  | .datagram a bytes => (a.process s bytes).2
  | .execute T stmt fuel m => match stmt.exec T fuel { m with store := s } with
    | some o => o.2.store
    | none => s

def actAll (s : Store) (actions : List Action) : Store := actions.foldl act s

/-- The operation brings a bitset with the position. -/
def Operation.Carries : Operation → Nat → Prop
  | write _ v, q | set _ v, q => v.Carries q
  | readField _ _, _ | writeField _ _ _, _ => False

/-- The action brings a bitset with the position. -/
def Action.Carries : Action → Nat → Prop
  | operate op, q => op.Carries q
  | initials _, _ => False
  | request _ m, q => m.Carries q
  | datagram _ bytes, q => ∃ m, Message.decode bytes = .ok m ∧ m.Carries q
  | execute _ _ _ m, q => m.feed.Carries q

variable {T : TypeTable} {s s' : Store} {x : String}

/-! ## Histories -/

theorem Reachable.act (h : Reachable T s) : ∀ a : Action, Reachable T (s.act a)
  | .operate op => h.after_perform op
  | .initials is => h.next (.initials is)
  | .request a m => h.next (.request a m)
  | .datagram a bytes => h.next (.datagram a bytes)
  | .execute T' stmt fuel m => by
    rw [Store.act]
    split
    · rename_i o ho
      exact h.next (.execute T' stmt fuel _ o rfl ho)
    · exact h

theorem Reachable.actAll (h : Reachable T s) (actions : List Action) :
    Reachable T (s.actAll actions) := by
  induction actions generalizing s with
  | nil => exact h
  | cons a actions ih => exact ih (h.act a)

theorem Step.exists_act (h : Step s s') : ∃ a, s.act a = s' := by
  cases h with
  | write name v => exact ⟨.operate (.write name v), rfl⟩
  | writeField name f n => exact ⟨.operate (.writeField name f n), rfl⟩
  | set oid v => exact ⟨.operate (.set oid v), rfl⟩
  | initials is => exact ⟨.initials is, rfl⟩
  | request a m => exact ⟨.request a m, rfl⟩
  | datagram a bytes => exact ⟨.datagram a bytes, rfl⟩
  | execute T stmt fuel m o hs ho =>
    subst hs
    refine ⟨.execute T stmt fuel m, ?_⟩
    rw [act, ho]

/-- The stores that are reachable are those that actions lead to. -/
theorem reachable_iff_exists_actions :
    Reachable T s ↔ ∃ actions, (load T).actAll actions = s := by
  constructor
  · intro h
    induction h with
    | loaded => exact ⟨[], rfl⟩
    | next _ hstep ih =>
      obtain ⟨actions, rfl⟩ := ih
      obtain ⟨a, rfl⟩ := hstep.exists_act
      exact ⟨actions ++ [a], List.foldl_append⟩
  · rintro ⟨actions, rfl⟩
    exact Reachable.loaded.actAll actions

/-! ## Where positions come from -/

theorem of_carries_perform {op : Operation} (hq : (s.after (s.perform op)).Carries q) :
    s.Carries q ∨ op.Carries q := by
  cases h : s.perform op with
  | error e =>
    rw [h] at hq
    exact .inl hq
  | ok s' =>
    rw [h] at hq
    cases op with
    | readField name f =>
      rw [perform] at h
      cases hr : s.readField name f <;> rw [hr] at h <;> cases h
      exact .inl hq
    | writeField name f n => exact .inl (of_carries_writeField h hq)
    | write name v => exact of_carries_write h hq
    | set oid v => exact of_carries_set h hq

theorem of_carries_act {a : Action} (hq : (s.act a).Carries q) :
    s.Carries q ∨ q ≤ Bitset.maxPosition ∨ a.Carries q := by
  cases a with
  | operate op => exact (of_carries_perform hq).imp_right .inr
  | initials is => exact (Initializer.of_carries_applyAll hq).imp_right .inl
  | request a m => exact (Agent.of_carries_handle hq).imp_right .inr
  | datagram a bytes => exact (Agent.of_carries_process hq).imp_right .inr
  | execute T stmt fuel m =>
    rw [act] at hq
    split at hq
    · rename_i o ho
      rcases Script.Stmt.of_carries_exec ho hq with (hq | hq) | hq
      · exact .inl hq
      · exact .inr (.inr hq)
      · exact .inr (.inl hq)
    · exact .inl hq

/-- A position that has been brought in by nothing was there before, or may be named by a script. -/
theorem of_carries_actAll {actions : List Action} (hq : (s.actAll actions).Carries q) :
    s.Carries q ∨ q ≤ Bitset.maxPosition ∨ ∃ a ∈ actions, a.Carries q := by
  induction actions generalizing s with
  | nil => exact .inl hq
  | cons a actions ih =>
    rcases ih hq with hq | hq | ⟨b, hb, hq⟩
    · exact (of_carries_act hq).imp_right (.imp_right fun hq => ⟨a, List.mem_cons_self, hq⟩)
    · exact .inr (.inl hq)
    · exact .inr (.inr ⟨b, List.mem_cons_of_mem _ hb, hq⟩)

theorem read?_act_write {b : Bitset} (h : Reachable T s) (hx : T.kindOf? x = some .bitset) :
    (s.act (.operate (.write x (.bits b)))).read? x = some (.bits b) := by
  obtain ⟨t, ht, hk⟩ := Option.map_eq_some_iff.1 hx
  have hadmits : t.Admits (.bits b) := hk
  rw [act, perform, write_of_admits (h.types_eq ▸ ht) hadmits, after, read?_put, if_pos rfl]

/-- The stores of a script with a bitset variable are those that actions lead to, and a position that
a variable holds is then within the limit or was brought from outside by one of the actions. The
bitsets of all histories fit an octet string exactly if all that is brought is within the limit,
which what comes in a datagram of the size of an octet string is. -/
theorem bitsets_fit_iff (hx : T.kindOf? x = some .bitset) (P : Nat → Prop) :
    (∀ s, Reachable T s ↔ ∃ actions, (load T).actAll actions = s) ∧
    (∀ actions name b q, ((load T).actAll actions).read? name = some (.bits b) → q ∈ b →
      q ≤ Bitset.maxPosition ∨ ∃ a ∈ actions, a.Carries q) ∧
    ((∀ actions, (∀ a ∈ actions, ∀ q, a.Carries q → P q) → ∀ name b,
        ((load T).actAll actions).read? name = some (.bits b) →
          b.octets.length ≤ Octets.maxSize) ↔
      ∀ q, P q → q ≤ Bitset.maxPosition) ∧
    ∀ a bytes q, bytes.length ≤ Octets.maxSize → (Action.datagram a bytes).Carries q →
      q ≤ Bitset.maxPosition := by
  have hsource : ∀ actions name b q, ((load T).actAll actions).read? name = some (.bits b) →
      q ∈ b → q ≤ Bitset.maxPosition ∨ ∃ a ∈ actions, a.Carries q :=
    fun actions name b q hb hq =>
      (of_carries_actAll ⟨name, _, hb, b, rfl, hq⟩).resolve_left (not_carries_load T)
  refine ⟨fun s => reachable_iff_exists_actions, hsource,
    ⟨fun h q hq => ?_, fun h actions hP name b hb => ?_⟩, ?_⟩
  · -- the history that writes this one position is among those that fit
    have hfit := h [.operate (.write x (.bits (.ofList [q])))] ?_ x (.ofList [q])
      (read?_act_write .loaded hx)
    · exact Bitset.length_octets_le_maxSize_iff.1 hfit q (Bitset.mem_ofList.2 List.mem_cons_self)
    · intro a ha r hr
      obtain rfl := List.mem_singleton.1 ha
      obtain ⟨_, heq, hr⟩ := hr
      cases heq
      rwa [List.mem_singleton.1 (Bitset.mem_ofList.1 hr)]
  · refine Bitset.length_octets_le_maxSize_iff.2 fun q hq => ?_
    rcases hsource actions name b q hb hq with hq | ⟨a, ha, hq⟩
    · exact hq
    · exact h q (hP a ha q hq)
  · rintro a bytes q hlen ⟨m, hm, hq⟩
    have hlt := Message.lt_of_carries_decode hm hq
    rw [Bitset.maxPosition]
    omega

/-- The last position within the limit and the first past it. -/
theorem bitsets_fit_iff_boundary :
    ∃ p, Script.Program.parse "var\n b: 1 bitset readwrite\nendvar\nrun\nendrun\n" Oid.mib2 =
        .ok p ∧ p.types.kindOf? "b" = some .bitset ∧
      ∀ last : Nat, (∀ actions, (∀ a ∈ actions, ∀ q, a.Carries q → q = last) → ∀ name b,
          ((load p.types).actAll actions).read? name = some (.bits b) →
            b.octets.length ≤ Octets.maxSize) ↔ last ≤ 524279 := by
  obtain ⟨p, hp, hx⟩ := Script.Program.exists_parse
    "var\n b: 1 bitset readwrite\nendvar\nrun\nendrun\n" Oid.mib2
    (fun p => p.types.kindOf? "b" = some .bitset) (by decide +kernel)
  have hx := of_decide_eq_true hx
  refine ⟨p, hp, hx, fun last => ?_⟩
  rw [(bitsets_fit_iff hx (· = last)).2.2.1, forall_eq]
  rfl

/-- A manager's set of a position past the limit. -/
theorem not_bitsets_fit : ¬ ∀ text base p s name b, Script.Program.parse text base = .ok p →
    Reachable p.types s → s.read? name = some (.bits b) →
      (∀ q ∈ b, q ≤ Bitset.maxPosition) ∧ b.octets.length ≤ Octets.maxSize := by
  intro h
  obtain ⟨p, hp, hx⟩ := Script.Program.exists_parse
    "var\n b: 1 bitset readwrite\nendvar\nrun\nendrun\n" Oid.mib2
    (fun p => ((load p.types).after ((load p.types).set ".1.3.6.1.2.1.1"
      (.bits (.ofList [524280])))).read? "b" = some (.bits (.ofList [524280])))
    (by decide +kernel)
  have hread := of_decide_eq_true hx
  have hreachable := Reachable.next .loaded
    (.set (s := load p.types) ".1.3.6.1.2.1.1" (.bits (.ofList [524280])))
  obtain ⟨hfit, -⟩ := h _ _ p _ "b" _ hp hreachable hread
  have hle := hfit 524280 (Bitset.mem_ofList.2 List.mem_cons_self)
  exact absurd hle (by decide)

end Store

end ScriptedAgent
