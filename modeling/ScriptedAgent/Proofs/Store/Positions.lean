import ScriptedAgent.Proofs.Store.Sound

/-!
# Where the positions of a store come from

A value carries the positions of the bitset it is, octets on the wire those of the bitset they are
read as. No conversion adds a position. So the store that an operation leaves carries what the store
before it carried and what the operation brought, and initial values add positions that a script may
name only (`Initializer.of_carries_applyAll`).
-/

namespace ScriptedAgent

variable {q : Nat}

namespace Bitset

variable {s t : Bitset} {ps : List Nat} {n : Int}

theorem mem_foldl_insert : ∀ {ps : List Nat} {s : Bitset}, q ∈ ps.foldl insert s ↔ q ∈ s ∨ q ∈ ps
  | [], s => by simp
  | p :: ps, s => by
    rw [List.foldl_cons, mem_foldl_insert, mem_insert, List.mem_cons, or_assoc, or_left_comm]

theorem mem_union : q ∈ s.union t ↔ q ∈ s ∨ q ∈ t := mem_foldl_insert

theorem mem_ofList : q ∈ ofList ps ↔ q ∈ ps := by
  rw [ofList, mem_foldl_insert]
  exact or_iff_right List.not_mem_nil

theorem le_maxPosition_of_position? (h : position? n = some q) : q ≤ maxPosition := by
  unfold position? at h
  split at h
  · cases h
    omega
  · cases h

end Bitset

/-! ## Values -/

/-- The value is a bitset with the position. -/
def Value.Carries (v : Value) (q : Nat) : Prop := ∃ b, v = .bits b ∧ q ∈ b

def Scalar.Carries (s : Scalar) (q : Nat) : Prop := ∃ b, s = .bits b ∧ q ∈ b

/-- The value is octets which, read as a bitset, have the position. -/
def WireValue.Carries (w : WireValue) (q : Nat) : Prop :=
  ∃ bytes, w = .octets bytes ∧ q ∈ Bitset.ofOctets bytes

theorem Value.of_carries_ofScalar {k : Kind} {s : Scalar} {v : Value} (h : ofScalar k s = .ok v)
    (hq : v.Carries q) : s.Carries q := by
  obtain ⟨b, rfl, hb⟩ := hq
  have hs : s = .bits b := by
    cases k <;> cases s <;> grind [ofScalar, ofUnsigned]
  exact ⟨b, hs, hb⟩

theorem Value.of_carries_toScalar {k : Kind} {s : Scalar} {v : Value} (h : toScalar k v = .ok s)
    (hq : s.Carries q) : v.Carries q := by
  obtain ⟨b, rfl, hb⟩ := hq
  have hv : v = .bits b := by
    unfold toScalar at h
    grind
  exact ⟨b, hv, hb⟩

theorem Value.of_carries_ofWire {t : VarType} {w : WireValue} {v : Value} (h : ofWire t w = .ok v)
    (hq : v.Carries q) : w.Carries q := by
  obtain ⟨b, rfl, hb⟩ := hq
  have hkind : ofWireKind t.kind w = .ok (.bits b) := by
    unfold ofWire at h
    grind
  obtain ⟨bytes, hw, rfl⟩ : ∃ bytes, w = .octets bytes ∧ b = .ofOctets bytes := by
    unfold ofWireKind at hkind
    grind
  exact ⟨bytes, hw, hb⟩

/-- Some binding of the message carries the position. -/
def Message.Carries (m : Message) (q : Nat) : Prop := ∃ b ∈ m.bindings, b.value.Carries q

namespace Store

variable {s s' : Store} {name oid : String} {v : Value}

/-- Some variable of the store carries the position. -/
def Carries (s : Store) (q : Nat) : Prop := ∃ name v, s.read? name = some v ∧ v.Carries q

/-- Some set of the list carries the position. -/
def SetsCarry (sets : List (String × Value)) (q : Nat) : Prop := ∃ e ∈ sets, e.2.Carries q

/-- The value that waits or one of the sets behind it carries the position. -/
def Offer.Carries (o : Offer) (q : Nat) : Prop := o.value.Carries q ∨ SetsCarry o.rest q

theorem not_carries_load (T : TypeTable) : ¬ (load T).Carries q := by
  rintro ⟨name, v, hv, b, rfl, hb⟩
  rw [read?, load, NameMap.get?_map] at hv
  obtain ⟨t, -, ht⟩ := Option.map_eq_some_iff.1 hv
  have hempty : b = .empty := by
    unfold VarType.zero at ht
    grind
  subst hempty
  cases hb

theorem of_carries_put (h : (s.put name v).Carries q) : s.Carries q ∨ v.Carries q := by
  obtain ⟨x, w, hw, hq⟩ := h
  rw [read?_put] at hw
  split at hw
  · cases hw
    exact .inr hq
  · exact .inl ⟨x, w, hw, hq⟩

theorem of_carries_write (h : s.write name v = .ok s') (hq : s'.Carries q) :
    s.Carries q ∨ v.Carries q := by
  obtain ⟨t, -, -, rfl⟩ := of_write h
  exact of_carries_put hq

theorem of_carries_writeField {f : Field} {n : Nat} (h : s.writeField name f n = .ok s')
    (hq : s'.Carries q) : s.Carries q := by
  obtain ⟨b, b', -, -, rfl⟩ := of_writeField h
  refine (of_carries_put hq).resolve_right ?_
  rintro ⟨_, hb, -⟩
  cases hb

theorem of_carries_set (h : s.set oid v = .ok s') (hq : s'.Carries q) :
    s.Carries q ∨ v.Carries q := by
  obtain ⟨_, _, -, -, -, rfl⟩ := of_set h
  exact of_carries_put hq

/-! ## Several sets -/

theorem of_carries_setAll : ∀ {sets : List (String × Value)} {s : Store} {i : Nat},
    (s.setAll i sets).store.Carries q → s.Carries q ∨ SetsCarry sets q
  | [], _, _, hq => .inl hq
  | (oid, v) :: rest, s, i, hq => by
    unfold setAll at hq
    split at hq
    · exact .inl hq
    · rename_i s₁ hd
      obtain ⟨_, _, -, -, -, -, ⟨-, hd⟩ | ⟨-, hd⟩⟩ := of_deliver hd
      · cases hd
      · cases hd
        rcases of_carries_setAll hq with hq | ⟨e, he, hq⟩
        · exact (of_carries_put hq).imp_right fun hq => ⟨_, List.mem_cons_self, hq⟩
        · exact .inr ⟨e, List.mem_cons_of_mem _ he, hq⟩
    · exact .inl hq

/-- A set that waits, and those behind it, are of the list. -/
theorem of_carries_offer {o : Offer} : ∀ {sets : List (String × Value)} {s : Store} {i : Nat},
    s.setAll i sets = .waiting s' o → o.Carries q → SetsCarry sets q
  | [], _, _, h, _ => by cases h
  | (oid, v) :: rest, s, i, h, hq => by
    unfold setAll at h
    split at h
    · cases h
    · obtain ⟨e, he, hq⟩ := of_carries_offer h hq
      exact ⟨e, List.mem_cons_of_mem _ he, hq⟩
    · cases h
      rcases hq with hq | ⟨e, he, hq⟩
      · exact ⟨_, List.mem_cons_self, hq⟩
      · exact ⟨e, List.mem_cons_of_mem _ he, hq⟩

theorem of_carries_stage : ∀ {bs : List Binding} {i : Nat} {sets : List (String × Value)},
    s.stage i bs = .ok sets → SetsCarry sets q → ∃ b ∈ bs, b.value.Carries q
  | [], _, _, h, hq => by
    cases h
    obtain ⟨_, he, -⟩ := hq
    cases he
  | b :: bs, i, sets, h, hq => by
    unfold stage at h
    split at h
    · cases h
    · split at h
      · cases h
      · rename_i v hv
        cases hrest : s.stage (i + 1) bs with
        | error e =>
          rw [hrest] at h
          cases h
        | ok rest =>
          rw [hrest] at h
          cases h
          obtain ⟨e, he, hq⟩ := hq
          rcases List.mem_cons.1 he with rfl | he
          · exact ⟨b, List.mem_cons_self, Value.of_carries_ofWire hv hq⟩
          · obtain ⟨b', hb', hq⟩ := of_carries_stage hrest ⟨e, he, hq⟩
            exact ⟨b', List.mem_cons_of_mem _ hb', hq⟩

end Store

/-! ## Requests and initial values -/

variable {s s' : Store}

theorem Agent.of_carries_handle {a : Agent} {m : Message} (hq : (a.handle s m).2.Carries q) :
    s.Carries q ∨ m.Carries q := by
  unfold handle at hq
  split at hq
  · split at hq
    · exact .inl hq
    · exact .inl hq
    · split at hq
      · exact .inl hq
      · rename_i sets hsets
        have hq : (s.setAll 0 sets).closed.1.Carries q := hq
        rw [Store.Progress.closed_fst] at hq
        exact (Store.of_carries_setAll hq).imp_right (Store.of_carries_stage hsets)
    · exact .inl hq
  · exact .inl hq

theorem Agent.of_carries_process {a : Agent} {datagram : List UInt8}
    (hq : (a.process s datagram).2.Carries q) :
    s.Carries q ∨ ∃ m, Message.decode datagram = .ok m ∧ m.Carries q := by
  unfold process at hq
  split at hq
  · exact .inl hq
  · rename_i m hm
    exact (of_carries_handle hq).imp_right fun hq => ⟨m, hm, hq⟩

namespace Initializer

theorem of_mem_readPositions {T : TypeTable} : ∀ {items : List (List Char)} {s b : Bitset},
    readPositions T items s = .ok b → q ∈ b → q ∈ s ∨ q ≤ Bitset.maxPosition
  | [], s, b, h, hq => by
    cases h
    exact .inl hq
  | item :: rest, s, b, h, hq => by
    rw [readPositions] at h
    cases hn : readInt T item with
    | error e =>
      rw [hn] at h
      cases h
    | ok n =>
      rw [hn] at h
      dsimp only [bind, Except.bind] at h
      split at h
      · rename_i p hp
        rcases of_mem_readPositions h hq with hq | hq
        · rcases Bitset.mem_insert.1 hq with rfl | hq
          · exact .inr (Bitset.le_maxPosition_of_position? hp)
          · exact .inl hq
        · exact .inr hq
      · cases h

theorem le_of_carries_readScalar {T : TypeTable} {k : Kind} {text : String} {x : Scalar}
    (h : readScalar T k text = .ok x) (hq : x.Carries q) : q ≤ Bitset.maxPosition := by
  obtain ⟨b, rfl, hb⟩ := hq
  have hread : readPositions T (items text.toList) .empty = .ok b := by
    cases hr : readPositions T (items text.toList) .empty <;>
      cases hn : readInt T text.toList <;> cases k <;> grind [readScalar, Except.map]
  refine (of_mem_readPositions hread hb).resolve_left ?_
  nofun

theorem le_of_carries_readValue {T : TypeTable} {t : VarType} {text : String} {v : Value}
    (h : readValue T t text = .ok v) (hq : v.Carries q) : q ≤ Bitset.maxPosition := by
  unfold readValue at h
  split at h
  · rename_i l _ _
    obtain ⟨b, rfl, -⟩ := hq
    cases hr : readFields l (items text.toList) (List.replicate l.size 0) <;> rw [hr] at h <;>
      cases h
  · split at h
    · cases h
    · rename_i x hx
      split at h
      · cases h
      · rename_i w hw
        cases h
        exact le_of_carries_readScalar hx (Value.of_carries_ofScalar hw hq)

theorem of_carries_apply {i : Initializer} (h : i.apply s = .ok s') (hq : s'.Carries q) :
    s.Carries q ∨ q ≤ Bitset.maxPosition := by
  unfold apply at h
  split at h
  · cases h
  · rename_i v hv
    split at h
    · cases h
    · rename_i hw
      cases h
      refine (Store.of_carries_write hw hq).imp_right fun hq => ?_
      unfold initialValue at hv
      split at hv
      · cases hv
      · split at hv
        · cases hv
        · rename_i hread
          cases hv
          exact le_of_carries_readValue hread hq

theorem of_carries_applyAll : ∀ {is : List Initializer} {s : Store},
    (applyAll s is).1.Carries q → s.Carries q ∨ q ≤ Bitset.maxPosition
  | [], s, hq => .inl hq
  | i :: is, s, hq => by
    unfold applyAll at hq
    split at hq
    · exact .inl hq
    · rename_i s₁ hs
      exact (of_carries_applyAll hq).elim (of_carries_apply hs) .inr

end Initializer

end ScriptedAgent
