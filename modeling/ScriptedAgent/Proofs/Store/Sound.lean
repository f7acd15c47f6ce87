import ScriptedAgent.Agent
import ScriptedAgent.Initializer
import ScriptedAgent.Proofs.Conversion
import ScriptedAgent.Proofs.Layout

/-!
# The store's invariant

A store is sound when exactly the declared variables hold values, each one that its type admits. The
fresh store is sound, and everything that changes a store comes down to `put` with an admitted
value: a write by name, a field, a manager's sets, initial values (`Keeps`).
-/

namespace ScriptedAgent.Store

variable {s s' s'' : Store} {name oid : String} {t : VarType} {v : Value}

/-- Exactly the declared variables hold values, and these are values of their types. -/
structure Sound (s : Store) : Prop where
  declared : ∀ name, (s.read? name).isSome = (s.types.get? name).isSome
  admits : ∀ {name t v}, s.types.get? name = some t → s.read? name = some v → t.Admits v

theorem load_sound (T : TypeTable) : (load T).Sound where
  declared name := by
    rw [read?, load, NameMap.get?_map, Option.isSome_map]
    rfl
  admits {name t v} ht hv := by
    have ht : T.vars.get? name = some t := ht
    rw [read?, load, NameMap.get?_map, ht] at hv
    simp only [Option.map_some, Option.some.injEq] at hv
    exact hv ▸ t.admits_zero

theorem Sound.exists_read? (h : s.Sound) (ht : s.types.get? name = some t) :
    ∃ v, s.read? name = some v ∧ t.Admits v := by
  have hd := h.declared name
  rw [ht, Option.isSome_some, Option.isSome_iff_exists] at hd
  obtain ⟨v, hv⟩ := hd
  exact ⟨v, hv, h.admits ht hv⟩

/-- `s'` has the types of `s`, and it is sound if `s` is. -/
def Keeps (s s' : Store) : Prop := s'.types = s.types ∧ (s.Sound → s'.Sound)

theorem Keeps.refl (s : Store) : s.Keeps s := ⟨rfl, id⟩

theorem Keeps.trans (h : s.Keeps s') (h' : s'.Keeps s'') : s.Keeps s'' :=
  ⟨h'.1.trans h.1, h'.2 ∘ h.2⟩

theorem read?_put (s : Store) (name x : String) (v : Value) :
    (s.put name v).read? x = if x = name then some v else s.read? x :=
  NameMap.get?_insert s.slots name x v

theorem put_keeps (ht : s.types.get? name = some t) (hv : t.Admits v) : s.Keeps (s.put name v) := by
  refine ⟨rfl, fun h => ⟨fun x => ?_, fun {x u w} hu hw => ?_⟩⟩
  · show _ = (s.types.get? x).isSome
    rw [read?_put]
    split
    · rename_i hx
      rw [hx, ht]
      rfl
    · exact h.declared x
  · have hu : s.types.get? x = some u := hu
    rw [read?_put] at hw
    split at hw
    · rename_i hx
      rw [hx, ht, Option.some.injEq] at hu
      simp only [Option.some.injEq] at hw
      exact hu ▸ hw ▸ hv
    · exact h.admits hu hw

/-! ## By name -/

theorem write_of_admits (ht : s.types.get? name = some t) (hv : t.Admits v) :
    s.write name v = .ok (s.put name v) := by
  simp only [write, ht, VarType.check_eq_ok_iff.2 hv]

theorem of_write (h : s.write name v = .ok s') :
    ∃ t, s.types.get? name = some t ∧ t.Admits v ∧ s' = s.put name v := by
  unfold write at h
  split at h
  · simp at h
  · rename_i t ht
    split at h
    · simp at h
    · rename_i hc
      exact ⟨t, ht, VarType.check_eq_ok_iff.1 hc, by simpa using h.symm⟩

theorem write_keeps (h : s.write name v = .ok s') : s.Keeps s' := by
  obtain ⟨t, ht, hv, rfl⟩ := of_write h
  exact put_keeps ht hv

theorem of_block {b : List UInt8} (h : s.block name = .ok b) : s.read? name = some (.block b) := by
  unfold block at h
  split at h
  · simp at h
  · rename_i hr
    rw [hr]
    simpa using h
  · simp at h

theorem block_of_read? {b : List UInt8} (h : s.read? name = some (.block b)) :
    s.block name = .ok b := by
  simp only [block, h]

/-- A field of a composite variable lies within the block the variable holds. -/
theorem Sound.exists_block {field : String} {f : Field} (h : s.Sound)
    (hk : s.types.kindOf? name = some .bytes) (hf : s.types.field? name field = some f) :
    ∃ b, s.block name = .ok b ∧ f.stop ≤ b.length := by
  unfold TypeTable.kindOf? at hk
  obtain ⟨t, ht, hk⟩ := Option.map_eq_some_iff.1 hk
  rw [TypeTable.field?, ht, Option.bind_some] at hf
  obtain ⟨l, hl, hf⟩ := Option.bind_eq_some_iff.1 hf
  obtain ⟨v, hr, hv⟩ := h.exists_read? ht
  obtain ⟨b, rfl, hb⟩ := VarType.exists_block hk hl hv
  exact ⟨b, block_of_read? hr, hb ▸ Layout.stop_le_size (Layout.mem_of_field? hf)⟩

/-- A field is rewritten in a block, which keeps its length. -/
theorem of_writeField {f : Field} {n : Nat} (h : s.writeField name f n = .ok s') :
    ∃ b b', s.read? name = some (.block b) ∧ f.write b n = .ok b' ∧
      s' = s.put name (.block b') := by
  unfold writeField at h
  split at h
  · simp at h
  · rename_i b hb
    split at h
    · simp at h
    · rename_i b' hw
      exact ⟨b, b', of_block hb, hw, by simpa using h.symm⟩

theorem writeField_keeps {f : Field} {n : Nat} (h : s.writeField name f n = .ok s') :
    s.Keeps s' := by
  obtain ⟨b, b', hb, hw, rfl⟩ := of_writeField h
  refine ⟨rfl, fun hs => ?_⟩
  have hd := hs.declared name
  rw [hb, Option.isSome_some, eq_comm, Option.isSome_iff_exists] at hd
  obtain ⟨t, ht⟩ := hd
  obtain ⟨hk, hlen⟩ := hs.admits ht hb
  have hv : t.Admits (.block b') := ⟨hk, (Field.length_of_write hw).trans hlen⟩
  exact (put_keeps ht hv).2 hs

/-! ## By identifier -/

/-- A manager's set is taken for a declared variable that may be set and admits the value, and
reaches the store unless the variable is blocking. -/
theorem of_deliver {d : Delivery} (h : s.deliver oid v = .ok d) :
    ∃ name t, s.types.nameForOid? oid = some name ∧ s.types.get? name = some t ∧ t.Admits v ∧
      t.kind ≠ .counter ∧ (t.access = .blocking ∧ d = .handover name ∨
        t.access = .readwrite ∧ d = .stored (s.put name v)) := by
  unfold deliver at h
  split at h
  · simp at h
  rename_i name hn
  split at h
  · simp at h
  rename_i t ht
  split at h
  · simp at h
  rename_i hro
  split at h
  · simp at h
  rename_i hk
  split at h
  · simp at h
  rename_i hc
  refine ⟨name, t, hn, ht, VarType.check_eq_ok_iff.1 hc, hk, ?_⟩
  split at h
  · rename_i ha
    exact .inl ⟨ha, by simpa using h.symm⟩
  · rename_i ha
    refine .inr ⟨?_, by simpa using h.symm⟩
    cases hacc : t.access <;> simp_all

theorem deliver_of_readwrite (hn : s.types.nameForOid? oid = some name)
    (ht : s.types.get? name = some t) (hv : t.Admits v) (hk : t.kind ≠ .counter)
    (ha : t.access = .readwrite) : s.deliver oid v = .ok (.stored (s.put name v)) := by
  simp [deliver, hn, ht, hk, ha, VarType.check_eq_ok_iff.2 hv]

theorem deliver_keeps (h : s.deliver oid v = .ok (.stored s')) : s.Keeps s' := by
  obtain ⟨name, t, -, ht, hv, -, ⟨-, hd⟩ | ⟨-, hd⟩⟩ := of_deliver h
  · simp at hd
  · simp only [Delivery.stored.injEq] at hd
    exact hd ▸ put_keeps ht hv

/-- A set that comes through stores a value that its variable admits. -/
theorem of_set (h : s.set oid v = .ok s') :
    ∃ name t, s.types.nameForOid? oid = some name ∧ s.types.get? name = some t ∧ t.Admits v ∧
      s' = s.put name v := by
  unfold set at h
  split at h
  · cases h
  · rename_i s₁ hd
    cases h
    obtain ⟨name, t, hn, ht, hv, -, ⟨-, hd⟩ | ⟨-, hd⟩⟩ := of_deliver hd
    · cases hd
    · cases hd
      exact ⟨name, t, hn, ht, hv, rfl⟩
  · cases h

theorem set_keeps (h : s.set oid v = .ok s') : s.Keeps s' := by
  obtain ⟨name, t, -, ht, hv, rfl⟩ := of_set h
  exact put_keeps ht hv

/-- The store as far as the sets have come. -/
def Progress.store : Progress → Store
  | ended s _ => s
  | waiting s _ => s

theorem Progress.closed_fst : ∀ p : Progress, p.closed.1 = p.store
  | ended _ _ => rfl
  | waiting _ _ => rfl

theorem setAll_keeps : ∀ (sets : List (String × Value)) (s : Store) (i : Nat),
    s.Keeps (s.setAll i sets).store
  | [], s, _ => .refl s
  | (oid, v) :: rest, s, i => by
    unfold setAll
    split
    · exact .refl s
    · rename_i s₁ hd
      exact (deliver_keeps hd).trans (setAll_keeps rest s₁ (i + 1))
    · exact .refl s

/-- A value that waits is for a blocking variable, which admits it. -/
theorem blocking_of_setAll {offer : Offer} :
    ∀ (sets : List (String × Value)) (s : Store) (i : Nat), s.setAll i sets = .waiting s' offer →
      ∃ t, s.types.get? offer.name = some t ∧ t.access = .blocking ∧ t.Admits offer.value
  | [], s, _, h => by simp [setAll] at h
  | (oid, v) :: rest, s, i, h => by
    unfold setAll at h
    split at h
    · simp at h
    · rename_i s₁ hd
      obtain ⟨t, ht, ha, hv⟩ := blocking_of_setAll rest s₁ (i + 1) h
      exact ⟨t, (deliver_keeps hd).1 ▸ ht, ha, hv⟩
    · rename_i name hd
      obtain ⟨n, t, -, ht, hv, -, ⟨ha, he⟩ | ⟨-, he⟩⟩ := of_deliver hd
      · simp only [Delivery.handover.injEq] at he
        simp only [Progress.waiting.injEq] at h
        obtain ⟨-, rfl⟩ := h
        exact ⟨t, he ▸ ht, ha, hv⟩
      · simp at he

/-- What becomes of a set depends on the types alone: both stores refuse it, leave it to the script,
or take it. -/
theorem deliver_congr (h : s'.types = s.types) (oid : String) (v : Value) :
    (∃ e, s.deliver oid v = .error e ∧ s'.deliver oid v = .error e) ∨
      (∃ name, s.deliver oid v = .ok (.handover name) ∧ s'.deliver oid v = .ok (.handover name)) ∨
      ∃ name, s.deliver oid v = .ok (.stored (s.put name v)) ∧
        s'.deliver oid v = .ok (.stored (s'.put name v)) := by
  unfold deliver
  rw [h]
  split
  · exact .inl ⟨_, rfl, rfl⟩
  rename_i name _
  split
  · exact .inl ⟨_, rfl, rfl⟩
  split
  · exact .inl ⟨_, rfl, rfl⟩
  split
  · exact .inl ⟨_, rfl, rfl⟩
  split
  · exact .inl ⟨_, rfl, rfl⟩
  split
  · exact .inr (.inl ⟨name, rfl, rfl⟩)
  · exact .inr (.inr ⟨name, rfl, rfl⟩)

end ScriptedAgent.Store

namespace ScriptedAgent

variable {s : Store}

theorem Initializer.apply_keeps {i : Initializer} {s' : Store} (h : i.apply s = .ok s') :
    s.Keeps s' := by
  unfold apply at h
  split at h
  · simp at h
  · split at h
    · simp at h
    · rename_i s₁ hw
      simp only [Except.ok.injEq] at h
      exact h ▸ Store.write_keeps hw

/-- The initial values before a bad one stay. -/
theorem Initializer.applyAll_keeps :
    ∀ (is : List Initializer) (s : Store), s.Keeps (applyAll s is).1
  | [], s => .refl s
  | i :: is, s => by
    unfold applyAll
    split
    · exact .refl s
    · rename_i s₁ h
      exact (apply_keeps h).trans (applyAll_keeps is s₁)

theorem Agent.handle_keeps (a : Agent) (s : Store) (m : Message) : s.Keeps (a.handle s m).2 := by
  unfold handle
  split
  · split
    · exact .refl s
    · exact .refl s
    · split
      · exact .refl s
      · rename_i sets _
        show s.Keeps (s.setAll 0 sets).closed.1
        rw [Store.Progress.closed_fst]
        exact Store.setAll_keeps sets s 0
    · exact .refl s
  · exact .refl s

theorem Agent.process_keeps (a : Agent) (s : Store) (datagram : List UInt8) :
    s.Keeps (a.process s datagram).2 := by
  unfold process
  split
  · exact .refl s
  · rename_i m _
    exact a.handle_keeps s m

end ScriptedAgent
