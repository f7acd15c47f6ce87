import ScriptedAgent.Proofs.Store.Sound

/-!
# What initializers leave in the store

The value that an initializer gives is one that its variable may hold (`admits_of_initialValue`): a
block keeps the size it starts with, and any other value is what an assignment would store. So an
initializer that has a value comes through, and a list of them stops at the first that has none
(`applyAll_exact`).
-/

namespace ScriptedAgent.Initializer

variable {T : TypeTable} {t : VarType} {l : Layout} {s s' : Store} {i : Initializer}
  {is js : List Initializer} {v : Value} {e : InitError} {name : String}

/-! ## Legal values -/

theorem length_of_readFields : ∀ {cs : List (List Char)} {block block' : List UInt8},
    readFields l cs block = .ok block' → block'.length = block.length
  | [], _, _, h => by
    cases h
    rfl
  | item :: rest, block, block', h => by
    rw [readFields] at h
    split at h
    · cases h
    split at h
    · cases h
    split at h
    · cases h
    split at h
    · cases h
    · rename_i block₁ hw
      exact (length_of_readFields h).trans (Field.length_of_write hw)

theorem admits_of_readValue {text : String} (h : readValue T t text = .ok v) : t.Admits v := by
  unfold readValue at h
  split at h
  · rename_i l hk hl
    cases hb : readFields l (items text.toList) (List.replicate l.size 0) with
    | error e =>
      rw [hb] at h
      cases h
    | ok b =>
      rw [hb] at h
      cases h
      have hsize : t.blockSize = l.size := by rw [VarType.blockSize, hl]; rfl
      exact ⟨hk, by rw [length_of_readFields hb, List.length_replicate, hsize]⟩
  · split at h
    · cases h
    split at h
    · cases h
    · rename_i hv
      cases h
      exact Value.admits_of_ofScalar hv

theorem admits_of_initialValue (h : initialValue T i = .ok v) :
    ∃ t, T.get? i.name = some t ∧ t.Admits v := by
  unfold initialValue at h
  split at h
  · cases h
  · rename_i t ht
    split at h
    · cases h
    · rename_i hv
      cases h
      exact ⟨t, ht, admits_of_readValue hv⟩

/-! ## One initializer after another -/

theorem applyAll_cons_of_ok (h : initialValue s.types i = .ok v) :
    applyAll s (i :: is) = applyAll (s.put i.name v) is := by
  obtain ⟨t, ht, hv⟩ := admits_of_initialValue h
  simp only [applyAll, apply, h, Store.write_of_admits ht hv]

theorem applyAll_cons_of_error (h : initialValue s.types i = .error e) :
    applyAll s (i :: is) = (s, .error e) := by
  simp only [applyAll, apply, h]

/-- The initializer gives a value to a variable of the table. -/
def Gives (T : TypeTable) (i : Initializer) : Prop := ∃ v, initialValue T i = .ok v

theorem applyAll_append : ∀ {is : List Initializer} {s : Store}, (∀ i ∈ is, i.Gives s.types) →
    applyAll s (is ++ js) = applyAll (applyAll s is).1 js
  | [], _, _ => rfl
  | i :: is, s, h => by
    obtain ⟨⟨v, hv⟩, his⟩ := List.forall_mem_cons.1 h
    rw [List.cons_append, applyAll_cons_of_ok hv, applyAll_cons_of_ok hv]
    exact applyAll_append (s := s.put i.name v) his

theorem applyAll_eq_ok_iff : ∀ {is : List Initializer} {s : Store},
    (applyAll s is).2 = .ok () ↔ ∀ i ∈ is, i.Gives s.types
  | [], _ => by simp [applyAll]
  | i :: is, s => by
    rw [List.forall_mem_cons]
    cases hv : initialValue s.types i with
    | error e =>
      rw [applyAll_cons_of_error hv]
      simp [Gives, hv]
    | ok v =>
      have ih : (applyAll (s.put i.name v) is).2 = .ok () ↔ ∀ j ∈ is, j.Gives s.types :=
        applyAll_eq_ok_iff
      rw [applyAll_cons_of_ok hv, ih]
      exact (and_iff_right ⟨v, hv⟩).symm

/-- Application fails with the error of the first initializer that gives no value, and the store is
left as those before it made it. -/
theorem applyAll_eq_error_iff : applyAll s is = (s', .error e) ↔
    ∃ before i after, is = before ++ i :: after ∧ (∀ j ∈ before, j.Gives s.types) ∧
      initialValue s.types i = .error e ∧ applyAll s before = (s', .ok ()) := by
  constructor
  · intro h
    induction is generalizing s with
    | nil => cases h
    | cons i is ih =>
      cases hv : initialValue s.types i with
      | error e' =>
        rw [applyAll_cons_of_error hv] at h
        cases h
        exact ⟨[], i, is, rfl, nofun, hv, rfl⟩
      | ok v =>
        rw [applyAll_cons_of_ok hv] at h
        obtain ⟨before, j, after, rfl, hbefore, hj, hs⟩ := ih h
        refine ⟨i :: before, j, after, rfl, List.forall_mem_cons.2 ⟨⟨v, hv⟩, hbefore⟩, hj, ?_⟩
        rw [applyAll_cons_of_ok hv, hs]
  · rintro ⟨before, i, after, rfl, hbefore, hi, hs⟩
    have htypes : s'.types = s.types := by
      rw [← (applyAll_keeps before s).1, hs]
    rw [applyAll_append hbefore, hs, applyAll_cons_of_error (htypes ▸ hi)]

/-- A variable holds the value of the last initializer that names it, or else what it held. -/
theorem read?_applyAll : ∀ {is : List Initializer} {s : Store}, (∀ i ∈ is, i.Gives s.types) →
    match is.findRev? (·.name = name) with
    | some i => ∃ v, initialValue s.types i = .ok v ∧ (applyAll s is).1.read? name = some v
    | none => (applyAll s is).1.read? name = s.read? name
  | [], _, _ => rfl
  | i :: is, s, h => by
    obtain ⟨⟨v, hv⟩, his⟩ := List.forall_mem_cons.1 h
    have ih := read?_applyAll (s := s.put i.name v) his
    rw [applyAll_cons_of_ok hv, List.findRev?]
    split at ih
    · rename_i j hj
      rw [hj]
      exact ih
    · rename_i hnone
      rw [hnone, ih, Store.read?_put]
      by_cases hname : i.name = name
      · simp [hname, hv]
      · simp [hname, Ne.symm hname]

/-- An initializer that gives a value gives one that its variable may hold. A list is applied to the
end exactly if each in it gives a value, and then every variable holds that of the last one naming
it, or what it held if none does. Application fails with the error of the first initializer that
gives no value, and the store is then what those before it leave. -/
theorem applyAll_exact (s : Store) (is : List Initializer) :
    (∀ i v, initialValue s.types i = .ok v →
      ∃ t, s.types.get? i.name = some t ∧ t.check v = .ok ()) ∧
    ((applyAll s is).2 = .ok () ↔ ∀ i ∈ is, i.Gives s.types) ∧
    ((applyAll s is).2 = .ok () → (applyAll s is).1.types = s.types ∧
      ∀ name, match is.findRev? (·.name = name) with
        | some i => ∃ v, initialValue s.types i = .ok v ∧ (applyAll s is).1.read? name = some v
        | none => (applyAll s is).1.read? name = s.read? name) ∧
    ∀ s' e, applyAll s is = (s', .error e) ↔ ∃ before i after, is = before ++ i :: after ∧
      (∀ j ∈ before, j.Gives s.types) ∧ initialValue s.types i = .error e ∧
      applyAll s before = (s', .ok ()) := by
  refine ⟨fun i v h => ?_, applyAll_eq_ok_iff, fun h => ⟨(applyAll_keeps is s).1, fun name => ?_⟩,
    fun s' e => applyAll_eq_error_iff⟩
  · obtain ⟨t, ht, hv⟩ := admits_of_initialValue h
    exact ⟨t, ht, VarType.check_eq_ok_iff.2 hv⟩
  · exact read?_applyAll (applyAll_eq_ok_iff.1 h)

end ScriptedAgent.Initializer
