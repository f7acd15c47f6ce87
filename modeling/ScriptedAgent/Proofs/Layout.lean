import ScriptedAgent.Block

/-!
# Fields inside their block

Every field of a layout stops within a block of the layout's size (`Field.stop_le_size`), so in such
a block a read finds the field, and a write fails only where the value is too wide. A write leaves a
block of the same length whatever the field is.
-/

namespace ScriptedAgent

theorem le_foldl_max : ∀ (ns : List Nat) (a : Nat), a ≤ ns.foldl max a
  | [], a => Nat.le_refl a
  | n :: ns, a => Nat.le_trans (Nat.le_max_left a n) (le_foldl_max ns (max a n))

theorem le_foldl_max_of_mem {n : Nat} : ∀ {ns : List Nat} (a : Nat), n ∈ ns → n ≤ ns.foldl max a
  | m :: ns, a, h => by
    rcases List.mem_cons.1 h with rfl | h
    · exact Nat.le_trans (Nat.le_max_right a n) (le_foldl_max ns _)
    · exact le_foldl_max_of_mem (max a m) h

namespace Layout

variable {l : Layout} {f : Field} {name : String}

theorem mem_of_field? (h : l.field? name = some f) : f ∈ l.fields := List.mem_of_find?_eq_some h

theorem stop_le_size (h : f ∈ l.fields) : f.stop ≤ l.size :=
  le_foldl_max_of_mem 0 (List.mem_map_of_mem h)

end Layout

namespace Field

variable {f : Field} {block : List UInt8} {v : Nat}

theorem length_of_write {block' : List UInt8} (h : f.write block v = .ok block') :
    block'.length = block.length := by
  unfold write at h
  split at h
  · simp at h
  · split at h
    · simp at h
    · rename_i hlen
      simp only [Except.ok.injEq] at h
      subst h
      simp only [stop] at hlen
      simp [Octets.length_littleEndian, stop]
      omega

/-- A write changes the octets of its field only. -/
theorem getElem?_of_write {block' : List UInt8} {i : Nat} (h : f.write block v = .ok block')
    (hi : ¬ (f.offset ≤ i ∧ i < f.stop)) : block'[i]? = block[i]? := by
  unfold write at h
  split at h
  · simp at h
  · split at h
    · simp at h
    · rename_i hlen
      simp only [Except.ok.injEq] at h
      subst h
      have hstop : f.stop = f.offset + f.size := rfl
      by_cases hlt : i < f.offset
      · rw [List.append_assoc, List.getElem?_append_left (by simp; omega), List.getElem?_take,
          if_pos hlt]
      · have hge : f.stop ≤ i := by omega
        rw [List.getElem?_append_right (by simp [Octets.length_littleEndian]; omega),
          List.getElem?_drop]
        congr 1
        simp [Octets.length_littleEndian]
        omega

theorem write_eq_error {e : ValueError} (hlen : f.stop ≤ block.length)
    (h : f.write block v = .error e) : e = .fieldWidth f.name f.size v := by
  unfold write at h
  split at h
  · simpa using h.symm
  · rw [if_neg (by omega)] at h
    simp at h

theorem exists_read (hlen : f.stop ≤ block.length) : ∃ v, f.read block = .ok v := by
  rw [read, if_neg (by omega)]
  exact ⟨_, rfl⟩

end Field

end ScriptedAgent
