import Mathlib.Data.Nat.Digits.Defs
import ScriptedAgent.Proofs.Layout.Valid

/-!
# The value of a field

A read gives the value of a field where the block is long enough for it (`Field.read_eq`). A write
that fits sets it (`Field.value_of_write`) and leaves the values of all fields apart as they were
(`Field.value_of_write_apart`). The value determines the octets again
(`Field.getElem?_of_value_eq`).
-/

namespace ScriptedAgent

namespace Octets

theorem bound_eq_pow (n : Nat) : bound n = 256 ^ n := by
  induction n with
  | zero => rfl
  | succ n ih => rw [bound, ih, Nat.pow_succ, Nat.mul_comm]

theorem ofLittleEndian_eq_ofDigits : ∀ bytes : List UInt8,
    ofLittleEndian bytes = Nat.ofDigits 256 (bytes.map UInt8.toNat)
  | [] => rfl
  | b :: bs => by
    rw [ofLittleEndian, List.map_cons, Nat.ofDigits_cons, ofLittleEndian_eq_ofDigits bs]

theorem lt_of_mem_map_toNat {bytes : List UInt8} {d : Nat} (h : d ∈ bytes.map UInt8.toNat) :
    d < 256 := by
  obtain ⟨b, -, rfl⟩ := List.mem_map.1 h
  exact b.toNat_lt

end Octets

namespace Field

variable {f g : Field} {block block' : List UInt8} {v i : Nat}

/-- The octets of the field, as far as the block has them. -/
def octets (f : Field) (block : List UInt8) : List UInt8 := (block.drop f.offset).take f.size

theorem value_eq_ofDigits (f : Field) (block : List UInt8) :
    f.value block = Nat.ofDigits 256 ((f.octets block).map UInt8.toNat) :=
  Octets.ofLittleEndian_eq_ofDigits _

theorem getElem?_octets (f : Field) (block : List UInt8) (j : Nat) :
    (f.octets block)[j]? = if j < f.size then block[f.offset + j]? else none := by
  rw [octets, List.getElem?_take, List.getElem?_drop]

theorem value_congr (h : ∀ i, f.Covers i → block[i]? = block'[i]?) :
    f.value block = f.value block' := by
  refine congrArg Octets.ofLittleEndian (List.ext_getElem? fun j => ?_)
  rw [← octets, ← octets, getElem?_octets, getElem?_octets]
  split
  · rename_i hj
    exact h _ ⟨Nat.le_add_right _ _, Nat.add_lt_add_left hj _⟩
  · rfl

theorem value_zeros (f : Field) (n : Nat) : f.value (List.replicate n 0) = 0 := by
  rw [value_eq_ofDigits, octets, List.drop_replicate, List.take_replicate, List.map_replicate]
  exact Nat.ofDigits_replicate_zero

/-! ## Reading -/

theorem read_eq (h : f.stop ≤ block.length) : f.read block = .ok (f.value block) := by
  rw [read, if_neg (Nat.not_lt.2 h), value]

theorem value_lt (f : Field) (block : List UInt8) : f.value block < 256 ^ f.size := by
  have hlen : ((f.octets block).map UInt8.toNat).length ≤ f.size := by
    rw [List.length_map]
    exact List.length_take_le _ _
  rw [value_eq_ofDigits]
  exact Nat.lt_of_lt_of_le
    (Nat.ofDigits_lt_base_pow_length (by decide) fun _ => Octets.lt_of_mem_map_toNat)
    (Nat.pow_le_pow_right (by decide) hlen)

/-- In blocks of one length, a value says what the octets of its field are. -/
theorem getElem?_of_value_eq (hlen : block.length = block'.length)
    (h : f.value block = f.value block') (hi : f.Covers i) : block[i]? = block'[i]? := by
  obtain ⟨j, rfl⟩ := Nat.exists_eq_add_of_le hi.1
  have hj : j < f.size := Nat.lt_of_add_lt_add_left hi.2
  have hmap : (f.octets block).map UInt8.toNat = (f.octets block').map UInt8.toNat := by
    rw [value_eq_ofDigits, value_eq_ofDigits] at h
    refine Nat.ofDigits_inj_of_len_eq (by decide) ?_ (fun _ => Octets.lt_of_mem_map_toNat)
      (fun _ => Octets.lt_of_mem_map_toNat) h
    simp only [octets, List.length_map, List.length_take, List.length_drop, hlen]
  have hoctets : f.octets block = f.octets block' :=
    List.map_injective_iff.2 (fun _ _ => UInt8.toNat_inj.1) hmap
  have hget := congrArg (·[j]?) hoctets
  simpa only [getElem?_octets, if_pos hj] using hget

/-! ## Writing -/

theorem write_of_le (h : 256 ^ f.size ≤ v) :
    f.write block v = .error (.fieldWidth f.name f.size v) := by
  rw [write, Octets.bound_eq_pow, if_pos h]

theorem exists_write (hv : v < 256 ^ f.size) (h : f.stop ≤ block.length) :
    ∃ block', f.write block v = .ok block' := by
  rw [write, Octets.bound_eq_pow, if_neg (Nat.not_le.2 hv), if_neg (Nat.not_lt.2 h)]
  exact ⟨_, rfl⟩

theorem of_write (h : f.write block v = .ok block') :
    v < 256 ^ f.size ∧ f.stop ≤ block.length ∧
      block' = block.take f.offset ++ Octets.littleEndian f.size v ++ block.drop f.stop := by
  unfold write at h
  split at h
  · cases h
  · rename_i hv
    split at h
    · cases h
    · rename_i hlen
      cases h
      exact ⟨Octets.bound_eq_pow _ ▸ Nat.not_le.1 hv, Nat.not_lt.1 hlen, rfl⟩

theorem value_of_write (h : f.write block v = .ok block') : f.value block' = v := by
  have hlen := length_of_write h
  obtain ⟨hv, hstop, heq⟩ := of_write h
  have htake : (block.take f.offset).length = f.offset := by
    rw [List.length_take, Nat.min_eq_left (Nat.le_trans f.offset_le_stop hstop)]
  have hoctets : f.octets block' = Octets.littleEndian f.size v := by
    rw [octets, heq, List.append_assoc, List.drop_left' htake,
      List.take_left' (Octets.length_littleEndian _ _)]
  rw [value, ← octets, hoctets, Octets.ofLittleEndian_littleEndian, Octets.bound_eq_pow,
    Nat.mod_eq_of_lt hv]

theorem value_of_write_apart (h : f.write block v = .ok block') (ha : f.Apart g) :
    g.value block' = g.value block :=
  value_congr fun i hi => getElem?_of_write h fun hf => ha i hf hi

end Field

end ScriptedAgent
