import Mathlib.Algebra.Group.Nat.Defs
import Mathlib.Data.List.DropRight
import Mathlib.Data.List.Sort
import ScriptedAgent.Bitset

/-!
# Packed sets of bit positions

`Bitset.Packs` says which octets are the packed form of a set. There is one such form
(`Packs.unique`), `octets` gives it and `ofOctets` reads the set back from it. Octets read as a set
are its packed form but for zeros at their end (`octets_ofOctets`), and these count for nothing.
-/

namespace ScriptedAgent.Bitset

variable {s t : Bitset} {bytes bytes' : List UInt8} {i j n p : Nat}

/-! ## Bits -/

theorem ext_mem (h : ∀ p, p ∈ s ↔ p ∈ t) : s = t := by
  obtain ⟨ps, hps⟩ := s
  obtain ⟨qs, hqs⟩ := t
  obtain rfl : ps = qs := hps.eq_of_mem_iff hqs h
  rfl

theorem foldl_bits_lt (bit : Nat → Bool) :
    ∀ n, (List.range n).foldl (fun a j => 2 * a + (bit j).toNat) 0 < 2 ^ n
  | 0 => by simp
  | n + 1 => by
    have ih := foldl_bits_lt bit n
    have hbit := (bit n).toNat_lt
    rw [List.range_succ, List.foldl_append, List.foldl_cons, List.foldl_nil, Nat.pow_succ]
    omega

theorem testBit_foldl_bits (bit : Nat → Bool) : ∀ n j, j < n →
    ((List.range n).foldl (fun a j => 2 * a + (bit j).toNat) 0).testBit (n - 1 - j) = bit j
  | n + 1, j, hj => by
    rw [List.range_succ, List.foldl_append, List.foldl_cons, List.foldl_nil]
    have hbit := (bit n).toNat_lt
    rcases Nat.lt_succ_iff_lt_or_eq.1 hj with hlt | rfl
    · have hindex : n + 1 - 1 - j = (n - 1 - j) + 1 := by omega
      rw [hindex, Nat.testBit_succ, ← testBit_foldl_bits bit n j hlt]
      congr 1
      omega
    · rw [Nat.add_sub_cancel, Nat.sub_self, Nat.testBit_zero]
      cases bit j <;> simp

theorem testBit_octet (bit : Nat → Bool) (hj : j < 8) :
    (octet bit).toNat.testBit (7 - j) = bit j := by
  rw [octet, UInt8.toNat_ofNat', Nat.mod_eq_of_lt (foldl_bits_lt bit 8)]
  exact testBit_foldl_bits bit 8 j hj

theorem exists_testBit_of_ne_zero {b : UInt8} (h : b ≠ 0) :
    ∃ j, j < 8 ∧ b.toNat.testBit (7 - j) = true := by
  have hne : b.toNat ≠ 0 := fun h₀ => h (UInt8.toNat_inj.1 h₀)
  obtain ⟨k, hk⟩ := Nat.exists_testBit_of_ne_zero hne
  have hlt : k < 8 := by
    refine Decidable.not_not.1 fun hge => ?_
    rw [Nat.testBit_lt_two_pow (Nat.lt_of_lt_of_le b.toNat_lt
      (Nat.pow_le_pow_right (by decide) (Nat.not_lt.1 hge)))] at hk
    cases hk
  exact ⟨7 - k, by omega, by rwa [show 7 - (7 - k) = k by omega]⟩

theorem eq_of_testBit_eq {a b : UInt8}
    (h : ∀ j, j < 8 → a.toNat.testBit (7 - j) = b.toNat.testBit (7 - j)) : a = b := by
  refine UInt8.toNat_inj.1 (Nat.eq_of_testBit_eq fun k => ?_)
  by_cases hk : k < 8
  · simpa [show 7 - (7 - k) = k by omega] using h (7 - k) (by omega)
  · have hpow : 2 ^ 8 ≤ 2 ^ k := Nat.pow_le_pow_right (by decide) (Nat.not_lt.1 hk)
    rw [Nat.testBit_lt_two_pow (Nat.lt_of_lt_of_le a.toNat_lt hpow),
      Nat.testBit_lt_two_pow (Nat.lt_of_lt_of_le b.toNat_lt hpow)]

theorem mem_ofOctets (hj : j < 8) :
    8 * i + j ∈ ofOctets bytes ↔ (bytes.getD i 0).toNat.testBit (7 - j) = true := by
  show _ ∈ (List.range (8 * bytes.length)).filter (bitAt bytes.toArray) ↔ _
  rw [List.mem_filter, List.mem_range, bitAt, show (8 * i + j) / 8 = i by omega,
    show (8 * i + j) % 8 = j by omega, List.getElem?_toArray, List.getD_eq_getElem?_getD]
  by_cases hi : i < bytes.length
  · simp [List.getElem?_eq_getElem hi]
    omega
  · simp [List.getElem?_eq_none (Nat.not_lt.1 hi)]

theorem lt_of_mem_ofOctets (h : p ∈ ofOctets bytes) : p < 8 * bytes.length :=
  List.mem_range.1 (List.mem_filter.1 h).1

/-! ## The packed form -/

/-- The octets are the packed form of the set: as many as its greatest position needs, and position
`8 * i + j` is bit `7 - j` of octet `i`. -/
structure Packs (s : Bitset) (bytes : List UInt8) : Prop where
  empty : (∀ p, p ∉ s) → bytes = []
  length : ∀ p ∈ s, (∀ q ∈ s, q ≤ p) → bytes.length = p / 8 + 1
  bit : ∀ i j, j < 8 → ((bytes.getD i 0).toNat.testBit (7 - j) = true ↔ 8 * i + j ∈ s)

theorem notMem_of_getLast? (h : s.positions.getLast? = none) (p : Nat) : p ∉ s := fun hp => by
  have hmem : p ∈ s.positions := hp
  rw [List.getLast?_eq_none_iff.1 h] at hmem
  cases hmem

theorem of_getLast? (h : s.positions.getLast? = some p) : p ∈ s ∧ ∀ q ∈ s, q ≤ p := by
  obtain ⟨ps, hps⟩ := List.getLast?_eq_some_iff.1 h
  have hascending := s.ascending
  rw [hps, List.pairwise_append] at hascending
  have hmem (q : Nat) : q ∈ s ↔ q ∈ ps ∨ q = p := by
    show q ∈ s.positions ↔ _
    rw [hps, List.mem_append, List.mem_singleton]
  refine ⟨(hmem p).2 (.inr rfl), fun q hq => ?_⟩
  rcases (hmem q).1 hq with hq | rfl
  · exact Nat.le_of_lt (hascending.2.2 q hq p List.mem_cons_self)
  · exact Nat.le_refl q

/-- A set that is not empty has a greatest position. -/
theorem exists_greatest (h : p ∈ s) : ∃ top ∈ s, ∀ q ∈ s, q ≤ top := by
  cases htop : s.positions.getLast? with
  | none => exact absurd h (notMem_of_getLast? htop p)
  | some top => exact ⟨top, of_getLast? htop⟩

theorem packs_octets (s : Bitset) : s.Packs s.octets := by
  unfold octets
  split
  · rename_i hnone
    have hempty := notMem_of_getLast? hnone
    exact ⟨fun _ => rfl, fun p hp => absurd hp (hempty p), fun i j _ => by simp [hempty]⟩
  · rename_i top htop
    obtain ⟨hmem, hle⟩ := of_getLast? htop
    refine ⟨fun h => absurd hmem (h top), fun p hp hp' => ?_, fun i j hj => ?_⟩
    · rw [List.length_map, List.length_range, Nat.le_antisymm (hle p hp) (hp' top hmem)]
    · rw [List.getD_eq_getElem?_getD, List.getElem?_map]
      by_cases hi : i < top / 8 + 1
      · simp only [List.getElem?_range hi, Option.map_some, Option.getD_some, testBit_octet _ hj]
        rw [getElem?_bitmap (by omega)]
        simp
      · -- Past the last octet no bit is set, and no position is that great.
        have hnot : 8 * i + j ∉ s := fun h => by
          have := hle _ h
          omega
        have hlen : (List.range (top / 8 + 1)).length ≤ i := by
          rw [List.length_range]
          omega
        simp [List.getElem?_eq_none hlen, hnot]

theorem length_octets_le_iff : s.octets.length ≤ n ↔ ∀ p ∈ s, p < 8 * n := by
  have hpacks := packs_octets s
  constructor
  · intro h p hp
    obtain ⟨top, hmem, hle⟩ := exists_greatest hp
    have hlen := hpacks.length top hmem hle
    have := hle p hp
    omega
  · intro h
    by_cases hs : ∃ p, p ∈ s
    · obtain ⟨p, hp⟩ := hs
      obtain ⟨top, hmem, hle⟩ := exists_greatest hp
      have hlen := hpacks.length top hmem hle
      have := h top hmem
      omega
    · rw [hpacks.empty fun p hp => hs ⟨p, hp⟩]
      exact Nat.zero_le n

theorem ofOctets_of_packs (h : s.Packs bytes) : ofOctets bytes = s := by
  refine ext_mem fun p => ?_
  have hp : 8 * (p / 8) + p % 8 = p := by omega
  have hj : p % 8 < 8 := by omega
  rw [← hp, mem_ofOctets hj, h.bit _ _ hj]

theorem Packs.unique (h : s.Packs bytes) (h' : s.Packs bytes') : bytes = bytes' := by
  have hlen : bytes.length = bytes'.length := by
    by_cases hs : ∃ p, p ∈ s
    · obtain ⟨p, hp⟩ := hs
      obtain ⟨top, hmem, hle⟩ := exists_greatest hp
      rw [h.length top hmem hle, h'.length top hmem hle]
    · have hempty : ∀ p, p ∉ s := fun p hp => hs ⟨p, hp⟩
      rw [h.empty hempty, h'.empty hempty]
  refine List.ext_getElem hlen fun i hi hi' => eq_of_testBit_eq fun j hj => ?_
  have hbits := (h.bit i j hj).trans (h'.bit i j hj).symm
  simp only [List.getD_eq_getElem?_getD, List.getElem?_eq_getElem hi, List.getElem?_eq_getElem hi',
    Option.getD_some] at hbits
  exact Bool.eq_iff_iff.2 hbits

/-! ## Zeros at the end -/

/-- Octets without the zeros at their end. -/
def unpadded (bytes : List UInt8) : List UInt8 := bytes.rdropWhile (· == 0)

theorem length_unpadded_le (bytes : List UInt8) : (unpadded bytes).length ≤ bytes.length :=
  (List.rdropWhile_prefix _ bytes).length_le

theorem ofOctets_append_zeros (bytes : List UInt8) (n : Nat) :
    ofOctets (bytes ++ List.replicate n 0) = ofOctets bytes := by
  refine ext_mem fun p => ?_
  have hp : 8 * (p / 8) + p % 8 = p := by omega
  have hj : p % 8 < 8 := by omega
  rw [← hp, mem_ofOctets hj, mem_ofOctets hj]
  suffices hzero : (bytes ++ List.replicate n 0).getD (p / 8) 0 = bytes.getD (p / 8) 0 by rw [hzero]
  simp only [List.getD_eq_getElem?_getD, List.getElem?_append, List.getElem?_replicate]
  split
  · rfl
  · rename_i hlen
    rw [List.getElem?_eq_none (Nat.not_lt.1 hlen)]
    split <;> rfl

theorem exists_append_zeros (bytes : List UInt8) :
    ∃ n, bytes = unpadded bytes ++ List.replicate n 0 := by
  refine ⟨(bytes.rtakeWhile (· == 0)).length, ?_⟩
  have hzeros : bytes.rtakeWhile (· == 0) = List.replicate (bytes.rtakeWhile (· == 0)).length 0 :=
    List.eq_replicate_of_mem fun b hb => by simpa using List.mem_rtakeWhile_imp hb
  rw [← hzeros]
  exact List.rdropWhile_append_rtakeWhile.symm

theorem ofOctets_unpadded (bytes : List UInt8) : ofOctets (unpadded bytes) = ofOctets bytes := by
  obtain ⟨n, hn⟩ := exists_append_zeros bytes
  calc ofOctets (unpadded bytes)
      = ofOctets (unpadded bytes ++ List.replicate n 0) := (ofOctets_append_zeros _ n).symm
    _ = ofOctets bytes := by rw [← hn]

/-- The last octet has a bit, unless it is a zero that counts for nothing. -/
theorem exists_mem_last (h : unpadded bytes = bytes) (hne : bytes ≠ []) :
    ∃ j, j < 8 ∧ 8 * (bytes.length - 1) + j ∈ ofOctets bytes := by
  have hlast : bytes.getLast hne ≠ 0 := by simpa using List.rdropWhile_eq_self_iff.1 h hne
  obtain ⟨j, hj, hbit⟩ := exists_testBit_of_ne_zero hlast
  refine ⟨j, hj, (mem_ofOctets hj).2 ?_⟩
  rwa [List.getD_eq_getElem?_getD, ← List.getLast?_eq_getElem?,
    List.getLast?_eq_getLast_of_ne_nil hne, Option.getD_some]

theorem packs_ofOctets (h : unpadded bytes = bytes) : (ofOctets bytes).Packs bytes where
  empty hempty := Decidable.not_not.1 fun hne => by
    obtain ⟨j, -, hmem⟩ := exists_mem_last h hne
    exact hempty _ hmem
  length p hp hle := by
    have hlt := lt_of_mem_ofOctets hp
    have hne : bytes ≠ [] := by
      rintro rfl
      simp at hlt
    obtain ⟨j, -, hmem⟩ := exists_mem_last h hne
    have := hle _ hmem
    omega
  bit _ _ hj := (mem_ofOctets hj).symm

theorem octets_ofOctets (bytes : List UInt8) : (ofOctets bytes).octets = unpadded bytes := by
  refine (packs_octets _).unique ?_
  rw [← ofOctets_unpadded]
  exact packs_ofOctets (List.rdropWhile_idempotent _ _)

/-- The octets of a set are its packed form and are read as the set again. Octets that are read as
a set are written again without the zeros at their end, which no reading sees. The positions of
2²⁹ octets are the numbers of 32 bits. -/
theorem octets_inverse (s : Bitset) (bytes : List UInt8) :
    s.Packs s.octets ∧ ofOctets s.octets = s ∧
      (ofOctets bytes).octets = unpadded bytes ∧
      (∀ n, ofOctets (bytes ++ List.replicate n 0) = ofOctets bytes) ∧
      (s.octets.length ≤ 2 ^ 29 ↔ ∀ p ∈ s, p < 2 ^ 32) ∧
      (bytes.length ≤ 2 ^ 29 → ∀ p ∈ ofOctets bytes, p < 2 ^ 32) := by
  refine ⟨packs_octets s, ofOctets_of_packs (packs_octets s), octets_ofOctets bytes,
    ofOctets_append_zeros bytes, length_octets_le_iff, fun hlen p hp => ?_⟩
  have := lt_of_mem_ofOctets hp
  omega

example : (ofOctets [0x01, 0x80, 0x00]).positions = [7, 8] ∧
    (ofOctets [0x01, 0x80, 0x00]).octets = [0x01, 0x80] := by
  decide

end ScriptedAgent.Bitset
