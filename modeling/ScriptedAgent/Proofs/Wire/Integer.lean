import Mathlib.Algebra.Group.Int.Defs
import Mathlib.Data.List.Basic
import Mathlib.Tactic.ByContra
import Mathlib.Tactic.SplitIfs
import ScriptedAgent.Proofs.Stateful
import ScriptedAgent.Proofs.Wire.Digits

/-!
# Integers in two's complement

An integer is written in octets that stand for it (`signed_encodeInteger`). Octets from which the
sign is trimmed are determined by the number they stand for (`trimSign_eq_of_signed`), so what is
read from any octets is written in the last of those (`encodeInteger_suffix`).
-/

namespace ScriptedAgent.Ber

/-- The unsigned number that octets stand for. -/
def magnitude (bytes : List UInt8) : Nat := value 256 0 (bytes.map UInt8.toNat)

def signedOctet (b : UInt8) : Int := if b < 0x80 then b.toNat else b.toNat - 256

/-- The number that octets stand for in two's complement. -/
def signed : List UInt8 → Int
  | [] => 0
  | b :: bs => signedOctet b * 256 ^ bs.length + magnitude bs

theorem magnitude_cons (b : UInt8) (bs : List UInt8) :
    magnitude (b :: bs) = b.toNat * 256 ^ bs.length + magnitude bs := by
  rw [magnitude, List.map_cons, value_cons, value_eq, List.length_map, Nat.zero_mul, Nat.zero_add]
  rfl

theorem natCast_magnitude_cons (b : UInt8) (bs : List UInt8) :
    (magnitude (b :: bs) : Int) = b.toNat * 256 ^ bs.length + magnitude bs := by
  rw [magnitude_cons, Int.natCast_add, Int.natCast_mul, Int.natCast_pow]
  rfl

theorem magnitude_lt (bs : List UInt8) : magnitude bs < 256 ^ bs.length := by
  have hd : ∀ d ∈ bs.map UInt8.toNat, d < 256 := by
    intro d hd
    obtain ⟨b, -, rfl⟩ := List.mem_map.1 hd
    exact b.toNat_lt
  have h := value_lt hd
  rwa [List.length_map] at h

theorem magnitude_lt_int (bs : List UInt8) : (magnitude bs : Int) < 256 ^ bs.length := by
  have h := Int.ofNat_lt.2 (magnitude_lt bs)
  rwa [Int.natCast_pow] at h

theorem foldl_octets (bs : List UInt8) : ∀ acc : Int,
    bs.foldl (fun n b => n * 256 + (b.toNat : Int)) acc =
      acc * 256 ^ bs.length + magnitude bs := by
  induction bs with
  | nil => intro acc; simp [magnitude, value]
  | cons b bs ih =>
    intro acc
    rw [List.foldl_cons, ih, natCast_magnitude_cons, List.length_cons, Int.pow_succ, Int.add_mul,
      Int.mul_assoc, Int.mul_comm 256]
    omega

theorem decodeInteger_eq {b : UInt8} {bs : List UInt8} (h : bs.length < 8) :
    decodeInteger (b :: bs) = .ok (Int64.ofInt (signed (b :: bs))) := by
  unfold decodeInteger
  simp only
  rw [if_neg (by simp only [List.length_cons]; omega), foldl_octets, natCast_magnitude_cons, signed,
    signedOctet, List.length_cons, Int.pow_succ]
  split
  · rw [Int.zero_mul, Int.zero_add]
  · rw [Int.sub_mul, Int.mul_comm _ 256]
    congr 2
    omega

theorem of_decodeInteger {bytes : List UInt8} {n : Number} (h : decodeInteger bytes = .ok n) :
    ∃ b bs, bytes = b :: bs ∧ bs.length < 8 ∧ n = Int64.ofInt (signed bytes) := by
  cases bytes with
  | nil => cases h
  | cons b bs =>
    have hlen : bs.length < 8 := by
      unfold decodeInteger at h
      simp only at h
      split at h
      · cases h
      · rename_i hlen
        simp only [List.length_cons] at hlen
        omega
    rw [decodeInteger_eq hlen] at h
    cases h
    exact ⟨b, bs, rfl, hlen, rfl⟩

/-! ## Bounds -/

theorem signedOctet_bounds (b : UInt8) : -128 ≤ signedOctet b ∧ signedOctet b ≤ 127 := by
  have hlt := b.toNat_lt
  unfold signedOctet
  split
  · rename_i h
    have h : b.toNat < 128 := UInt8.lt_iff_toNat_lt.1 h
    omega
  · rename_i h
    have h : ¬ b.toNat < 128 := fun hb => h (UInt8.lt_iff_toNat_lt.2 hb)
    omega

theorem signed_bounds (b : UInt8) (bs : List UInt8) :
    -(128 * 256 ^ bs.length) ≤ signed (b :: bs) ∧ signed (b :: bs) < 128 * 256 ^ bs.length := by
  have hm := magnitude_lt_int bs
  have hp : (0 : Int) ≤ 256 ^ bs.length := Int.pow_nonneg (by decide)
  obtain ⟨hlo, hhi⟩ := signedOctet_bounds b
  have hlo := Int.mul_le_mul_of_nonneg_right hlo hp
  have hhi := Int.mul_le_mul_of_nonneg_right hhi hp
  rw [signed]
  omega

theorem pow_le_pow {m n : Nat} (h : m ≤ n) : (256 : Int) ^ m ≤ 256 ^ n := by
  have hp := Int.ofNat_le.2 (Nat.pow_le_pow_right (show 0 < 256 by decide) h)
  rwa [Int.natCast_pow, Int.natCast_pow] at hp

theorem toInt_of_decodeInteger {bytes : List UInt8} {n : Number}
    (h : decodeInteger bytes = .ok n) : n.toInt = signed bytes := by
  obtain ⟨b, bs, rfl, hlen, rfl⟩ := of_decodeInteger h
  have hpow := pow_le_pow (Nat.le_of_lt_succ hlen)
  obtain ⟨hlo, hhi⟩ := signed_bounds b bs
  exact Int64.toInt_ofInt_of_le (by omega) (by omega)

/-! ## The fewest octets -/

/-- The first octet says no more than the sign of the others. -/
def Implied (b c : UInt8) : Prop := (b = 0x00 ∧ c < 0x80) ∨ (b = 0xff ∧ 0x80 ≤ c)

instance (b c : UInt8) : Decidable (Implied b c) := inferInstanceAs (Decidable (_ ∨ _))

theorem signed_cons_of_implied {b c : UInt8} (h : Implied b c) (bs : List UInt8) :
    signed (b :: c :: bs) = signed (c :: bs) := by
  rw [signed, signed, natCast_magnitude_cons, List.length_cons, Int.pow_succ]
  rcases h with ⟨rfl, hc⟩ | ⟨rfl, hc⟩
  · rw [signedOctet, signedOctet, if_pos (by decide), if_pos hc]
    simp
  · have hff : ((0xff : UInt8).toNat : Int) = 255 := rfl
    rw [signedOctet, signedOctet, if_neg (by decide), if_neg (UInt8.not_lt.2 hc), Int.sub_mul,
      Int.sub_mul, hff]
    omega

theorem trimSign_cons (b c : UInt8) (bs : List UInt8) :
    trimSign (b :: c :: bs) = if Implied b c then trimSign (c :: bs) else b :: c :: bs := rfl

theorem signed_trimSign : ∀ bs, signed (trimSign bs) = signed bs
  | [] => rfl
  | [_] => rfl
  | b :: c :: bs => by
    rw [trimSign_cons]
    split
    · rename_i h
      rw [signed_trimSign (c :: bs), signed_cons_of_implied h]
    · rfl

theorem trimSign_suffix : ∀ bs, trimSign bs <:+ bs
  | [] => List.suffix_refl _
  | [_] => List.suffix_refl _
  | b :: c :: bs => by
    rw [trimSign_cons]
    split
    · exact (trimSign_suffix (c :: bs)).trans (List.suffix_cons b _)
    · exact List.suffix_refl _

theorem length_trimSign_le (bs : List UInt8) : (trimSign bs).length ≤ bs.length :=
  (trimSign_suffix bs).length_le

theorem trimSign_ne_nil : ∀ {bs}, bs ≠ [] → trimSign bs ≠ []
  | [_], _ => by simp [trimSign]
  | b :: c :: bs, _ => by
    rw [trimSign_cons]
    split
    · exact trimSign_ne_nil (by simp)
    · simp

theorem not_implied_of_trimSign {b c : UInt8} {bs : List UInt8} :
    ∀ {xs}, trimSign xs = b :: c :: bs → ¬ Implied b c
  | [_], h => by simp [trimSign] at h
  | x :: y :: xs, h => by
    rw [trimSign_cons] at h
    split at h
    · exact not_implied_of_trimSign h
    · rename_i hn
      cases h
      exact hn

theorem signedOctet_eq_zero {b : UInt8} (h : signedOctet b = 0) : b = 0x00 := by
  have hlt := b.toNat_lt
  unfold signedOctet at h
  split at h <;> exact UInt8.toNat_inj.1 (by simp only [UInt8.toNat_ofNat]; omega)

theorem signedOctet_eq_neg_one {b : UInt8} (h : signedOctet b = -1) : b = 0xff := by
  have hlt := b.toNat_lt
  unfold signedOctet at h
  split at h <;> exact UInt8.toNat_inj.1 (by simp only [UInt8.toNat_ofNat]; omega)

/-- Without the first octet there is no room for the number. -/
theorem signed_large_of_not_implied {b c : UInt8} (h : ¬ Implied b c) (bs : List UInt8) :
    128 * 256 ^ bs.length ≤ signed (b :: c :: bs) ∨
      signed (b :: c :: bs) < -(128 * 256 ^ bs.length) := by
  have hm := magnitude_lt_int bs
  have hp : (0 : Int) ≤ 256 ^ bs.length := Int.pow_nonneg (by decide)
  have hp' : (0 : Int) ≤ 256 ^ bs.length * 256 := by omega
  have hc := c.toNat_lt
  have hc₀ := Int.mul_le_mul_of_nonneg_right (Int.natCast_nonneg c.toNat) hp
  have hc₁ := Int.mul_le_mul_of_nonneg_right (show (c.toNat : Int) ≤ 255 by omega) hp
  rw [Implied, not_or, not_and, not_and, UInt8.lt_iff_toNat_lt, UInt8.le_iff_toNat_le] at h
  rw [signed, natCast_magnitude_cons, List.length_cons, Int.pow_succ]
  rcases Int.lt_trichotomy (signedOctet b) 0 with hneg | hzero | hpos
  · right
    rcases Int.lt_or_eq_of_le (show signedOctet b ≤ -1 by omega) with hlt | heq
    · have hb := Int.mul_le_mul_of_nonneg_right (show signedOctet b ≤ -2 by omega) hp'
      omega
    · have hc : ¬ 128 ≤ c.toNat := h.2 (signedOctet_eq_neg_one heq)
      have hc := Int.mul_le_mul_of_nonneg_right (show (c.toNat : Int) ≤ 127 by omega) hp
      rw [heq]
      omega
  · left
    have hc : ¬ c.toNat < 128 := h.1 (signedOctet_eq_zero hzero)
    have hc := Int.mul_le_mul_of_nonneg_right (show (128 : Int) ≤ c.toNat by omega) hp
    rw [hzero]
    omega
  · left
    have hb := Int.mul_le_mul_of_nonneg_right (show 1 ≤ signedOctet b by omega) hp'
    omega

/-- Octets from which the sign is trimmed are no more than any with the same number. -/
theorem length_trimSign_le_of_signed {xs ys : List UInt8} (hy : ys ≠ [])
    (h : signed xs = signed ys) : (trimSign xs).length ≤ ys.length := by
  obtain ⟨b, bs, rfl⟩ := List.exists_cons_of_ne_nil hy
  obtain ⟨hlo, hhi⟩ := signed_bounds b bs
  rw [← h, ← signed_trimSign xs] at hlo hhi
  rcases htrim : trimSign xs with _ | ⟨x, _ | ⟨y, zs⟩⟩
  · exact Nat.zero_le _
  · simp
  · have hlarge := signed_large_of_not_implied (not_implied_of_trimSign htrim) zs
    rw [htrim] at hlo hhi
    -- Were there more octets, the number would be too large for those that have it too.
    have hlt : zs.length < bs.length := by
      by_contra hle
      have hp := pow_le_pow (Nat.le_of_not_lt hle)
      omega
    simp only [List.length_cons]
    omega

theorem signed_eq_sub (b : UInt8) (bs : List UInt8) :
    signed (b :: bs) = magnitude (b :: bs) - if b < 0x80 then 0 else 256 ^ (bs.length + 1) := by
  rw [signed, signedOctet, natCast_magnitude_cons, Int.pow_succ]
  split_ifs
  · simp
  · rw [Int.sub_mul, Int.mul_comm _ 256]
    omega

theorem eq_of_magnitude {xs ys : List UInt8} (hlen : xs.length = ys.length)
    (h : magnitude xs = magnitude ys) : xs = ys := by
  have hlt : ∀ bs : List UInt8, ∀ d ∈ bs.map UInt8.toNat, d < 256 := by
    intro bs d hd
    obtain ⟨b, -, rfl⟩ := List.mem_map.1 hd
    exact b.toNat_lt
  refine List.map_injective_iff.2 (fun _ _ => UInt8.toNat_inj.1)
    (eq_of_value (hlt xs) (hlt ys) ?_ h)
  simpa using hlen

/-- Octets of one count are determined by the number they stand for in two's complement. -/
theorem eq_of_signed {xs ys : List UInt8} (hlen : xs.length = ys.length)
    (h : signed xs = signed ys) : xs = ys := by
  rcases xs with _ | ⟨b, bs⟩ <;> rcases ys with _ | ⟨c, cs⟩
  · rfl
  · simp at hlen
  · simp at hlen
  · have hb := magnitude_lt_int (b :: bs)
    have hc := magnitude_lt_int (c :: cs)
    have hcount : bs.length = cs.length := Nat.succ.inj hlen
    refine eq_of_magnitude hlen ?_
    rw [signed_eq_sub, signed_eq_sub, hcount] at h
    simp only [List.length_cons, hcount] at hb hc
    split_ifs at h <;> omega

theorem trimSign_eq_of_signed {xs ys : List UInt8} (hx : xs ≠ []) (hy : ys ≠ [])
    (h : signed xs = signed ys) : trimSign xs = trimSign ys := by
  refine eq_of_signed (Nat.le_antisymm ?_ ?_) (by rw [signed_trimSign, signed_trimSign, h])
  · exact length_trimSign_le_of_signed (trimSign_ne_nil hy) (by rw [signed_trimSign, h])
  · exact length_trimSign_le_of_signed (trimSign_ne_nil hx) (by rw [signed_trimSign, h])

/-- The octets of a number's two's complement before any is dropped. -/
theorem signed_bigEndian (n : Number) :
    signed ((bigEndian 256 8 (n.toInt % 0x10000000000000000).toNat).map UInt8.ofNat) = n.toInt := by
  have hlo := n.le_toInt
  have hhi := n.toInt_lt
  have hm : magnitude ((bigEndian 256 8 (n.toInt % 0x10000000000000000).toNat).map UInt8.ofNat) =
      (n.toInt % 0x10000000000000000).toNat := by
    rw [magnitude, map_toNat_ofNat fun d => lt_of_mem_bigEndian (by decide),
      value_bigEndian (by omega)]
  have hlen : ((bigEndian 256 8 (n.toInt % 0x10000000000000000).toNat).map UInt8.ofNat).length =
      8 := by rw [List.length_map, length_bigEndian]
  generalize (bigEndian 256 8 (n.toInt % 0x10000000000000000).toNat).map UInt8.ofNat = bytes at *
  cases bytes with
  | nil => cases hlen
  | cons b bs =>
    have hlen : bs.length = 7 := by simpa using hlen
    have hb := magnitude_lt bs
    rw [magnitude_cons] at hm
    rw [signed, signedOctet]
    simp only [hlen] at *
    split
    · rename_i h
      have h : b.toNat < 128 := UInt8.lt_iff_toNat_lt.1 h
      omega
    · rename_i h
      have h : ¬ b.toNat < 128 := fun hb => h (UInt8.lt_iff_toNat_lt.2 hb)
      omega

theorem signed_encodeInteger (n : Number) : signed (encodeInteger n) = n.toInt := by
  rw [encodeInteger, signed_trimSign, signed_bigEndian]

theorem length_encodeInteger (n : Number) : (encodeInteger n).length ≤ 8 := by
  have h := length_trimSign_le
    ((bigEndian 256 8 (n.toInt % 0x10000000000000000).toNat).map UInt8.ofNat)
  rwa [List.length_map, length_bigEndian] at h

theorem decodeInteger_encodeInteger (n : Number) : decodeInteger (encodeInteger n) = .ok n := by
  have hs := signed_encodeInteger n
  have hlen := length_encodeInteger n
  have hne : encodeInteger n ≠ [] := trimSign_ne_nil (by simp [bigEndian])
  cases he : encodeInteger n with
  | nil => exact absurd he hne
  | cons b bs =>
    rw [he] at hs hlen
    rw [decodeInteger_eq hlen, hs, Int64.ofInt_toInt]

/-- What is read as a number ends in the octets that the number is written in. -/
theorem encodeInteger_suffix {bytes : List UInt8} {n : Number} (h : decodeInteger bytes = .ok n) :
    encodeInteger n <:+ bytes := by
  have hn := toInt_of_decodeInteger h
  obtain ⟨b, bs, rfl, -, -⟩ := of_decodeInteger h
  have htrim : encodeInteger n = trimSign (b :: bs) :=
    trimSign_eq_of_signed (by simp [bigEndian]) (by simp) (by rw [signed_bigEndian, hn])
  rw [htrim]
  exact trimSign_suffix _

theorem length_encodeInteger_le {bytes : List UInt8} {n : Number}
    (h : decodeInteger bytes = .ok n) : (encodeInteger n).length ≤ bytes.length :=
  (encodeInteger_suffix h).length_le

/-- One to eight octets are read as the number they stand for. -/
theorem exists_decodeInteger {bytes : List UInt8} (hpos : 0 < bytes.length)
    (hlen : bytes.length ≤ 8) : ∃ n, decodeInteger bytes = .ok n ∧ n.toInt = signed bytes := by
  obtain ⟨b, bs, rfl⟩ := List.exists_cons_of_length_pos hpos
  have hd := decodeInteger_eq (b := b) (Nat.lt_of_succ_le hlen)
  exact ⟨_, hd, toInt_of_decodeInteger hd⟩

/-! ## Unsigned numbers -/

/-- An unsigned number is read where its integer is. -/
theorem decodeUnsigned_eq_ok_iff {bytes : List UInt8} {n : UInt32} :
    decodeUnsigned bytes = .ok n ↔ decodeInteger bytes = .ok (Int64.ofNat n.toNat) := by
  have hlt := n.toNat_lt
  constructor
  · intro h
    cases hd : decodeInteger bytes with
    | error e =>
      rw [decodeUnsigned, hd] at h
      cases h
    | ok k =>
      rw [decodeUnsigned, hd] at h
      change (if _ then _ else _) = _ at h
      split at h
      · cases h
        refine congrArg _ (Int64.toInt_inj.1 ?_)
        rw [Number.toInt_ofNat, UInt32.toNat_ofNat']
        omega
      · cases h
  · intro h
    rw [decodeUnsigned, h]
    change (if _ then Except.ok _ else _) = _
    rw [Number.toInt_ofNat, if_pos (by omega), Int.toNat_natCast, UInt32.ofNat_toNat]

theorem decodeUnsigned_encodeInteger (n : UInt32) :
    decodeUnsigned (encodeInteger (Int64.ofNat n.toNat)) = .ok n :=
  decodeUnsigned_eq_ok_iff.2 (decodeInteger_encodeInteger _)

/-- One to eight octets are read as an unsigned number exactly if that is what they stand for. -/
theorem decodeUnsigned_eq_ok_iff_signed {bytes : List UInt8} (hpos : 0 < bytes.length)
    (hlen : bytes.length ≤ 8) (n : UInt32) :
    decodeUnsigned bytes = .ok n ↔ (n.toNat : Int) = signed bytes := by
  obtain ⟨k, hk, hsigned⟩ := exists_decodeInteger hpos hlen
  rw [decodeUnsigned_eq_ok_iff, hk, Except.ok.injEq, ← Int64.toInt_inj, Number.toInt_ofNat, hsigned]
  exact eq_comm

/-! ## Exactness -/

/-- An integer is written behind its tag and a count of one octet, and read back. Its contents end
all octets that are read as it, so no others are as few. One to eight octets are read as what they
stand for in two's complement, and as an unsigned number exactly if that is one of 32 bits. -/
theorem integer_inverse (n : Number) (u : UInt32) (bytes : List UInt8) :
    (∀ tag, integer tag n = tag :: UInt8.ofNat (encodeInteger n).length :: encodeInteger n) ∧
    decodeInteger (encodeInteger n) = .ok n ∧
    (decodeInteger bytes = .ok n → encodeInteger n <:+ bytes ∧
      (bytes.length ≤ (encodeInteger n).length → bytes = encodeInteger n)) ∧
    (0 < bytes.length → bytes.length ≤ 8 →
      ∃ k, decodeInteger bytes = .ok k ∧ k.toInt = signed bytes) ∧
    decodeUnsigned (encodeInteger (Int64.ofNat u.toNat)) = .ok u ∧
    (0 < bytes.length → bytes.length ≤ 8 →
      (∀ k, decodeUnsigned bytes = .ok k ↔ (k.toNat : Int) = signed bytes) ∧
      ((∃ k, decodeUnsigned bytes = .ok k) ↔ 0 ≤ signed bytes ∧ signed bytes ≤ 2 ^ 32 - 1)) := by
  refine ⟨fun tag => ?_, decodeInteger_encodeInteger n, fun h => ?_, exists_decodeInteger,
    decodeUnsigned_encodeInteger u, fun hpos hlen => ?_⟩
  · have hshort := length_encodeInteger n
    rw [integer, tlv, length, if_pos (by omega)]
    rfl
  · have hsuffix := encodeInteger_suffix h
    exact ⟨hsuffix, fun hle => (hsuffix.eq_of_length_le hle).symm⟩
  · have hiff := decodeUnsigned_eq_ok_iff_signed hpos hlen
    refine ⟨hiff, ?_, fun ⟨hlo, hhi⟩ => ?_⟩
    · rintro ⟨k, hk⟩
      have hlt := k.toNat_lt
      rw [hiff] at hk
      omega
    · refine ⟨UInt32.ofNat (signed bytes).toNat, (hiff _).2 ?_⟩
      rw [UInt32.toNat_ofNat']
      omega

/-- A sign octet that the next one implies is not written, and one that it does not imply is. -/
example : decodeInteger [0xff, 0xff, 0x7f] = .ok (-129) ∧ encodeInteger (-129) = [0xff, 0x7f] ∧
    decodeInteger [0x00, 0x80] = .ok 128 ∧ encodeInteger 128 = [0x00, 0x80] := by
  decide

end ScriptedAgent.Ber
