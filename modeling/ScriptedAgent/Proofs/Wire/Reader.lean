import ScriptedAgent.Proofs.Stateful
import ScriptedAgent.Proofs.Wire.Integer
import ScriptedAgent.Proofs.Wire.Oid

/-!
# Reading encodings

`Reads r bytes a` says that `r` takes just `bytes` off the front and gives `a`; `Takes r Q` says
that whatever `r` gives has `Q`, together with the count of the octets it took. The first goes from
an encoding to its value (`tlv_reads`), the second says that writing a value again takes no more
octets than it was read from (`tlv_takes`).
-/

namespace ScriptedAgent.Ber

open Stateful

/-! ## Lengths -/

theorem length_length_le {n c : Nat} (h : n < 0x100000000) (hc : n < 256 ^ c) :
    (length n).length ≤ 1 + c := by
  unfold length
  split
  · simp
  · have hf := length_fewest_le (w := 8) (by decide) (by omega) hc
    simp only [List.length_cons, List.length_map]
    omega

theorem length_length_mono {m n : Nat} (h : m ≤ n) (hn : n < 0x100000000) :
    (length m).length ≤ (length n).length := by
  unfold length
  split
  · split <;> simp
  · have hw : n < 256 ^ 8 := by omega
    have hd : ∀ d ∈ fewest 256 8 n, d < 256 := fun d => lt_of_mem_fewest (by decide)
    have hv := value_lt hd
    rw [value_fewest hw] at hv
    have hm : m < 256 ^ 8 := Nat.lt_of_le_of_lt h hw
    have hf := length_fewest_le (by decide) hm (Nat.lt_of_le_of_lt h hv)
    rw [if_neg (by omega)]
    simp only [List.length_cons, List.length_map]
    omega

theorem length_tlv (tag : UInt8) (contents : List UInt8) :
    (tlv tag contents).length = 1 + (length contents.length).length + contents.length := by
  rw [tlv, List.cons_append, List.length_cons, List.length_append]
  omega

theorem length_lt_tlv (tag : UInt8) (contents : List UInt8) :
    contents.length < (tlv tag contents).length := by
  rw [length_tlv]
  omega

/-- An encoding of fewer contents is no longer. -/
theorem length_tlv_mono (s t : UInt8) {cs ds : List UInt8} (h : cs.length ≤ ds.length)
    (hd : ds.length < 0x100000000) : (tlv s cs).length ≤ (tlv t ds).length := by
  have hl := length_length_mono h hd
  rw [length_tlv, length_tlv]
  omega

/-! ## From an encoding to its value -/

variable {α β : Type}

def Reads (r : Reader α) (bytes : List UInt8) (a : α) : Prop :=
  ∀ rest, r (bytes ++ rest) = (.ok a, rest)

namespace Reads

variable {p : Reader α} {f : α → Reader β} {a : α} {b : β} {xs ys : List UInt8}

theorem pure (a : α) : Reads (Pure.pure a) [] a := fun _ => rfl

theorem bind (hp : Reads p xs a) (hf : Reads (f a) ys b) : Reads (p >>= f) (xs ++ ys) b := by
  intro rest
  rw [bind_apply, List.append_assoc, hp]
  exact hf rest

/-- The rest of a reading takes nothing more. -/
theorem map (hp : Reads p xs a) (hf : Reads (f a) [] b) : Reads (p >>= f) xs b :=
  List.append_nil xs ▸ hp.bind hf

theorem ofExcept {r : Except DecodeError α} (h : r = .ok a) :
    Reads (MonadExcept.ofExcept r) [] a := by
  intro rest
  rw [ofExcept_apply, h]
  rfl

theorem ofExcept_bind {r : Except DecodeError α} (h : r = .ok a) (hf : Reads (f a) ys b) :
    Reads (MonadExcept.ofExcept r >>= f) ys b :=
  (ofExcept h).bind hf

/-- Alone, `bytes` are taken to their end. -/
theorem apply (hp : Reads p xs a) : p xs = (.ok a, []) := by
  have h := hp []
  rwa [List.append_nil] at h

theorem fst (hp : Reads p xs a) : (p xs).1 = .ok a := by rw [hp.apply]

theorem within {contents : List UInt8} (h : (p contents).1 = .ok a) :
    Reads (Reader.within contents p) [] a :=
  .ofExcept h

end Reads

theorem byte_reads (b : UInt8) : Reads Reader.byte [b] b := fun _ => rfl

theorem number_reads : ∀ {ds : List Nat} (acc : Nat), (∀ d ∈ ds, d < 256) →
    Reads (Reader.number acc ds.length) (ds.map UInt8.ofNat) (value 256 acc ds)
  | [], acc, _ => .pure acc
  | d :: ds, acc, h => by
    obtain ⟨hd, hds⟩ := List.forall_mem_cons.1 h
    have hb : (UInt8.ofNat d).toNat = d := Nat.mod_eq_of_lt hd
    refine (byte_reads (UInt8.ofNat d)).bind ?_
    rw [hb]
    exact number_reads (acc * 256 + d) hds

theorem length_reads {n : Nat} (h : n < 0x100000000) : Reads Reader.length (length n) n := by
  unfold length
  split
  · rename_i hn
    have hb : (UInt8.ofNat n).toNat = n := Nat.mod_eq_of_lt (by omega)
    refine (byte_reads (UInt8.ofNat n)).map ?_
    rw [if_pos (UInt8.lt_iff_toNat_lt.2 (by rw [hb]; exact hn)), hb]
    exact .pure n
  · rename_i hn
    have hw : n < 256 ^ 8 := by omega
    have hlen : (fewest 256 8 n).length ≤ 4 := length_fewest_le (by decide) hw (by omega)
    have hpos := List.length_pos_iff.2 (fewest_ne_nil hw (by omega))
    have hb : (UInt8.ofNat (0x80 + (fewest 256 8 n).length)).toNat =
        0x80 + (fewest 256 8 n).length := Nat.mod_eq_of_lt (by omega)
    have hlong : ¬ UInt8.ofNat (0x80 + (fewest 256 8 n).length) < 0x80 := by
      rw [UInt8.lt_iff_toNat_lt, hb]
      exact Nat.not_lt.2 (Nat.le_add_right _ _)
    refine (byte_reads _).bind ?_
    rw [if_neg hlong]
    simp only [hb]
    rw [Nat.add_sub_cancel_left, if_neg (by omega)]
    have hd : ∀ d ∈ fewest 256 8 n, d < 256 := fun d => lt_of_mem_fewest (by decide)
    have hnum := number_reads 0 hd
    rwa [value_fewest hw] at hnum

theorem tlv_reads (tag : UInt8) {contents : List UInt8} (h : contents.length < 0x100000000) :
    Reads Reader.tlv (tlv tag contents) (tag, contents) := by
  refine (byte_reads tag).bind ((length_reads h).bind fun rest => ?_)
  rw [bind_apply, get_apply]
  simp only
  rw [if_neg (by rw [List.length_append]; omega)]
  simp only [bind_apply, set_apply, pure_apply, List.take_left, List.drop_left]

theorem expect_reads (tag : UInt8) {contents : List UInt8} (h : contents.length < 0x100000000) :
    Reads (Reader.expect tag) (tlv tag contents) contents := by
  refine (tlv_reads tag h).map ?_
  simp only [if_true]
  exact .pure contents

theorem integer_reads (n : Number) : Reads Reader.integer (integer Tag.integer n) n := by
  have hlen := length_encodeInteger n
  exact (expect_reads Tag.integer (by omega)).map (.ofExcept (decodeInteger_encodeInteger n))

theorem oid_reads {arcs : Oid} (h : arcs.Encodable) (hlen : (oid arcs).length < 0x100000000) :
    Reads Reader.oid (oid arcs) arcs :=
  (expect_reads Tag.oid (Nat.lt_trans (length_lt_tlv _ _) hlen)).map
    (.ofExcept (decodeOid_encodeOid h))

/-! ## From what is read to its encoding -/

def Takes (r : Reader α) (Q : α → Nat → Prop) : Prop :=
  ∀ s a s', r s = (.ok a, s') → ∃ k, s.length = k + s'.length ∧ Q a k

namespace Takes

variable {p : Reader α} {f : α → Reader β} {Q : α → Nat → Prop} {R : β → Nat → Prop}

theorem pure {a : α} (h : Q a 0) : Takes (Pure.pure a) Q := by
  rintro s b s' ⟨⟩
  exact ⟨0, (Nat.zero_add _).symm, h⟩

theorem throw (e : DecodeError) : Takes (MonadExcept.throw e : Reader α) Q := by
  rintro s a s' ⟨⟩

theorem ofExcept {r : Except DecodeError α} (h : ∀ a, r = .ok a → Q a 0) :
    Takes (MonadExcept.ofExcept r) Q := by
  intro s a s' hr
  rw [ofExcept_apply] at hr
  obtain ⟨rfl, rfl⟩ := Prod.mk.inj hr
  exact ⟨0, (Nat.zero_add _).symm, h a rfl⟩

theorem bind (hp : Takes p Q) (hf : ∀ a k, Q a k → Takes (f a) fun b j => R b (k + j)) :
    Takes (p >>= f) R := by
  intro s b s' h
  rw [bind_apply] at h
  split at h
  · rename_i a s₁ h₁
    obtain ⟨k, hk, hQ⟩ := hp s a s₁ h₁
    obtain ⟨j, hj, hR⟩ := hf a k hQ s₁ b s' h
    exact ⟨k + j, by omega, hR⟩
  · cases h

/-- Nothing is taken here from what the contents were taken from. -/
theorem within {contents : List UInt8} (hp : Takes p Q) :
    Takes (Reader.within contents p) fun a k => k = 0 ∧ ∃ j ≤ contents.length, Q a j := by
  refine .ofExcept fun a ha => ⟨rfl, ?_⟩
  obtain ⟨k, hk, hQ⟩ := hp contents a (p contents).2 (Prod.ext ha rfl)
  exact ⟨k, by omega, hQ⟩

theorem mono {Q' : α → Nat → Prop} (hp : Takes p Q) (h : ∀ a k, Q a k → Q' a k) : Takes p Q' :=
  fun s a s' hr => (hp s a s' hr).imp fun k hk => ⟨hk.1, h a k hk.2⟩

end Takes

theorem byte_takes : Takes Reader.byte fun _ k => k = 1 := by
  intro s b s' h
  cases s with
  | nil => cases h
  | cons c cs =>
    cases h
    exact ⟨1, Nat.add_comm _ _, rfl⟩

theorem number_takes : ∀ (count acc c : Nat), acc < 256 ^ c →
    Takes (Reader.number acc count) fun n k => k = count ∧ n < 256 ^ (c + count)
  | 0, acc, c, h => .pure ⟨rfl, h⟩
  | count + 1, acc, c, h => by
    refine .bind byte_takes fun b k hk => ?_
    have hb := b.toNat_lt
    have hacc : acc * 256 + b.toNat < 256 ^ (c + 1) := by
      rw [Nat.pow_succ]
      omega
    refine (number_takes count _ (c + 1) hacc).mono fun n j hj => ⟨by omega, ?_⟩
    rw [← Nat.add_assoc, Nat.add_right_comm]
    exact hj.2

theorem length_takes :
    Takes Reader.length fun n k => n < 0x100000000 ∧ (length n).length ≤ k := by
  refine .bind byte_takes fun first k hk => ?_
  split
  · rename_i h
    have h : first.toNat < 0x80 := UInt8.lt_iff_toNat_lt.1 h
    refine .pure ⟨by omega, ?_⟩
    rw [length, if_pos h]
    simp [hk]
  · simp only
    split
    · exact .throw _
    · refine (number_takes _ 0 0 (by decide)).mono fun n j hj => ?_
      obtain ⟨hj, hn⟩ := hj
      rw [← hj, Nat.zero_add] at hn
      have hlt : n < 256 ^ 4 := Nat.lt_of_lt_of_le hn (Nat.pow_le_pow_right (by decide) (by omega))
      exact ⟨hlt, hk ▸ length_length_le hlt hn⟩

theorem tlv_takes : Takes Reader.tlv fun r k =>
    r.2.length < 0x100000000 ∧ (tlv r.1 r.2).length ≤ k := by
  refine .bind byte_takes fun tag k hk => .bind length_takes fun n j hn => ?_
  intro s r s' h
  rw [bind_apply, get_apply] at h
  simp only at h
  split at h
  · cases h
  · rename_i hlen
    simp only [bind_apply, set_apply, pure_apply] at h
    cases h
    have htake : (s.take n).length = n := by rw [List.length_take]; omega
    refine ⟨n, by rw [List.length_drop]; omega, ?_⟩
    show (s.take n).length < _ ∧ (tlv tag (s.take n)).length ≤ k + (j + n)
    rw [length_tlv, htake]
    omega

theorem expect_takes (tag : UInt8) : Takes (Reader.expect tag) fun contents k =>
    contents.length < 0x100000000 ∧ (tlv tag contents).length ≤ k := by
  refine .bind tlv_takes fun ⟨found, contents⟩ k hr => ?_
  simp only
  split
  · rename_i h
    exact .pure ⟨hr.1, h ▸ hr.2⟩
  · exact .throw _

theorem integer_takes : Takes Reader.integer fun n k => (integer Tag.integer n).length ≤ k := by
  refine .bind (expect_takes Tag.integer) fun contents k hc => .ofExcept fun n hn => ?_
  exact Nat.le_trans (length_tlv_mono _ _ (length_encodeInteger_le hn) hc.1) hc.2

theorem oid_takes : Takes Reader.oid fun arcs k => arcs.Encodable ∧ (oid arcs).length ≤ k := by
  refine .bind (expect_takes Tag.oid) fun contents k hc => .ofExcept fun arcs ha => ?_
  obtain ⟨he, hlen⟩ := of_decodeOid ha
  exact ⟨he, Nat.le_trans (length_tlv_mono _ _ hlen hc.1) hc.2⟩

end ScriptedAgent.Ber
