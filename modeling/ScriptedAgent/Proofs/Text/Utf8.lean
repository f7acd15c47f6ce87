import ScriptedAgent.Text.Utf8

/-!
# Text in UTF-8

The octets of a text are those of its characters. A character below 128 is the octet of that number,
and every octet of another is 128 or more. Text that is decoded with replacements has none where its
octets are UTF-8 (`repaired_encoded`).
-/

namespace ScriptedAgent.Text

variable {c : Char} {b : UInt8} {bs : List UInt8}

/-- The octets of characters. -/
def encoded (cs : List Char) : List UInt8 := cs.flatMap String.utf8EncodeChar

theorem utf8_ofList (cs : List Char) : utf8 (String.ofList cs) = encoded cs := by
  rw [utf8, String.toUTF8, String.toByteArray_ofList, List.utf8Encode, List.toList_data_toByteArray]
  rfl

theorem utf8_eq (s : String) : utf8 s = encoded s.toList := by
  rw [← utf8_ofList, String.ofList_toList]

theorem utf8EncodeChar_of_lt (h : c.toNat < 0x80) :
    String.utf8EncodeChar c = [UInt8.ofNat c.toNat] :=
  if_pos (Nat.le_of_lt_succ h)

theorem le_of_mem_utf8EncodeChar (h : 0x80 ≤ c.toNat) (hb : b ∈ String.utf8EncodeChar c) :
    0x80 ≤ b.toNat := by
  have hv : ¬ c.val.toNat ≤ 0x7f := by
    show ¬ c.toNat ≤ 0x7f
    omega
  rw [String.utf8EncodeChar, if_neg hv] at hb
  split at hb
  · simp only [List.mem_cons, List.not_mem_nil, or_false] at hb
    rcases hb with rfl | rfl <;> rw [UInt8.toNat_ofNat'] <;> omega
  split at hb
  · simp only [List.mem_cons, List.not_mem_nil, or_false] at hb
    rcases hb with rfl | rfl | rfl <;> rw [UInt8.toNat_ofNat'] <;> omega
  · simp only [List.mem_cons, List.not_mem_nil, or_false] at hb
    rcases hb with rfl | rfl | rfl | rfl <;> rw [UInt8.toNat_ofNat'] <;> omega

/-! ## Decoding -/

theorem decodeFrom_first {p : Begun} (h : lead b = .first p) :
    decodeFrom none (b :: bs) = decodeFrom (some p) bs := by
  rw [decodeFrom, h]

theorem decodeFrom_more {low high : UInt8} {need bits : Nat} (hl : low ≤ b) (hh : b ≤ high) :
    decodeFrom (some ⟨need + 2, low, high, bits⟩) (b :: bs) =
      decodeFrom (some ⟨need + 1, 0x80, 0xbf, bits * 64 + b.toNat % 64⟩) bs := by
  rw [decodeFrom, if_pos ⟨hl, hh⟩]
  rfl

theorem decodeFrom_last {low high : UInt8} {bits : Nat} (hl : low ≤ b) (hh : b ≤ high) :
    decodeFrom (some ⟨1, low, high, bits⟩) (b :: bs) =
      Char.ofNat (bits * 64 + b.toNat % 64) :: decodeFrom none bs := by
  rw [decodeFrom, if_pos ⟨hl, hh⟩]
  rfl

/-- An octet behind the first one of a character, with six bits of its number. -/
def continuation (n : Nat) : UInt8 := UInt8.ofNat (n % 64 + 0x80)

theorem toNat_continuation (n : Nat) : (continuation n).toNat = n % 64 + 0x80 := by
  rw [continuation, UInt8.toNat_ofNat']
  omega

theorem continuation_mod (n : Nat) : (continuation n).toNat % 64 = n % 64 := by
  rw [toNat_continuation]
  omega

theorem le_continuation (n : Nat) : 0x80 ≤ continuation n := by
  rw [UInt8.le_iff_toNat_le, toNat_continuation]
  exact Nat.le_add_left _ _

theorem continuation_le (n : Nat) : continuation n ≤ 0xbf := by
  rw [UInt8.le_iff_toNat_le, toNat_continuation]
  show n % 64 + 0x80 ≤ 0xbf
  omega

theorem lead_two {n : Nat} (h : 2 ≤ n) (h' : n < 32) :
    lead (UInt8.ofNat (n + 0xc0)) = .first ⟨1, 0x80, 0xbf, n⟩ := by
  have hn : (UInt8.ofNat (n + 0xc0)).toNat = n + 0xc0 :=
    UInt8.toNat_ofNat_of_lt' (show n + 0xc0 < 256 by omega)
  simp only [lead, hn]
  rw [if_neg (by omega), if_neg (by omega), if_pos (by omega), Nat.add_sub_cancel]

theorem lead_three {n m : Nat} (h : n < 16) (hlow : n = 0 → 32 ≤ m % 64)
    (hhigh : n = 13 → m % 64 < 32) :
    ∃ low high, lead (UInt8.ofNat (n + 0xe0)) = .first ⟨2, low, high, n⟩ ∧
      low ≤ continuation m ∧ continuation m ≤ high := by
  have hn : (UInt8.ofNat (n + 0xe0)).toNat = n + 0xe0 :=
    UInt8.toNat_ofNat_of_lt' (show n + 0xe0 < 256 by omega)
  simp only [lead, hn]
  rw [if_neg (by omega), if_neg (by omega), if_neg (by omega)]
  by_cases h0 : n = 0
  · subst h0
    refine ⟨0xa0, 0xbf, rfl, ?_, continuation_le m⟩
    rw [UInt8.le_iff_toNat_le, toNat_continuation]
    exact Nat.add_le_add_right (hlow rfl) 0x80
  by_cases h13 : n = 13
  · subst h13
    refine ⟨0x80, 0x9f, rfl, le_continuation m, ?_⟩
    rw [UInt8.le_iff_toNat_le, toNat_continuation]
    exact Nat.add_le_add_right (Nat.le_of_lt_succ (hhigh rfl)) 0x80
  · rw [if_neg (by omega), if_neg (by omega), if_pos (by omega), Nat.add_sub_cancel]
    exact ⟨0x80, 0xbf, rfl, le_continuation m, continuation_le m⟩

theorem lead_four {n m : Nat} (h : n ≤ 4) (hlow : n = 0 → 16 ≤ m % 64)
    (hhigh : n = 4 → m % 64 < 16) :
    ∃ low high, lead (UInt8.ofNat (n + 0xf0)) = .first ⟨3, low, high, n⟩ ∧
      low ≤ continuation m ∧ continuation m ≤ high := by
  have hn : (UInt8.ofNat (n + 0xf0)).toNat = n + 0xf0 :=
    UInt8.toNat_ofNat_of_lt' (show n + 0xf0 < 256 by omega)
  simp only [lead, hn]
  rw [if_neg (by omega), if_neg (by omega), if_neg (by omega), if_neg (by omega),
    if_neg (by omega), if_neg (by omega)]
  by_cases h0 : n = 0
  · subst h0
    refine ⟨0x90, 0xbf, rfl, ?_, continuation_le m⟩
    rw [UInt8.le_iff_toNat_le, toNat_continuation]
    exact Nat.add_le_add_right (hlow rfl) 0x80
  by_cases h4 : n = 4
  · subst h4
    refine ⟨0x80, 0x8f, rfl, le_continuation m, ?_⟩
    rw [UInt8.le_iff_toNat_le, toNat_continuation]
    exact Nat.add_le_add_right (Nat.le_of_lt_succ (hhigh rfl)) 0x80
  · rw [if_neg (by omega), if_pos (by omega), Nat.add_sub_cancel]
    exact ⟨0x80, 0xbf, rfl, le_continuation m, continuation_le m⟩

/-- The octets of a character that has more than one. -/
theorem utf8EncodeChar_of_le (h : 0x80 ≤ c.toNat) : String.utf8EncodeChar c =
    if c.toNat < 0x800 then [UInt8.ofNat (c.toNat / 0x40 + 0xc0), continuation c.toNat]
    else if c.toNat < 0x10000 then
      [UInt8.ofNat (c.toNat / 0x1000 + 0xe0), continuation (c.toNat / 0x40), continuation c.toNat]
    else
      [UInt8.ofNat (c.toNat / 0x40000 + 0xf0), continuation (c.toNat / 0x1000),
        continuation (c.toNat / 0x40), continuation c.toNat] := by
  have hvalid : c.toNat < 0xd800 ∨ 0xdfff < c.toNat ∧ c.toNat < 0x110000 := c.valid
  have hv : c.val.toNat = c.toNat := rfl
  simp only [String.utf8EncodeChar, hv]
  rw [if_neg (by omega)]
  by_cases h₂ : c.toNat < 0x800
  · rw [if_pos (by omega), if_pos h₂, Nat.mod_eq_of_lt (a := c.toNat / 64) (by omega)]
    rfl
  rw [if_neg (by omega), if_neg h₂]
  by_cases h₃ : c.toNat < 0x10000
  · rw [if_pos (by omega), if_pos h₃, Nat.mod_eq_of_lt (a := c.toNat / 4096) (by omega)]
    rfl
  · rw [if_neg (by omega), if_neg h₃, Nat.mod_eq_of_lt (a := c.toNat / 262144) (by omega)]
    rfl

theorem decodeFrom_utf8EncodeChar (c : Char) (bs : List UInt8) :
    decodeFrom none (String.utf8EncodeChar c ++ bs) = c :: decodeFrom none bs := by
  have hvalid : c.toNat < 0xd800 ∨ 0xdfff < c.toNat ∧ c.toNat < 0x110000 := c.valid
  have hchar {n : Nat} (h : n = c.toNat) : Char.ofNat n = c := h ▸ Char.ofNat_toNat c
  by_cases h : c.toNat < 0x80
  · have hn : (UInt8.ofNat c.toNat).toNat = c.toNat :=
      UInt8.toNat_ofNat_of_lt' (show c.toNat < 256 by omega)
    have hlead : lead (UInt8.ofNat c.toNat) = .whole c := by
      rw [lead, hn, if_pos h, hchar rfl]
    rw [utf8EncodeChar_of_lt h, List.singleton_append, decodeFrom, hlead]
  rw [utf8EncodeChar_of_le (Nat.le_of_not_lt h)]
  split
  · simp only [List.cons_append, List.nil_append]
    rw [decodeFrom_first (lead_two (by omega) (by omega)),
      decodeFrom_last (le_continuation _) (continuation_le _), continuation_mod,
      hchar (by omega)]
  split
  · obtain ⟨low, high, hlead, hlow, hhigh⟩ := lead_three (n := c.toNat / 0x1000)
      (m := c.toNat / 0x40) (by omega) (by omega) (by omega)
    simp only [List.cons_append, List.nil_append]
    rw [decodeFrom_first hlead, decodeFrom_more hlow hhigh,
      decodeFrom_last (le_continuation _) (continuation_le _), continuation_mod, continuation_mod,
      hchar (by omega)]
  · obtain ⟨low, high, hlead, hlow, hhigh⟩ := lead_four (n := c.toNat / 0x40000)
      (m := c.toNat / 0x1000) (by omega) (by omega) (by omega)
    simp only [List.cons_append, List.nil_append]
    rw [decodeFrom_first hlead, decodeFrom_more hlow hhigh,
      decodeFrom_more (le_continuation _) (continuation_le _),
      decodeFrom_last (le_continuation _) (continuation_le _), continuation_mod, continuation_mod,
      continuation_mod, hchar (by omega)]

theorem decodeFrom_encoded : ∀ cs : List Char, decodeFrom none (encoded cs) = cs
  | [] => rfl
  | c :: cs => by
    rw [encoded, List.flatMap_cons, decodeFrom_utf8EncodeChar]
    exact congrArg _ (decodeFrom_encoded cs)

theorem repaired_encoded (cs : List Char) : repaired (encoded cs) = String.ofList cs := by
  rw [repaired, decodeFrom_encoded]

end ScriptedAgent.Text
