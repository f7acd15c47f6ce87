import ScriptedAgent.Proofs.Text

/-!
# The spellings of a number

A number is read from its digits behind any zeros, and from those behind a plus sign, and from no
other text (`unsigned?_eq_some_iff`). One of these spellings is plain, with no sign and no zero in
front, and that is how the number is written (`isPlain_iff`).
-/

namespace ScriptedAgent.Decimal

variable {cs : List Char} {n : Nat}

/-- What an unsigned number is spelled as: its digits behind any zeros, with a plus sign in front
of them or without. -/
def Spells (cs : List Char) (n : Nat) : Prop :=
  ∃ k, cs = List.replicate k '0' ++ digits n ∨ cs = '+' :: (List.replicate k '0' ++ digits n)

/-- Digits alone, and no zero in front of others. -/
structure IsPlain (cs : List Char) : Prop where
  ne_nil : cs ≠ []
  digit : ∀ c ∈ cs, c.isDigit = true
  zero : cs.head? = some '0' → cs = ['0']

/-! ## Digits and their value -/

theorem digits_of_isDigit {c : Char} (h : c.isDigit = true) :
    c.toNat - '0'.toNat < 10 ∧ digits (c.toNat - '0'.toNat) = [c] := by
  simp only [Char.isDigit, Bool.and_eq_true, decide_eq_true_eq] at h
  have hlow : '0'.toNat ≤ c.toNat := h.1
  have hhigh : c.toNat ≤ '0'.toNat + 9 := h.2
  have hlt : c.toNat - '0'.toNat < 10 := by omega
  refine ⟨hlt, ?_⟩
  rw [digits, Nat.toDigits_of_lt_base hlt, List.cons.injEq, ← Char.toNat_inj,
    Nat.toNat_digitChar_of_lt_ten hlt]
  exact ⟨Nat.add_sub_cancel' hlow, rfl⟩

/-- Behind a positive number, every digit is one of its value. -/
theorem digits_ofDigitChars : ∀ {cs : List Char} {n : Nat}, 0 < n →
    (∀ c ∈ cs, c.isDigit = true) → digits (Nat.ofDigitChars 10 cs n) = digits n ++ cs
  | [], n, _, _ => by rw [Nat.ofDigitChars_nil, List.append_nil]
  | c :: cs, n, hn, h => by
    obtain ⟨hc, hcs⟩ := List.forall_mem_cons.1 h
    obtain ⟨hlt, hdigit⟩ := digits_of_isDigit hc
    have hstep : digits (10 * n + (c.toNat - '0'.toNat)) = digits n ++ [c] := by
      rw [← hdigit]
      exact (Nat.toDigits_append_toDigits (by decide) hn hlt).symm
    calc digits (Nat.ofDigitChars 10 (c :: cs) n)
        = digits (Nat.ofDigitChars 10 cs (10 * n + (c.toNat - '0'.toNat))) := by
          rw [Nat.ofDigitChars_cons]
      _ = digits (10 * n + (c.toNat - '0'.toNat)) ++ cs := digits_ofDigitChars (by omega) hcs
      _ = digits n ++ c :: cs := by rw [hstep, List.append_assoc, List.singleton_append]

/-- Digits are those of their value behind zeros. -/
theorem exists_zeros : ∀ {cs : List Char}, cs ≠ [] → (∀ c ∈ cs, c.isDigit = true) →
    ∃ k, cs = List.replicate k '0' ++ digits (Nat.ofDigitChars 10 cs 0)
  | [c], _, h => by
    obtain ⟨-, hdigit⟩ := digits_of_isDigit (h c List.mem_cons_self)
    refine ⟨0, ?_⟩
    rw [Nat.ofDigitChars_cons, Nat.ofDigitChars_nil, Nat.mul_zero, Nat.zero_add, hdigit]
    rfl
  | c :: d :: cs, _, h => by
    obtain ⟨hc, hcs⟩ := List.forall_mem_cons.1 h
    obtain ⟨hlt, hdigit⟩ := digits_of_isDigit hc
    rw [Nat.ofDigitChars_cons, Nat.mul_zero, Nat.zero_add]
    by_cases hzero : c.toNat - '0'.toNat = 0
    · obtain ⟨k, hk⟩ := exists_zeros (List.cons_ne_nil d cs) hcs
      have hc0 : c = '0' := by
        rw [hzero] at hdigit
        exact (List.cons.inj hdigit).1.symm
      refine ⟨k + 1, ?_⟩
      rw [hzero, List.replicate_succ, List.cons_append, ← hk, hc0]
    · -- no zero in front, so the value begins with this digit
      refine ⟨0, ?_⟩
      rw [digits_ofDigitChars (Nat.pos_of_ne_zero hzero) hcs, hdigit]
      rfl

theorem zeros_ne_nil (k n : Nat) : List.replicate k '0' ++ digits n ≠ [] :=
  List.append_ne_nil_of_right_ne_nil _ Nat.toDigits_ne_nil

theorem isDigit_of_mem_zeros {k : Nat} {c : Char} (h : c ∈ List.replicate k '0' ++ digits n) :
    c.isDigit = true := by
  rcases List.mem_append.1 h with h | h
  · rw [List.eq_of_mem_replicate h]
    rfl
  · exact isDigit_of_mem_digits h

theorem nat?_eq_some_iff : nat? cs = some n ↔ ∃ k, cs = List.replicate k '0' ++ digits n := by
  constructor
  · intro h
    unfold nat? at h
    split at h
    · rename_i hcs
      cases h
      exact exists_zeros hcs.1 (List.all_eq_true.1 hcs.2)
    · cases h
  · rintro ⟨k, rfl⟩
    rw [nat?, if_pos ⟨zeros_ne_nil k n, List.all_eq_true.2 fun _ => isDigit_of_mem_zeros⟩,
      Nat.ofDigitChars_append, Nat.ofDigitChars_replicate_zero, Nat.mul_zero, digits,
      Nat.ofDigitChars_ten_toDigits]

/-! ## Spellings -/

theorem unsigned?_eq_some_iff : unsigned? cs = some n ↔ Spells cs n := by
  have hsign : ∀ ds k, '+' :: ds ≠ List.replicate k '0' ++ digits n := fun ds k h =>
    absurd (isDigit_of_mem_zeros (h ▸ List.mem_cons_self)) (by decide)
  unfold unsigned?
  split
  · simp [nat?_eq_some_iff, Spells, hsign]
  · rename_i hplus
    have hplus : ∀ ds, cs ≠ '+' :: ds := hplus
    simp [nat?_eq_some_iff, Spells, hplus]

theorem Spells.ne_nil (h : Spells cs n) : cs ≠ [] := by
  obtain ⟨k, rfl | rfl⟩ := h
  · exact zeros_ne_nil k n
  · exact List.cons_ne_nil _ _

/-- A spelling has no character but digits and the sign. -/
theorem Spells.notMem (h : Spells cs n) {c : Char} (hdigit : c.isDigit = false) (hsign : c ≠ '+') :
    c ∉ cs := by
  have hzeros : ∀ k, c ∉ List.replicate k '0' ++ digits n := fun k hc => by
    rw [isDigit_of_mem_zeros hc] at hdigit
    cases hdigit
  obtain ⟨k, rfl | rfl⟩ := h
  · exact hzeros k
  · rw [List.mem_cons, not_or]
    exact ⟨hsign, hzeros k⟩

theorem isPlain_digits (n : Nat) : IsPlain (digits n) where
  ne_nil := Nat.toDigits_ne_nil
  digit _ hc := isDigit_of_mem_digits hc
  zero h := by
    obtain ⟨ds, hds⟩ := List.head?_eq_some_iff.1 h
    rw [hds]
    cases ds with
    | nil => rfl
    | cons d ds =>
      -- the digits behind the zero have the same value, and there are fewer of them
      have hvalue : Nat.ofDigitChars 10 (d :: ds) 0 = n := by
        have hall : Nat.ofDigitChars 10 (digits n) 0 = n := Nat.ofDigitChars_ten_toDigits
        rw [hds, Nat.ofDigitChars_cons] at hall
        exact hall
      obtain ⟨k, hk⟩ := exists_zeros (List.cons_ne_nil d ds) fun c hc =>
        isDigit_of_mem_digits (hds ▸ List.mem_cons_of_mem _ hc)
      have hlength := congrArg List.length hk
      simp only [hvalue, hds, List.length_append, List.length_cons] at hlength
      omega

theorem isPlain_iff : IsPlain cs ↔ ∃ n, cs = digits n := by
  constructor
  · intro h
    obtain ⟨k, hk⟩ := exists_zeros h.ne_nil h.digit
    cases k with
    | zero => exact ⟨_, hk⟩
    | succ k => exact ⟨0, h.zero (by rw [hk]; rfl)⟩
  · rintro ⟨n, rfl⟩
    exact isPlain_digits n

/-- The plain spelling of a number is its digits. -/
theorem Spells.eq_digits (h : Spells cs n) (hp : IsPlain cs) : cs = digits n := by
  obtain ⟨m, rfl⟩ := isPlain_iff.1 hp
  have hm := unsigned?_eq_some_iff.2 h
  rw [unsigned?_digits, Option.some.injEq] at hm
  rw [hm]

end ScriptedAgent.Decimal
