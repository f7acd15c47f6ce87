/-!
# Decimal numbers

A number is written in the fewest digits, and read from any non-empty run of ASCII digits, leading
zeros included. Readers of signed numbers take either sign, readers of unsigned ones only `+`.
-/

namespace ScriptedAgent.Decimal

def digits (n : Nat) : List Char := Nat.toDigits 10 n

/-- A non-empty run of digits. -/
def nat? (cs : List Char) : Option Nat :=
  if cs ≠ [] ∧ cs.all Char.isDigit then some (Nat.ofDigitChars 10 cs 0) else none

/-- Digits after an optional plus sign. -/
def unsigned? : List Char → Option Nat
  | '+' :: cs => nat? cs
  | cs => nat? cs

/-- Digits after an optional sign. -/
def signed? : List Char → Option Int
  | '-' :: cs => (nat? cs).map fun n => -(n : Int)
  | '+' :: cs => (nat? cs).map Int.ofNat
  | cs => (nat? cs).map Int.ofNat

theorem nat?_digits (n : Nat) : nat? (digits n) = some n := by
  have h : (digits n).all Char.isDigit = true :=
    List.all_eq_true.2 fun _ hc => Nat.isDigit_of_mem_toDigits (by decide) (by decide) hc
  simp only [nat?, h, ne_eq]
  simp [digits, Nat.toDigits_ne_nil, Nat.ofDigitChars_ten_toDigits]

end ScriptedAgent.Decimal
