import ScriptedAgent.Text.Decimal

/-!
# Script integers

A script computes on 64-bit signed integers. Each operation gives the exact result where that fits
and nothing where it does not, so a result never wraps: `ofInt?` is the one place that decides.
-/

namespace ScriptedAgent

abbrev Number := Int64

namespace Number

/-- The number with this value, if there is one. -/
def ofInt? (n : Int) : Option Number :=
  if -0x8000000000000000 ≤ n ∧ n ≤ 0x7fffffffffffffff then some (Int64.ofInt n) else none

def add? (a b : Number) : Option Number := ofInt? (a.toInt + b.toInt)
def sub? (a b : Number) : Option Number := ofInt? (a.toInt - b.toInt)
def mul? (a b : Number) : Option Number := ofInt? (a.toInt * b.toInt)
def neg? (a : Number) : Option Number := ofInt? (-a.toInt)

/-- The quotient rounded toward zero, for a divisor that is not zero. -/
def div? (a b : Number) : Option Number := ofInt? (a.toInt.tdiv b.toInt)

def text (n : Number) : String := toString n.toInt

def ofText? (cs : List Char) : Option Number := (Decimal.signed? cs).bind ofInt?

/-- A number of 32 bits is one of 64. -/
theorem toInt_ofNat (u : UInt32) : (Int64.ofNat u.toNat : Number).toInt = u.toNat := by
  have h := u.toNat_lt
  exact Int64.toInt_ofNat_of_lt (by omega)

theorem ofInt?_eq_some_iff {n : Int} {a : Number} : ofInt? n = some a ↔ a.toInt = n := by
  unfold ofInt?
  constructor
  · intro h
    split at h
    · rename_i hn
      simp only [Option.some.injEq] at h
      rw [← h, Int64.toInt_ofInt_of_le hn.1 (by omega)]
    · simp at h
  · intro h
    subst h
    rw [if_pos ⟨a.le_toInt, a.toInt_le⟩, Int64.ofInt_toInt]

theorem ofInt?_eq_none_iff {n : Int} : ofInt? n = none ↔
    n < -0x8000000000000000 ∨ 0x8000000000000000 ≤ n := by
  unfold ofInt?
  split <;> simp <;> omega

end Number

end ScriptedAgent
