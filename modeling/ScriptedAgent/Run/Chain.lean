import ScriptedAgent.Run.Exact
import ScriptedAgent.Script.Token.Printer

/-!
# Chains of operations

Decimal literals joined by operators, as a text and with a reference for what they come to. The
reference is one pass from left to right over the operators, with the sum so far and the term that
is still to be added to it.
-/

namespace ScriptedAgent.Script

inductive Operator where
  | plus | minus | times | divide
deriving DecidableEq

def Operator.symbol : Operator → Symbol
  | plus => .plus
  | minus => .minus
  | times => .star
  | divide => .slash

/-- A decimal literal for a number that a script can hold. Zeros may lead. -/
structure Literal where
  digits : List Char
  numeral : IsNumeral digits
  fits : Number.Fits (Nat.ofDigitChars 10 digits 0)

namespace Literal

def value (l : Literal) : Int := Nat.ofDigitChars 10 l.digits 0

def number (l : Literal) : Number := .ofInt l.value

end Literal

/-- An operator and the literal behind it, and how many spaces stand before each of the two. -/
structure Link where
  before : Nat
  operator : Operator
  between : Nat
  literal : Literal

def Link.chars (l : Link) : List Char :=
  List.replicate l.before ' ' ++ l.operator.symbol.chars ++ List.replicate l.between ' ' ++
    l.literal.digits

structure Chain where
  first : Literal
  rest : List Link

namespace Chain

def chars (c : Chain) : List Char := c.first.digits ++ c.rest.flatMap Link.chars

/-- The script that prints what the chain comes to. -/
def script (c : Chain) : String :=
  "run\n print strInt(" ++ String.ofList c.chars ++ ")\nendrun\n"

end Chain

/-! ## The reference -/

/-- The sum so far, and the term that is to be added to it with this sign. -/
structure Tally where
  sum : Int
  sign : Int
  term : Int

namespace Tally

def start (n : Int) : Tally := ⟨0, 1, n⟩

def total (t : Tally) : Int := t.sum + t.sign * t.term

def next (t : Tally) (n : Int) : Operator → Tally
  | .plus => ⟨t.total, 1, n⟩
  | .minus => ⟨t.total, -1, n⟩
  | .times => { t with term := t.term * n }
  | .divide => { t with term := t.term.tdiv n }

/-- What is worked out at an operator: a partial sum, or a partial product. -/
def step (t : Tally) (n : Int) : Operator → Step
  | .plus | .minus => .result t.total
  | .times => .result (t.term * n)
  | .divide => .quotient t.term n

/-- The tally behind the links. -/
def along (t : Tally) (links : List Link) : Tally :=
  links.foldl (fun t l => t.next l.literal.value l.operator) t

/-- The steps over the links, and the last sum. -/
def steps : Tally → List Link → List Step
  | t, [] => [.result t.total]
  | t, l :: ls => t.step l.literal.value l.operator :: (t.next l.literal.value l.operator).steps ls

end Tally

namespace Chain

/-- What the chain comes to, with the usual precedence. -/
def reference (c : Chain) : Int := ((Tally.start c.first.value).along c.rest).total

/-- The steps in which the reference is worked out. -/
def steps (c : Chain) : List Step := (Tally.start c.first.value).steps c.rest

end Chain

end ScriptedAgent.Script
