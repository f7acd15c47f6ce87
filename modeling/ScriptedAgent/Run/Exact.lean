import ScriptedAgent.Run.Machine
import ScriptedAgent.Script.Expr

/-!
# Exact arithmetic

What an integer expression comes to over all integers, where nothing overflows, and the steps in
which this is worked out from left to right. A division by zero comes to zero here; that it must not
be taken is said of its step.
-/

namespace ScriptedAgent

/-- `n` is a 64-bit signed number. -/
def Number.Fits (n : Int) : Prop := -0x8000000000000000 ≤ n ∧ n ≤ 0x7fffffffffffffff

instance : DecidablePred Number.Fits := fun _ => inferInstanceAs (Decidable (_ ∧ _))

namespace Script

/-! ## Steps -/

/-- One step of a computation. -/
inductive Step where
  /-- A sum, a difference, a product or a negation, or the value of a field. -/
  | result (n : Int)
  | quotient (a b : Int)
deriving DecidableEq

namespace Step

/-- What the step comes to, a quotient rounded toward zero. -/
def exact : Step → Int
  | result n => n
  | quotient a b => a.tdiv b

def ByZero : Step → Prop
  | result _ => False
  | quotient _ b => b = 0

instance : DecidablePred ByZero
  | result _ => inferInstanceAs (Decidable False)
  | quotient _ _ => inferInstanceAs (Decidable (_ = _))

def Overflows (s : Step) : Prop := ¬ Number.Fits s.exact

instance : DecidablePred Overflows := fun _ => inferInstanceAs (Decidable (¬ _))

def Fails (s : Step) : Prop := s.ByZero ∨ s.Overflows

instance : DecidablePred Fails := fun _ => inferInstanceAs (Decidable (_ ∨ _))

/-- The error of a step that fails. -/
def error (s : Step) : RuntimeError := if s.ByZero then .divisionByZero else .overflow

end Step

/-- The first step that fails, if one does. -/
def firstFailing (steps : List Step) : Option Step := steps.find? (·.Fails)

/-! ## Expressions -/

/-- What the names in an expression stand for. -/
structure Operands where
  var : String → Int
  field : String → String → Int

variable (ρ : Operands)

mutual

def IntExpr.exact : IntExpr → Int
  | .term t => t.exact
  | .add e t => e.exact + t.exact
  | .sub e t => e.exact - t.exact

def IntTerm.exact : IntTerm → Int
  | .factor f => f.exact
  | .mul t f => t.exact * f.exact
  | .div t f => t.exact.tdiv f.exact

def IntFactor.exact : IntFactor → Int
  | .const n => n.toInt
  | .var x => ρ.var x
  | .field x f => ρ.field x f
  | .neg f => -f.exact
  | .group e => e.exact

end

mutual

def IntExpr.steps : IntExpr → List Step
  | .term t => t.steps
  | .add e t => e.steps ++ t.steps ++ [.result (e.exact ρ + t.exact ρ)]
  | .sub e t => e.steps ++ t.steps ++ [.result (e.exact ρ - t.exact ρ)]

def IntTerm.steps : IntTerm → List Step
  | .factor f => f.steps
  | .mul t f => t.steps ++ f.steps ++ [.result (t.exact ρ * f.exact ρ)]
  | .div t f => t.steps ++ f.steps ++ [.quotient (t.exact ρ) (f.exact ρ)]

def IntFactor.steps : IntFactor → List Step
  | .const _ => []
  | .var _ => []
  | .field x f => [.result (ρ.field x f)]
  | .neg f => f.steps ++ [.result (-f.exact ρ)]
  | .group e => e.steps

end

end Script

/-! ## Operands in a store -/

/-- The number that a value of an integer kind is. -/
def Value.number : Value → Int
  | integer n => n.toInt
  | counter n | gauge n | timeticks n => n.toNat
  | _ => 0

namespace Store

def fieldValue (s : Store) (name field : String) : Nat :=
  match s.read? name, s.types.field? name field with
  | some (.block b), some f => f.value b
  | _, _ => 0

/-- The variables of a store and their fields as operands. -/
def operands (s : Store) : Script.Operands where
  var x := ((s.read? x).map Value.number).getD 0
  field x f := s.fieldValue x f

end Store

end ScriptedAgent
