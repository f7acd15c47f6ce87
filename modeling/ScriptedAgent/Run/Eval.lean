import ScriptedAgent.Run.Machine
import ScriptedAgent.Script.Expr

/-!
# Evaluation of expressions

Operands are evaluated from left to right and arithmetic is exact or fails. `|` and `&` stop at the
operand that decides them.
-/

namespace ScriptedAgent.Script

open Eval

variable (T : TypeTable)

def wrongKind {α : Type} (name : String) (k : Kind) (s : Scalar) : Eval α :=
  throw (.value name (.kindMismatch k s.typeName))

def quotient (a b : Number) : Eval Number :=
  if b = 0 then throw .divisionByZero else checked (Number.div? a b)

def loadInt (name : String) : Eval Number := do
  match ← load T name with
  | .int n => return n
  | s => wrongKind name .integer s

def loadBool (name : String) : Eval Bool := do
  match ← load T name with
  | .bool b => return b
  | s => wrongKind name .boolean s

def loadStr (name : String) : Eval String := do
  match ← load T name with
  | .str x => return x
  | s => wrongKind name .string s

def loadBits (name : String) : Eval Bitset := do
  match ← load T name with
  | .bits b => return b
  | s => wrongKind name .bitset s

mutual

def IntExpr.eval : IntExpr → Eval Number
  | .term t => t.eval
  | .add e t => do
    let a ← e.eval
    let b ← t.eval
    checked (Number.add? a b)
  | .sub e t => do
    let a ← e.eval
    let b ← t.eval
    checked (Number.sub? a b)

def IntTerm.eval : IntTerm → Eval Number
  | .factor f => f.eval
  | .mul t f => do
    let a ← t.eval
    let b ← f.eval
    checked (Number.mul? a b)
  | .div t f => do
    let a ← t.eval
    let b ← f.eval
    quotient a b

def IntFactor.eval : IntFactor → Eval Number
  | .const n => return n
  | .var x => loadInt T x
  | .field x f => loadField T x f
  | .neg f => do
    let a ← f.eval
    checked (Number.neg? a)
  | .group e => e.eval

end

def Comparison.holds (a b : Number) : Comparison → Bool
  | less => a.toInt < b.toInt
  | greater => b.toInt < a.toInt
  | atMost => a.toInt ≤ b.toInt
  | atLeast => b.toInt ≤ a.toInt
  | equal => a.toInt = b.toInt

mutual

def BoolExpr.eval : BoolExpr → Eval Bool
  | .term t => t.eval
  | .or e t => do
    if ← e.eval then return true
    t.eval

def BoolTerm.eval : BoolTerm → Eval Bool
  | .factor f => f.eval
  | .and t f => do
    if ← t.eval then f.eval else return false

def BoolFactor.eval : BoolFactor → Eval Bool
  | .const b => return b
  | .var x => loadBool T x
  | .not f => do
    let b ← f.eval
    return !b
  | .group e => e.eval
  | .compare op l r => do
    let a ← l.eval T
    let b ← r.eval T
    return op.holds a b

end

/-- The positions that integers name. -/
def evalPositions : List IntExpr → Eval (List Nat)
  | [] => return []
  | e :: es => do
    let n ← e.eval T
    match Bitset.position? n.toInt with
    | none => throw (.bitPosition n)
    | some p =>
      let ps ← evalPositions es
      return p :: ps

mutual

def BitsExpr.eval : BitsExpr → Eval Bitset
  | .term t => t.eval
  | .union e t => do
    let a ← e.eval
    let b ← t.eval
    return a.union b

def BitsTerm.eval : BitsTerm → Eval Bitset
  | .set es => do
    let ps ← evalPositions T es
    return .ofList ps
  | .var x => loadBits T x
  | .group e => e.eval

end

mutual

def StrExpr.eval : StrExpr → Eval String
  | .term t => t.eval
  | .append e t => do
    let a ← e.eval
    let b ← t.eval
    return a ++ b

def StrTerm.eval : StrTerm → Eval String
  | .literal s => return s
  | .var x => loadStr T x
  | .group e => e.eval
  | .ofInt e => do
    let n ← e.eval T
    return Number.text n
  | .ofBool e => do
    let b ← e.eval T
    return if b then "true" else "false"
  | .ofBits e => do
    let b ← e.eval T
    return b.text

end

def Expr.eval : Expr → Eval Scalar
  | .int e => return .int (← e.eval T)
  | .bool e => return .bool (← e.eval T)
  | .str e => return .str (← e.eval T)
  | .bits e => return .bits (← e.eval T)

end ScriptedAgent.Script
