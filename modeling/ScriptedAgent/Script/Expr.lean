import ScriptedAgent.Number

/-!
# Expressions

The four kinds of expression, one type to each level of precedence. A sum or a product grows to the
right, so the tree associates to the left, and no level is ever empty.
-/

namespace ScriptedAgent.Script

mutual

/-- Terms joined by `+` and `-`. -/
inductive IntExpr where
  | term (t : IntTerm)
  | add (e : IntExpr) (t : IntTerm)
  | sub (e : IntExpr) (t : IntTerm)

/-- Factors joined by `*` and `/`. -/
inductive IntTerm where
  | factor (f : IntFactor)
  | mul (t : IntTerm) (f : IntFactor)
  | div (t : IntTerm) (f : IntFactor)

inductive IntFactor where
  | const (n : Number)
  | var (name : String)
  /-- A field of a composite variable. -/
  | field (var field : String)
  | neg (f : IntFactor)
  | group (e : IntExpr)

end

deriving instance DecidableEq for IntExpr, IntTerm, IntFactor

def IntExpr.constant (n : Number) : IntExpr := .term (.factor (.const n))

inductive Comparison where
  | less | greater | atMost | atLeast | equal
deriving DecidableEq

mutual

/-- Terms joined by `|`. -/
inductive BoolExpr where
  | term (t : BoolTerm)
  | or (e : BoolExpr) (t : BoolTerm)

/-- Factors joined by `&`. -/
inductive BoolTerm where
  | factor (f : BoolFactor)
  | and (t : BoolTerm) (f : BoolFactor)

inductive BoolFactor where
  | const (b : Bool)
  | var (name : String)
  | not (f : BoolFactor)
  | group (e : BoolExpr)
  | compare (op : Comparison) (left right : IntExpr)

end

deriving instance DecidableEq for BoolExpr, BoolTerm, BoolFactor

mutual

/-- Terms joined by `+`, their union. -/
inductive BitsExpr where
  | term (t : BitsTerm)
  | union (e : BitsExpr) (t : BitsTerm)

inductive BitsTerm where
  | set (positions : List IntExpr)
  | var (name : String)
  | group (e : BitsExpr)

end

deriving instance DecidableEq for BitsExpr, BitsTerm

mutual

/-- Terms joined by `+`, one after another. -/
inductive StrExpr where
  | term (t : StrTerm)
  | append (e : StrExpr) (t : StrTerm)

inductive StrTerm where
  | literal (s : String)
  | var (name : String)
  | group (e : StrExpr)
  | ofInt (e : IntExpr)
  | ofBool (e : BoolExpr)
  | ofBits (e : BitsExpr)

end

deriving instance DecidableEq for StrExpr, StrTerm

inductive Expr where
  | int (e : IntExpr)
  | bool (e : BoolExpr)
  | str (e : StrExpr)
  | bits (e : BitsExpr)
deriving DecidableEq

end ScriptedAgent.Script
