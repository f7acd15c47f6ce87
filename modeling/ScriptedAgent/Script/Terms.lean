import ScriptedAgent.Script.Stmt

/-!
# Trees as lists of their parts

A sum is its terms from left to right, each with the sign it is added with, and a product its
factors. The other operators are of one sort, so that the operands are enough. A branch is its arms.
-/

namespace ScriptedAgent.Script

inductive AddOp where
  | plus | minus
deriving DecidableEq

inductive MulOp where
  | times | divide
deriving DecidableEq

def IntExpr.terms : IntExpr → List (AddOp × IntTerm)
  | .term t => [(.plus, t)]
  | .add e t => e.terms ++ [(.plus, t)]
  | .sub e t => e.terms ++ [(.minus, t)]

def IntTerm.factors : IntTerm → List (MulOp × IntFactor)
  | .factor f => [(.times, f)]
  | .mul t f => t.factors ++ [(.times, f)]
  | .div t f => t.factors ++ [(.divide, f)]

def BoolExpr.terms : BoolExpr → List BoolTerm
  | .term t => [t]
  | .or e t => e.terms ++ [t]

def BoolTerm.factors : BoolTerm → List BoolFactor
  | .factor f => [f]
  | .and t f => t.factors ++ [f]

def BitsExpr.terms : BitsExpr → List BitsTerm
  | .term t => [t]
  | .union e t => e.terms ++ [t]

def StrExpr.terms : StrExpr → List StrTerm
  | .term t => [t]
  | .append e t => e.terms ++ [t]

/-- The arms after the first, each with its condition. -/
def Branches.arms : Branches → List (BoolExpr × List Stmt)
  | .otherwise _ => []
  | .elseif cond body rest => (cond, body) :: rest.arms

/-- The arms of a branch. Other statements have none. -/
def Stmt.arms : Stmt → List (BoolExpr × List Stmt)
  | .branch cond body rest => (cond, body) :: rest.arms
  | _ => []

end ScriptedAgent.Script
