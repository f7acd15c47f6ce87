import ScriptedAgent.Script.Expr

/-!
# Statements

A block of statements is a list of them. A branch has at least one arm with a condition.
-/

namespace ScriptedAgent.Script

/-- What an assignment changes. -/
inductive Target where
  | var (name : String)
  | field (var field : String)
deriving DecidableEq

def Target.name : Target → String
  | var x => x
  | field x _ => x

inductive TimeUnit where
  | secs | msecs
deriving DecidableEq

/-- How often a loop turns. -/
inductive LoopControl where
  /-- Until the script exits. -/
  | forever
  /-- A count, found once. -/
  | times (count : IntExpr)
  /-- As long as a condition holds, asked before every turn. -/
  | while (cond : BoolExpr)
deriving DecidableEq

mutual

inductive Stmt where
  | assign (target : Target) (value : Expr)
  | print (text : StrExpr)
  | sleep (duration : IntExpr) (unit : TimeUnit)
  | exit
  | branch (cond : BoolExpr) (body : List Stmt) (rest : Branches)
  | loop (control : LoopControl) (body : List Stmt)

/-- What follows the first arm of a branch. -/
inductive Branches where
  /-- No further condition. Without an `else` the body is empty. -/
  | otherwise (body : List Stmt)
  | elseif (cond : BoolExpr) (body : List Stmt) (rest : Branches)

end

end ScriptedAgent.Script
