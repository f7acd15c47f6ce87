import ScriptedAgent.Kind
import ScriptedAgent.Script.Stmt

/-!
# Where a script names its variables

The mentions of a block are the places in it, at any depth, that name a variable: the operands that
are read and the targets that are assigned.
-/

namespace ScriptedAgent.Script

inductive Mention where
  /-- A variable as an operand in an expression of some grammar. -/
  | read (grammar : Grammar) (name : String)
  /-- A field of a variable as an operand in an integer expression. -/
  | readField (name field : String)
  | assign (target : Target) (value : Expr)
deriving DecidableEq

namespace Mention

def name : Mention → String
  | read _ x => x
  | readField x _ => x
  | assign t _ => t.name

/-- The variable that is read here. -/
def source? : Mention → Option String
  | read _ x => some x
  | readField x _ => some x
  | assign _ _ => none

/-- What is assigned here. -/
def target? : Mention → Option Target
  | assign t _ => some t
  | _ => none

end Mention

/-- The variables that are read, whole or by a field. -/
def sources (ms : List Mention) : List String := ms.filterMap Mention.source?

def targets (ms : List Mention) : List Target := ms.filterMap Mention.target?

mutual

def IntExpr.mentions : IntExpr → List Mention
  | .term t => t.mentions
  | .add e t => e.mentions ++ t.mentions
  | .sub e t => e.mentions ++ t.mentions

def IntTerm.mentions : IntTerm → List Mention
  | .factor f => f.mentions
  | .mul t f => t.mentions ++ f.mentions
  | .div t f => t.mentions ++ f.mentions

def IntFactor.mentions : IntFactor → List Mention
  | .const _ => []
  | .var x => [.read .int x]
  | .field x f => [.readField x f]
  | .neg f => f.mentions
  | .group e => e.mentions

end

mutual

def BoolExpr.mentions : BoolExpr → List Mention
  | .term t => t.mentions
  | .or e t => e.mentions ++ t.mentions

def BoolTerm.mentions : BoolTerm → List Mention
  | .factor f => f.mentions
  | .and t f => t.mentions ++ f.mentions

def BoolFactor.mentions : BoolFactor → List Mention
  | .const _ => []
  | .var x => [.read .bool x]
  | .not f => f.mentions
  | .group e => e.mentions
  | .compare _ l r => l.mentions ++ r.mentions

end

mutual

def BitsExpr.mentions : BitsExpr → List Mention
  | .term t => t.mentions
  | .union e t => e.mentions ++ t.mentions

def BitsTerm.mentions : BitsTerm → List Mention
  | .set es => es.flatMap IntExpr.mentions
  | .var x => [.read .bits x]
  | .group e => e.mentions

end

mutual

def StrExpr.mentions : StrExpr → List Mention
  | .term t => t.mentions
  | .append e t => e.mentions ++ t.mentions

def StrTerm.mentions : StrTerm → List Mention
  | .literal _ => []
  | .var x => [.read .str x]
  | .group e => e.mentions
  | .ofInt e => e.mentions
  | .ofBool e => e.mentions
  | .ofBits e => e.mentions

end

def Expr.mentions : Expr → List Mention
  | int e => e.mentions
  | bool e => e.mentions
  | str e => e.mentions
  | bits e => e.mentions

def LoopControl.mentions : LoopControl → List Mention
  | forever => []
  | times e => e.mentions
  | «while» e => e.mentions

mutual

def Stmt.mentions : Stmt → List Mention
  | .assign t e => .assign t e :: e.mentions
  | .print e => e.mentions
  | .sleep e _ => e.mentions
  | .exit => []
  | .branch cond body rest => cond.mentions ++ blockMentions body ++ rest.mentions
  | .loop control body => control.mentions ++ blockMentions body

def Branches.mentions : Branches → List Mention
  | .otherwise body => blockMentions body
  | .elseif cond body rest => cond.mentions ++ blockMentions body ++ rest.mentions

def blockMentions : List Stmt → List Mention
  | [] => []
  | s :: ss => s.mentions ++ blockMentions ss

end

/-- The variables that a block reads. -/
def blockReads (body : List Stmt) : List String := sources (blockMentions body)

/-- What a block assigns. -/
def blockTargets (body : List Stmt) : List Target := targets (blockMentions body)

end ScriptedAgent.Script
