import ScriptedAgent.Script.Expr.Printer
import ScriptedAgent.Script.Stmt
import ScriptedAgent.Script.Token.Printer

/-!
# Statements as lines

A block of statements is lines of tokens: one to a simple statement, and one to each keyword line
of a branch or a loop, around the lines of its blocks. A branch without an `else` and one with an
empty `else` are the same statement; it is written without.
-/

namespace ScriptedAgent.Script

def Target.tokens : Target → List Token
  | var x => [.ident x]
  | field x f => [.ident x, .symbol .colon, .ident f]

def TimeUnit.keyword : TimeUnit → Keyword
  | secs => .secs
  | msecs => .msecs

def LoopControl.tokens : LoopControl → List Token
  | forever => []
  | times e => .keyword .times :: e.tokens
  | «while» e => e.tokens

mutual

def Stmt.lines : Stmt → List (List Token)
  | .assign target e => [target.tokens ++ .symbol .equal :: e.tokens]
  | .print e => [.keyword .print :: e.tokens]
  | .sleep e unit => [.keyword .sleep :: e.tokens ++ [.keyword unit.keyword]]
  | .exit => [[.keyword .exit]]
  | .branch cond body rest =>
    (.keyword .if :: cond.tokens) :: blockLines body ++ rest.lines
  | .loop control body =>
    (.keyword .loop :: control.tokens) :: blockLines body ++ [[.keyword .endloop]]

def Branches.lines : Branches → List (List Token)
  | .otherwise [] => [[.keyword .endif]]
  | .otherwise (s :: ss) => [.keyword .else] :: blockLines (s :: ss) ++ [[.keyword .endif]]
  | .elseif cond body rest => (.keyword .elseif :: cond.tokens) :: blockLines body ++ rest.lines

def blockLines : List Stmt → List (List Token)
  | [] => []
  | s :: ss => s.lines ++ blockLines ss

end

/-- The text of lines of tokens, each ended by a line break. -/
def linesText (lines : List (List Token)) : String :=
  String.ofList (lines.flatMap fun ts => lineChars ts ++ ['\n'])

/-- The `run` block of a script. -/
def runText (body : List Stmt) : String :=
  linesText ([.keyword .run] :: blockLines body ++ [[.keyword .endrun]])

def LoopControl.Expressible : LoopControl → Prop
  | forever => True
  | times e => e.Expressible
  | «while» e => e.Expressible

mutual

def Stmt.Expressible : Stmt → Prop
  | .assign _ e => e.Expressible
  | .print e => e.Expressible
  | .sleep e _ => e.Expressible
  | .exit => True
  | .branch cond body rest => cond.Expressible ∧ BlockExpressible body ∧ rest.Expressible
  | .loop control body => control.Expressible ∧ BlockExpressible body

def Branches.Expressible : Branches → Prop
  | .otherwise body => BlockExpressible body
  | .elseif cond body rest => cond.Expressible ∧ BlockExpressible body ∧ rest.Expressible

def BlockExpressible : List Stmt → Prop
  | [] => True
  | s :: ss => s.Expressible ∧ BlockExpressible ss

end

end ScriptedAgent.Script
