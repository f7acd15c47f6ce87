import ScriptedAgent.Script.Expr.Reader
import ScriptedAgent.Script.Stmt

/-!
# Statements from tokens

A block goes on to the keyword that closes it, which it leaves in place. The kind declared for the
target of an assignment decides which expression stands on its right.
-/

namespace ScriptedAgent.Script

open Parse

variable (T : TypeTable)

/-- The keywords that no statement begins with and a block ends at. -/
def closesBlock : Token → Bool
  | .keyword .endrun | .keyword .endloop | .keyword .endif | .keyword .else | .keyword .elseif =>
    true
  | _ => false

/-- The right side of an assignment to a variable with this grammar. -/
def assigned (n : Nat) (name : String) : Grammar → Parse Expr
  | .int => return .int (← intExpr T n)
  | .bool => return .bool (← boolExpr T n)
  | .str => return .str (← strExpr T n)
  | .bits => return .bits (← bitsExpr T n)
  | .fields => error (.wholeComposite name)

def assignment (n : Nat) : Parse Stmt := step do
  let name ← expectIdent "assignment target"
  match T.kindOf? name with
  | none => error (.undeclaredTarget name)
  | some k =>
    if ← accept (.symbol .colon) then
      let field ← fieldOf T name
      expect (.symbol .equal) "assignment"
      let e ← intExpr T n
      expect .newline "assignment"
      return .assign (.field name field) (.int e)
    else
      expect (.symbol .equal) "assignment"
      let e ← assigned T n name k.grammar
      expect .newline "assignment"
      return .assign (.var name) e

/-- A sleep behind its keyword. -/
def sleep (n : Nat) : Parse Stmt := step do
  let e ← intExpr T n
  let unit ← match ← next with
    | .keyword .secs => pure TimeUnit.secs
    | .keyword .msecs => pure TimeUnit.msecs
    | t => error (.expected "`secs` or `msecs` in sleep statement" t)
  expect .newline "sleep statement"
  return .sleep e unit

/-- How often a loop turns, behind its keyword. -/
def loopControl (n : Nat) : Parse LoopControl := do
  match ← peek with
  | .newline => return .forever
  | .keyword .times =>
    let _ ← next
    let e ← intExpr T n
    return .times e
  | _ =>
    let e ← boolExpr T n
    return .while e

mutual

def block : Nat → Parse (List Stmt)
  | 0 => throw .exhausted
  | n + 1 => step do
    let t ← peek
    if closesBlock t then return []
    else if t = .eof then error .endInBlock
    else
      let s ← statement n
      let ss ← block n
      return s :: ss

def statement : Nat → Parse Stmt
  | 0 => throw .exhausted
  | n + 1 => step do
    match ← peek with
    | .ident _ => assignment T n
    | .keyword .if =>
      let _ ← next
      branch n
    | .keyword .loop =>
      let _ ← next
      loop n
    | .keyword .print =>
      let _ ← next
      let e ← strExpr T n
      expect .newline "print statement"
      return .print e
    | .keyword .sleep =>
      let _ ← next
      sleep T n
    | .keyword .exit =>
      let _ ← next
      expect .newline "exit statement"
      return .exit
    | t =>
      let _ ← next
      error (.expected "a statement" t)

/-- A branch behind its keyword. -/
def branch : Nat → Parse Stmt
  | 0 => throw .exhausted
  | n + 1 => step do
    let cond ← boolExpr T n
    expect .newline "if statement"
    let body ← block n
    let rest ← branches n
    expect .newline "if statement"
    return .branch cond body rest

def branches : Nat → Parse Branches
  | 0 => throw .exhausted
  | n + 1 => step do
    match ← next with
    | .keyword .elseif =>
      let cond ← boolExpr T n
      expect .newline "elseif"
      let body ← block n
      let rest ← branches n
      return .elseif cond body rest
    | .keyword .else =>
      expect .newline "else"
      let body ← block n
      expect (.keyword .endif) "if statement"
      return .otherwise body
    | .keyword .endif => return .otherwise []
    | t => error (.expected "`elseif`, `else` or `endif`" t)

/-- A loop behind its keyword. -/
def loop : Nat → Parse Stmt
  | 0 => throw .exhausted
  | n + 1 => step do
    let control ← loopControl T n
    expect .newline "loop"
    let body ← block n
    expect (.keyword .endloop) "loop"
    expect .newline "loop"
    return .loop control body

end

end ScriptedAgent.Script
