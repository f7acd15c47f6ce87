import ScriptedAgent.Run.Eval
import ScriptedAgent.Script.Program

/-!
# Execution of statements

A statement goes on to the next one, exits the script, or fails; in each case it leaves a machine.
`fuel` bounds the turns of every loop that is not counted: with too little of it an execution has no
outcome at all, and more of it never changes one.
-/

namespace ScriptedAgent.Script

inductive Flow where
  | proceed | exited
deriving DecidableEq

abbrev Outcome := Except RuntimeError Flow × Machine

/-- The outcome of a step of evaluation after which the script goes on. -/
def settled (p : Eval Unit) (m : Machine) : Outcome :=
  match p m with
  | (.ok (), m) => (.ok .proceed, m)
  | (.error e, m) => (.error e, m)

/-- Goes on with `next` where the first part has not ended the script. -/
def Outcome.andThen (next : Machine → Option Outcome) : Outcome → Option Outcome
  | (.ok .proceed, m) => next m
  | o => some o

section Loops

variable (turn : Machine → Option Outcome)

def forever : Nat → Machine → Option Outcome
  | 0, _ => none
  | n + 1, m => match turn m with
    | some (.ok .proceed, m) => forever n m
    | r => r

def repeated : Nat → Machine → Option Outcome
  | 0, m => some (.ok .proceed, m)
  | n + 1, m => match turn m with
    | some (.ok .proceed, m) => repeated n m
    | r => r

def whileHolds (cond : Eval Bool) : Nat → Machine → Option Outcome
  | 0, _ => none
  | n + 1, m => match cond m with
    | (.error e, m) => some (.error e, m)
    | (.ok false, m) => some (.ok .proceed, m)
    | (.ok true, m) => match turn m with
      | some (.ok .proceed, m) => whileHolds cond n m
      | r => r

end Loops

variable (T : TypeTable)

def assign : Target → Expr → Eval Unit
  | .var x, e => match T.kindOf? x with
    | none => throw (.missing x)
    | some k => do Eval.assignVar x k (← e.eval T)
  | .field x f, .int e => do
    if (T.kindOf? x).isNone then throw (.missing x)
    let n ← e.eval T
    Eval.assignField x (← Eval.fieldDef T x f) n
  | .field x _, _ =>
    if (T.kindOf? x).isNone then throw (.missing x)
    else throw (.value x (.kindMismatch .bytes "non-integer"))

def print (e : StrExpr) : Eval Unit := do
  let line ← e.eval T
  modify fun m => { m with printed := m.printed.push line }

/-- Time does not pass here: a sleep only has to be possible. -/
def pause (e : IntExpr) : Eval Unit := do
  let n ← e.eval T
  if n.toInt < 0 then throw (.negativeSleep n)

variable (fuel : Nat)

mutual

def Stmt.exec : Stmt → Machine → Option Outcome
  | .assign t e, m => some (settled (assign T t e) m)
  | .print e, m => some (settled (print T e) m)
  | .sleep e _, m => some (settled (pause T e) m)
  | .exit, m => some (.ok .exited, m)
  | .branch cond body rest, m => match cond.eval T m with
    | (.error e, m) => some (.error e, m)
    | (.ok true, m) => execBlock body m
    | (.ok false, m) => rest.exec m
  | .loop .forever body, m => forever (execBlock body) fuel m
  | .loop (.times count) body, m => match count.eval T m with
    | (.error e, m) => some (.error e, m)
    | (.ok n, m) => repeated (execBlock body) n.toInt.toNat m
  | .loop (.while cond) body, m => whileHolds (execBlock body) (cond.eval T) fuel m

def Branches.exec : Branches → Machine → Option Outcome
  | .otherwise body, m => execBlock body m
  | .elseif cond body rest, m => match cond.eval T m with
    | (.error e, m) => some (.error e, m)
    | (.ok true, m) => execBlock body m
    | (.ok false, m) => rest.exec m

def execBlock : List Stmt → Machine → Option Outcome
  | [], m => some (.ok .proceed, m)
  | s :: ss, m => (s.exec m).bind (Outcome.andThen (execBlock ss))

end

/-- Runs a program to its end, to an exit or to an error. -/
def Program.run (p : Program) (fuel : Nat) (m : Machine) :
    Option (Except RuntimeError Unit × Machine) :=
  (execBlock p.types fuel p.body m).map fun (r, m) => (r.map fun _ => (), m)

/-! ## Statement by statement -/

/-- What one statement did. -/
structure TraceEntry where
  /-- The variables whose values it changed, with their new values. -/
  changed : List (String × Value)
  /-- The lines printed up to its end. -/
  printed : Nat
  exited : Bool
  fault : Option RuntimeError

def TraceEntry.of (before : Machine) : Outcome → TraceEntry
  | (r, m) =>
    { changed := m.store.slots.entries.filter fun e => before.store.read? e.1 ≠ some e.2
      printed := m.printed.size
      exited := match r with
        | .ok .exited => true
        | _ => false
      fault := match r with
        | .error e => some e
        | .ok _ => none }

/-- Executes statements one at a time up to an exit and, unless `onward`, up to an error. -/
def trace (onward : Bool) : List Stmt → Machine → Option (List TraceEntry × Outcome)
  | [], m => some ([], (.ok .proceed, m))
  | s :: ss, m => do
    let o ← s.exec T fuel m
    let entry := TraceEntry.of m o
    if entry.exited || (entry.fault.isSome && !onward) then return ([entry], o)
    let (entries, last) ← trace onward ss o.2
    return (entry :: entries, last)

end ScriptedAgent.Script
