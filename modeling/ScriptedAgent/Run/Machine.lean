import ScriptedAgent.Run.Feed

/-!
# A running script

The state a script runs in, the errors that end a run, and the ways it reads and writes variables.
Kinds and layouts come from the types the script was read with, values from the store. Reading a
blocking variable takes the next value handed over for it and stores that before it is used.
-/

namespace ScriptedAgent

inductive RuntimeError where
  | divisionByZero
  | overflow
  | negativeSleep (n : Number)
  | bitPosition (n : Number)
  | fieldOverflow (name field : String) (value : Number) (size : Nat)
  | value (name : String) (source : ValueError)
  | store (name : String) (source : StoreError)
  | missing (name : String)
  | rendezvousClosed (name : String)
deriving DecidableEq

def RuntimeError.message : RuntimeError → String
  | divisionByZero => "division by zero"
  | overflow => "integer overflow"
  | negativeSleep n => "sleep duration must not be negative (got " ++ Number.text n ++ ")"
  | bitPosition n => "bit position " ++ Number.text n ++ " is out of range"
  | fieldOverflow x f v s =>
    "field `" ++ f ++ "` of `" ++ x ++ "`: value " ++ Number.text v ++ " does not fit in " ++
      toString s ++ " byte(s)"
  | value x e => "cannot convert value of `" ++ x ++ "`: " ++ e.message
  | store x e => "store rejected write to `" ++ x ++ "`: " ++ e.message
  | missing x => "variable `" ++ x ++ "` has no value in the store"
  | rendezvousClosed x => "rendezvous for `" ++ x ++ "` closed"

structure Machine where
  store : Store
  feed : Feed
  printed : Array String
  /-- The blocking variables that have been read so far. -/
  asked : Array String
  /-- The values handed over so far, with the variables they were for. -/
  received : Array (String × Value)
deriving DecidableEq

def Machine.start (s : Store) (f : Feed) : Machine := ⟨s, f, #[], #[], #[]⟩

abbrev Eval := ExceptT RuntimeError (StateM Machine)

namespace Eval

variable (T : TypeTable)

def isBlocking (name : String) : Bool := (T.get? name).any (·.access = .blocking)

def setStore (name : String) : Except StoreError Store → Eval Unit
  | .ok s => modify fun m => { m with store := s }
  | .error e => throw (.store name e)

/-- The value handed over for a blocking variable, which is stored. A value the store refuses is
taken all the same. -/
def takeHandover (name : String) : Eval (Option Value) := do
  if isBlocking T name then
    modify fun m => { m with asked := m.asked.push name }
    match (← get).feed.take? name with
    | none => throw (.rendezvousClosed name)
    | some (v, feed) =>
      modify fun m => { m with feed, received := m.received.push (name, v) }
      setStore name ((← get).store.write name v)
      return some v
  else return none

/-- The value of a variable as the script sees it. -/
def current (name : String) : Eval Value := do
  match ← takeHandover T name with
  | some v => return v
  | none => match (← get).store.read? name with
    | some v => return v
    | none => throw (.missing name)

def load (name : String) : Eval Scalar :=
  match T.kindOf? name with
  | none => throw (.missing name)
  | some k => do
    match (← current T name).toScalar k with
    | .ok s => return s
    | .error e => throw (.value name e)

def fieldDef (var field : String) : Eval Field :=
  match T.field? var field with
  | some f => return f
  | none => throw (.missing (var ++ ":" ++ field))

/-- The result of an operation, where there is one. -/
def checked : Option Number → Eval Number
  | some n => return n
  | none => throw .overflow

def loadField (var field : String) : Eval Number := do
  let _ ← takeHandover T var
  let f ← fieldDef T var field
  match (← get).store.readField var f with
  | .error e => throw (.store var e)
  | .ok v => checked (Number.ofInt? v)

def assignVar (name : String) (k : Kind) (s : Scalar) : Eval Unit :=
  match Value.ofScalar k s with
  | .error e => throw (.value name e)
  | .ok v => do setStore name ((← get).store.write name v)

def assignField (var : String) (f : Field) (n : Number) : Eval Unit := do
  if n.toInt < 0 then throw (.fieldOverflow var f.name n f.size)
  match (← get).store.writeField var f n.toInt.toNat with
  | .error (.typeMismatch _ (.fieldWidth _ _ _)) => throw (.fieldOverflow var f.name n f.size)
  | r => setStore var r

end Eval

end ScriptedAgent
