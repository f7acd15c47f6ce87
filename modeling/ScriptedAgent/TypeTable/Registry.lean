import ScriptedAgent.TypeTable

/-!
# Tables filled in place

The calls that fill a table, and a registry: the table as it is while declarations are read, with an
index of the identifiers that are taken beside the types. A call writes to it step by step, and one
that fails leaves what it has written so far.
-/

namespace ScriptedAgent

namespace TypeTable

/-- A variable to declare, or a number to name. -/
inductive Call where
  | declare (name : String) (t : VarType)
  | bindAlias (name : String) (n : Number)
deriving DecidableEq

def call (T : TypeTable) : Call → Except TableError TypeTable
  | .declare name t => T.declare name t
  | .bindAlias name n => T.bindAlias name n

/-- The table behind a call, which one that fails leaves as it was. -/
def after (T : TypeTable) (c : Call) : TypeTable :=
  match T.call c with
  | .ok T' => T'
  | .error _ => T

def afterAll (T : TypeTable) (calls : List Call) : TypeTable := calls.foldl after T

end TypeTable

structure Registry where
  vars : NameMap VarType
  aliases : NameMap Number
  /-- The names of the exported variables, by the text of their identifiers. -/
  holders : NameMap String
deriving DecidableEq

namespace Registry

abbrev Filling := ExceptT TableError (StateM Registry)

def empty : Registry := ⟨.empty, .empty, .empty⟩

/-- Enters a variable in the index, unless another one has the identifier. -/
def reserve (name oid : String) : Filling Unit := do
  match (← get).holders.get? oid with
  | some holder => throw (.oidTaken oid holder)
  | none => modify fun r => { r with holders := r.holders.insert oid name }

def declare (name : String) (t : VarType) : Filling Unit := do
  if (← get).vars.contains name then throw (.declaredTwice name)
  match t.oid with
  | some oid => reserve name oid
  | none => pure ()
  modify fun r => { r with vars := r.vars.insert name t }

/-- An alias that is bound again is written again. -/
def bindAlias (name : String) (n : Number) : Filling Unit := do
  match (← get).aliases.get? name with
  | some old => if old ≠ n then throw (.aliasTaken name old)
  | none => pure ()
  modify fun r => { r with aliases := r.aliases.insert name n }

def call : TypeTable.Call → Filling Unit
  | .declare name t => declare name t
  | .bindAlias name n => bindAlias name n

/-- The registry behind a call, as far as the call has come. -/
def after (r : Registry) (c : TypeTable.Call) : Registry := (call c r).2

def afterAll (r : Registry) (calls : List TypeTable.Call) : Registry := calls.foldl after r

end Registry

end ScriptedAgent
