import ScriptedAgent.Conversion

/-!
# The store

The values of a device's variables, one for every declared name. The script reads and writes by
name; managers get, walk and set by identifier. A manager's set of a blocking variable does not
reach the store: `deliver` says so, and `set` is the case in which no script waits for it.
-/

namespace ScriptedAgent

inductive StoreError where
  | unknownOid (target : String)
  | typeMismatch (target : String) (source : ValueError)
  | unsupported (target : String)
  | notWritable (target : String)
  | closed (target : String)
deriving DecidableEq

def StoreError.message : StoreError → String
  | unknownOid t => "no object at " ++ t
  | typeMismatch t e => "wrong value for " ++ t ++ ": " ++ e.message
  | unsupported t => t ++ " cannot be set"
  | notWritable t => t ++ " is read-only"
  | closed t => "nothing is waiting for a value at " ++ t

structure Store where
  types : TypeTable
  slots : NameMap Value
deriving DecidableEq

namespace Store

/-- Every variable at its zero. -/
def load (types : TypeTable) : Store := ⟨types, types.vars.map VarType.zero⟩

/-! ## By name -/

def read? (s : Store) (name : String) : Option Value := s.slots.get? name

def put (s : Store) (name : String) (v : Value) : Store :=
  { s with slots := s.slots.insert name v }

/-- Replaces a variable's value by one its type admits. -/
def write (s : Store) (name : String) (v : Value) : Except StoreError Store :=
  match s.types.get? name with
  | none => .error (.unknownOid name)
  | some t => match t.check v with
    | .error e => .error (.typeMismatch name e)
    | .ok () => .ok (s.put name v)

/-- The block a variable holds. -/
def block (s : Store) (name : String) : Except StoreError (List UInt8) :=
  match s.read? name with
  | none => .error (.unknownOid name)
  | some (.block b) => .ok b
  | some v => .error (.typeMismatch name (.kindMismatch .bytes v.typeName))

def readField (s : Store) (name : String) (f : Field) : Except StoreError Nat :=
  match s.block name with
  | .error e => .error e
  | .ok b => match f.read b with
    | .error e => .error (.typeMismatch name e)
    | .ok v => .ok v

def writeField (s : Store) (name : String) (f : Field) (v : Nat) : Except StoreError Store :=
  match s.block name with
  | .error e => .error e
  | .ok b => match f.write b v with
    | .error e => .error (.typeMismatch name e)
    | .ok b => .ok (s.put name (.block b))

/-! ## By identifier -/

def varType? (s : Store) (oid : String) : Option VarType :=
  (s.types.nameForOid? oid).bind s.types.get?

def get? (s : Store) (oid : String) : Option Value := (s.types.nameForOid? oid).bind s.read?

def insertExport (e : Oid × String) : List (Oid × String) → List (Oid × String)
  | [] => [e]
  | d :: ds => if d.1 < e.1 then d :: insertExport e ds else e :: d :: ds

/-- The variable's entry in the walk, where its identifier is a well-formed one. -/
def export? (e : String × VarType) : Option (Oid × String) :=
  (e.2.oid.bind Oid.ofText?).map fun arcs => (arcs, e.1)

/-- The exported variables in order of their identifiers. -/
def exported (s : Store) : List (Oid × String) :=
  (s.types.vars.entries.filterMap export?).foldr insertExport []

def oids (s : Store) : List Oid := s.exported.map (·.1)

/-- The first exported object after `oid`, which need not name one itself. -/
def next? (s : Store) (oid : Oid) : Option (Oid × Value) :=
  (s.exported.filter fun e => oid < e.1).findSome? fun e => (s.read? e.2).map fun v => (e.1, v)

/-- Where a manager's value ends up. -/
inductive Delivery where
  | stored (store : Store)
  /-- Nowhere yet: it is for the script to take. -/
  | handover (name : String)

/-- Checks a manager's set: the object is known, it may be set, and it admits the value. -/
def deliver (s : Store) (oid : String) (v : Value) : Except StoreError Delivery :=
  match s.types.nameForOid? oid with
  | none => .error (.unknownOid oid)
  | some name => match s.types.get? name with
    | none => .error (.unknownOid oid)
    | some t =>
      if t.access = .readonly then .error (.notWritable oid)
      else if t.kind = .counter then .error (.unsupported oid)
      else match t.check v with
        | .error e => .error (.typeMismatch oid e)
        | .ok () => if t.access = .blocking then .ok (.handover name) else .ok (.stored (s.put name v))

/-- A manager's set while no script is there to take a value handed over. -/
def set (s : Store) (oid : String) (v : Value) : Except StoreError Store :=
  match s.deliver oid v with
  | .error e => .error e
  | .ok (.stored s') => .ok s'
  | .ok (.handover _) => .error (.closed oid)

/-! ## Several sets in order -/

/-- A set that waits for the script to take its value, and the sets that follow it. -/
structure Offer where
  name : String
  value : Value
  oid : String
  /-- How many sets went before it. -/
  index : Nat
  rest : List (String × Value)
deriving DecidableEq

/-- How far a list of sets has come. -/
inductive Progress where
  /-- To its end, or to the set with this number, which failed. -/
  | ended (store : Store) (failure : Option (Nat × StoreError))
  | waiting (store : Store) (offer : Offer)

/-- Applies sets, the first of them with number `i`, up to one that fails or waits. -/
def setAll (s : Store) (i : Nat) : List (String × Value) → Progress
  | [] => .ended s none
  | (oid, v) :: rest => match s.deliver oid v with
    | .error e => .ended s (some (i, e))
    | .ok (.stored s') => setAll s' (i + 1) rest
    | .ok (.handover name) => .waiting s ⟨name, v, oid, i, rest⟩

/-- What comes of the sets if nobody takes the value that waits. -/
def Progress.closed : Progress → Store × Option (Nat × StoreError)
  | ended s failure => (s, failure)
  | waiting s offer => (s, some (offer.index, .closed offer.oid))

end Store

end ScriptedAgent
