import ScriptedAgent.Octets

/-!
# Layouts of composite blocks

A `bytes` variable is a block of octets with named fields in it. A layout is the fields in order of
their offsets; `ofFields?` accepts a list of fields in any order and names the first fault it finds:
going up the offsets, a bad width, an end past the largest block, a name used before, or an overlap
with the field just below.
-/

namespace ScriptedAgent

structure Field where
  name : String
  offset : Nat
  size : Nat
deriving DecidableEq

/-- The first octet after the field. -/
def Field.stop (f : Field) : Nat := f.offset + f.size

inductive LayoutFault where
  | noFields
  | badSize (field : Field)
  | pastEnd (field : Field)
  | duplicate (field : Field)
  | overlap (field below : Field)
deriving DecidableEq

namespace LayoutFault

def message : LayoutFault → String
  | noFields => "composite block needs at least one field"
  | badSize f =>
    "field `" ++ f.name ++ "` has size " ++ toString f.size ++ "; sizes must be 1 to 8 bytes"
  | pastEnd f =>
    "field `" ++ f.name ++ "` ends past byte " ++ toString Octets.maxSize ++
      ", the largest block an OCTET STRING can carry"
  | duplicate f => "duplicate field `" ++ f.name ++ "`"
  | overlap f b => "field `" ++ f.name ++ "` overlaps field `" ++ b.name ++ "`"

end LayoutFault

namespace Layout

def insertField (f : Field) : List Field → List Field
  | [] => [f]
  | g :: gs => if f.offset ≤ g.offset then f :: g :: gs else g :: insertField f gs

/-- The fields by offset, those of one offset in the order given. -/
def sorted (fields : List Field) : List Field := fields.foldr insertField []

/-- A field's fault, after the fields `below` it, the nearest first. -/
def fieldFault? (below : List Field) (f : Field) : Option LayoutFault :=
  if f.size < 1 ∨ 8 < f.size then some (.badSize f)
  else if Octets.maxSize < f.stop then some (.pastEnd f)
  else if below.any (·.name == f.name) then some (.duplicate f)
  else match below with
    | [] => none
    | b :: _ => if f.offset < b.stop then some (.overlap f b) else none

def faultFrom? (below : List Field) : List Field → Option LayoutFault
  | [] => none
  | f :: fs => match fieldFault? below f with
    | some e => some e
    | none => faultFrom? (f :: below) fs

/-- The first fault of fields in order of their offsets. -/
def fault? : List Field → Option LayoutFault
  | [] => some .noFields
  | fs => faultFrom? [] fs

end Layout

structure Layout where
  fields : List Field
  sound : Layout.fault? fields = none
deriving DecidableEq

namespace Layout

def ofFields? (fields : List Field) : Except LayoutFault Layout :=
  match h : fault? (sorted fields) with
  | none => .ok ⟨sorted fields, h⟩
  | some e => .error e

def field? (l : Layout) (name : String) : Option Field := l.fields.find? (·.name == name)

/-- The size of a block: where its last field stops. -/
def size (l : Layout) : Nat := (l.fields.map Field.stop).foldl max 0

end Layout

end ScriptedAgent
