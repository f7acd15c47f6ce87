import ScriptedAgent.Layout
import ScriptedAgent.NameMap
import ScriptedAgent.Value

/-!
# Composite blocks

Reading and writing the fields of a block. A field holds an unsigned number, least significant
octet first; a write that does not fit leaves no block behind, and one that does changes the field's
own octets only.
-/

namespace ScriptedAgent

namespace Field

/-- The block with the field holding `v`. -/
def write (f : Field) (block : List UInt8) (v : Nat) : Except ValueError (List UInt8) :=
  if Octets.bound f.size ≤ v then .error (.fieldWidth f.name f.size v)
  else if block.length < f.stop then .error (.wrongSize f.stop block.length)
  else .ok (block.take f.offset ++ Octets.littleEndian f.size v ++ block.drop f.stop)

def read (f : Field) (block : List UInt8) : Except ValueError Nat :=
  if block.length < f.stop then .error (.wrongSize f.stop block.length)
  else .ok (Octets.ofLittleEndian ((block.drop f.offset).take f.size))

/-- The unsigned number in a field of a block. -/
def value (f : Field) (block : List UInt8) : Nat :=
  Octets.ofLittleEndian ((block.drop f.offset).take f.size)

end Field

namespace Layout

def writeFields (values : NameMap Nat) : List Field → List UInt8 → Except ValueError (List UInt8)
  | [], block => .ok block
  | f :: fs, block => match values.get? f.name with
    | none => writeFields values fs block
    | some v => do writeFields values fs (← f.write block v)

/-- A block of the given values; the other fields, and the octets outside all fields, are zero. -/
def pack (l : Layout) (values : NameMap Nat) : Except ValueError (List UInt8) :=
  writeFields values l.fields (List.replicate l.size 0)

def readFields (block : List UInt8) : List Field → NameMap Nat → Except ValueError (NameMap Nat)
  | [], values => .ok values
  | f :: fs, values => do
    let v ← f.read block
    readFields block fs (values.insert f.name v)

/-- The values of all fields of a block, which must have exactly the layout's size. -/
def unpack (l : Layout) (block : List UInt8) : Except ValueError (NameMap Nat) :=
  if block.length = l.size then readFields block l.fields .empty
  else .error (.wrongSize l.size block.length)

end Layout

end ScriptedAgent
