import ScriptedAgent.Conversion
import ScriptedAgent.Text.Utf8
import ScriptedAgent.Wire.Message

/-!
# Values on the wire

How the value of a variable is written in a binding, and how a binding is read as a value of a
declared type.
-/

namespace ScriptedAgent.Value

def toWire : Value → WireValue
  | integer n => .integer n
  | string s => .octets (Text.utf8 s)
  | counter n => .counter n
  | gauge n => .gauge n
  | timeticks n => .timeticks n
  | oid t => .oid ((Oid.ofText? t).getD [0, 0])
  | ipaddress a => .ipaddress a
  | bits s => .octets s.octets
  | block bytes => .octets bytes

/-- A binding read by the kind alone. -/
def ofWireKind (k : Kind) (w : WireValue) : Except ValueError Value :=
  match k, w with
  | .integer, .integer n | .boolean, .integer n => .ok (integer n)
  | .counter, .counter n => .ok (counter n)
  | .gauge, .gauge n => .ok (gauge n)
  | .timeticks, .timeticks n => .ok (timeticks n)
  | .string, .octets bytes => match Text.ofUtf8? bytes with
    | some s => .ok (string s)
    | none => .error (.malformed .string (Text.repaired bytes))
  | .oid, .oid arcs => .ok (oid arcs.text)
  | .ipaddress, .ipaddress a => .ok (ipaddress a)
  | .bitset, .octets bytes => .ok (bits (.ofOctets bytes))
  | .bytes, .octets bytes => .ok (block bytes)
  | k, w => .error (.kindMismatch k w.typeName)

/-- A binding read as a value that the type admits. -/
def ofWire (t : VarType) (w : WireValue) : Except ValueError Value :=
  match ofWireKind t.kind w with
  | .error e => .error e
  | .ok v => match t.check v with
    | .error e => .error e
    | .ok () => .ok v

end ScriptedAgent.Value
