import ScriptedAgent.Block
import ScriptedAgent.TypeTable

/-!
# Values and the kinds that hold them

What a fresh variable holds, which values a declared type admits (`VarType.check`), and the way
between what a variable holds and what an expression computes with.
-/

namespace ScriptedAgent

/-- Whether a number is a 32-bit signed one. -/
def Number.isInt32 (n : Number) : Bool := -0x80000000 ≤ n.toInt ∧ n.toInt < 0x80000000

/-- The number as a 32-bit unsigned one. -/
def Number.toUInt32? (n : Number) : Option UInt32 :=
  if 0 ≤ n.toInt ∧ n.toInt < 0x100000000 then some (UInt32.ofNat n.toInt.toNat) else none

/-- The TruthValue of a boolean. -/
def truthValue (b : Bool) : Number := if b then 1 else 2

def ofTruthValue? (n : Number) : Option Bool :=
  if n = 1 then some true else if n = 2 then some false else none

namespace VarType

/-- What a variable holds before anything is written to it. -/
def zero (t : VarType) : Value :=
  match t.kind with
  | .integer => .integer 0
  | .boolean => .integer (truthValue false)
  | .string => .string ""
  | .counter => .counter 0
  | .gauge => .gauge 0
  | .timeticks => .timeticks 0
  | .oid => .oid ".0.0"
  | .ipaddress => .ipaddress .unspecified
  | .bitset => .bits .empty
  | .bytes => .block (List.replicate t.blockSize 0)

/-- Whether a variable of this type may hold the value. -/
def check (t : VarType) (v : Value) : Except ValueError Unit :=
  match t.kind, v with
  | .integer, .integer n => if Number.isInt32 n then .ok () else .error (.outOfRange .integer n)
  | .boolean, .integer n =>
    if (ofTruthValue? n).isSome then .ok () else .error (.outOfRange .boolean n)
  | .string, .string _ | .counter, .counter _ | .gauge, .gauge _ | .timeticks, .timeticks _
  | .ipaddress, .ipaddress _ | .bitset, .bits _ => .ok ()
  | .oid, .oid s => if (Oid.ofText? s).isSome then .ok () else .error (.malformed .oid s)
  | .bytes, .block b =>
    if b.length = t.blockSize then .ok () else .error (.wrongSize t.blockSize b.length)
  | k, v => .error (.kindMismatch k v.typeName)

end VarType

namespace Value

def ofUnsigned (k : Kind) (make : UInt32 → Value) (n : Number) : Except ValueError Value :=
  match Number.toUInt32? n with
  | some u => .ok (make u)
  | none => .error (.outOfRange k n)

/-- What a variable of kind `k` holds once assigned what an expression came to. -/
def ofScalar (k : Kind) (s : Scalar) : Except ValueError Value :=
  match k, s with
  | .integer, .int n =>
    if Number.isInt32 n then .ok (.integer n) else .error (.outOfRange .integer n)
  | .counter, .int n => ofUnsigned .counter .counter n
  | .gauge, .int n => ofUnsigned .gauge .gauge n
  | .timeticks, .int n => ofUnsigned .timeticks .timeticks n
  | .boolean, .bool b => .ok (.integer (truthValue b))
  | .string, .str s => .ok (.string s)
  | .oid, .str s => match Oid.ofText? s with
    | some arcs => .ok (.oid arcs.text)
    | none => .error (.malformed .oid s)
  | .ipaddress, .str s => match Ipv4.ofText? s with
    | some a => .ok (.ipaddress a)
    | none => .error (.malformed .ipaddress s)
  | .bitset, .bits b => .ok (.bits b)
  | k, s => .error (.kindMismatch k s.typeName)

/-- A value held by a variable of kind `k`, as an expression reads it. -/
def toScalar (k : Kind) (v : Value) : Except ValueError Scalar :=
  match k, v with
  | .boolean, .integer n => match ofTruthValue? n with
    | some b => .ok (.bool b)
    | none => .error (.outOfRange .boolean n)
  | .integer, .integer n => .ok (.int n)
  | .counter, .counter n | .gauge, .gauge n | .timeticks, .timeticks n =>
    .ok (.int (Int64.ofNat n.toNat))
  | .string, .string s | .oid, .oid s => .ok (.str s)
  | .ipaddress, .ipaddress a => .ok (.str a.text)
  | .bitset, .bits b => .ok (.bits b)
  | k, v => .error (.kindMismatch k v.typeName)

end Value

end ScriptedAgent
