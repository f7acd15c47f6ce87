import ScriptedAgent.Bitset
import ScriptedAgent.Ipv4
import ScriptedAgent.Kind
import ScriptedAgent.Number
import ScriptedAgent.Text.Quoted

/-!
# Values

A `Value` is what a variable of the device holds, a `Scalar` what an expression of the script comes
to. A boolean is held as the TruthValue integer: 1 for true, 2 for false.
-/

namespace ScriptedAgent

inductive Value where
  | integer (n : Number)
  | string (s : String)
  | counter (n : UInt32)
  | gauge (n : UInt32)
  | timeticks (n : UInt32)
  /-- The text of an identifier. -/
  | oid (text : String)
  | ipaddress (a : Ipv4)
  | bits (s : Bitset)
  /-- A composite block. -/
  | block (bytes : List UInt8)
deriving DecidableEq

namespace Value

def typeName : Value → String
  | integer _ => "integer"
  | string _ => "string"
  | counter _ => "counter"
  | gauge _ => "gauge"
  | timeticks _ => "timeticks"
  | oid _ => "oid"
  | ipaddress _ => "ipaddress"
  | bits _ => "bitset"
  | block _ => "bytes"

/-- How a value is shown. -/
def text : Value → String
  | integer n => Number.text n
  | string s => Text.quoted s
  | counter n | gauge n | timeticks n => toString n.toNat
  | oid t => t
  | ipaddress a => a.text
  | bits s => s.text
  | block bytes => Octets.text bytes

end Value

inductive Scalar where
  | int (n : Number)
  | bool (b : Bool)
  | str (s : String)
  | bits (s : Bitset)
deriving DecidableEq

def Scalar.typeName : Scalar → String
  | int _ => "integer"
  | bool _ => "boolean"
  | str _ => "string"
  | bits _ => "bitset"

/-- Why a value does not do where it is offered. -/
inductive ValueError where
  | outOfRange (kind : Kind) (value : Number)
  | malformed (kind : Kind) (text : String)
  | wrongSize (expected got : Nat)
  | fieldWidth (field : String) (size value : Nat)
  | kindMismatch (kind : Kind) (found : String)
deriving DecidableEq

def ValueError.message : ValueError → String
  | outOfRange k n => Number.text n ++ " is out of range for " ++ k.keyword
  | malformed k t => "malformed " ++ k.keyword ++ " value " ++ Text.quoted t
  | wrongSize e g => "expected " ++ toString e ++ " byte(s), got " ++ toString g
  | fieldWidth f s v =>
    "field `" ++ f ++ "` is " ++ toString s ++ " byte(s) wide; " ++ toString v ++ " does not fit"
  | kindMismatch k f => k.keyword ++ " cannot hold a " ++ f ++ " value"

end ScriptedAgent
