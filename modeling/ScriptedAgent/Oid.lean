import ScriptedAgent.Text.Decimal
import ScriptedAgent.Text.Fields

/-!
# Object identifiers

An identifier is its arcs, 32-bit numbers, ordered lexicographically. Its text puts a point before
each arc; a text is read with or without the first point, and names an object only where it has at
least two arcs and the first is 0, 1 or 2.
-/

namespace ScriptedAgent

abbrev Oid := List UInt32

namespace Oid

def arc? (cs : List Char) : Option UInt32 :=
  (Decimal.unsigned? cs).bind fun n => if n < 0x100000000 then some (UInt32.ofNat n) else none

/-- Every field read as an arc. -/
def arcs? : List (List Char) → Option Oid
  | [] => some []
  | f :: fs => do
    let a ← arc? f
    let rest ← arcs? fs
    return a :: rest

/-- The text without its first point. -/
def body : List Char → List Char
  | '.' :: cs => cs
  | cs => cs

def ofText? (s : String) : Option Oid :=
  match arcs? (Text.fields '.' (body s.toList)) with
  | some (a :: b :: rest) => if a ≤ 2 then some (a :: b :: rest) else none
  | _ => none

def chars (arcs : Oid) : List Char := arcs.flatMap fun a => '.' :: Decimal.digits a.toNat

def text (arcs : Oid) : String := String.ofList arcs.chars

/-- The text of mib-2, which relative identifiers belong below by default. -/
def mib2 : String := ".1.3.6.1.2.1"

end Oid

end ScriptedAgent
