import ScriptedAgent.Store
import ScriptedAgent.Text.Blank

/-!
# Initial values

An initializer `name=text` gives a variable a value before the script runs. How its text is read
depends on the kind of the variable: a number or an alias in single quotes; `true` or `false`; a
string, between double quotes or without; dotted identifiers and addresses; positions separated by
commas; and for a composite variable, pairs `field:number` separated by commas, the fields not named
being zero.
-/

namespace ScriptedAgent

structure Initializer where
  name : String
  text : String
deriving DecidableEq

/-- What is wrong with the text of an initializer. -/
inductive InitFault where
  | notInteger (text : String)
  | unknownAlias (name : String)
  | notBoolean
  | badPosition (n : Number)
  | noLayout
  | notPairs
  | noField (name : String)
  | badFieldValue (name : String)
  | value (e : ValueError)
  | store (e : StoreError)
deriving DecidableEq

def InitFault.message : InitFault → String
  | notInteger t => Text.quoted t ++ " is not an integer"
  | unknownAlias a => "unknown alias '" ++ a ++ "'"
  | notBoolean => "expected `true` or `false`"
  | badPosition n => "bad bit position " ++ Number.text n
  | noLayout => "composite has no layout"
  | notPairs => "expected field:value pairs"
  | noField f => "no field `" ++ f ++ "`"
  | badFieldValue f => "bad value for field `" ++ f ++ "`"
  | value e => e.message
  | store e => e.message

inductive InitError where
  | malformed (arg : String)
  | unknownVar (name : String)
  | badValue (init : Initializer) (fault : InitFault)
deriving DecidableEq

def InitError.message : InitError → String
  | malformed a => "initializer " ++ Text.quoted a ++ " is not of the form name=value"
  | unknownVar n => "initializer names unknown variable `" ++ n ++ "`"
  | badValue i f =>
    "bad initial value " ++ Text.quoted i.text ++ " for `" ++ i.name ++ "`: " ++ f.message

namespace Initializer

open Text

/-- Splits an argument at its first equality sign. The name may not be blank. -/
def parse (arg : String) : Except InitError Initializer :=
  match cut '=' arg.toList with
  | none => .error (.malformed arg)
  | some (name, text) =>
    if (trimmed name).isEmpty then .error (.malformed arg)
    else .ok ⟨String.ofList (trimmed name), String.ofList (trimmed text)⟩

def parseAll : List String → Except InitError (List Initializer)
  | [] => .ok []
  | a :: as => do
    let i ← parse a
    let is ← parseAll as
    return i :: is

/-- An integer, or the alias of one. -/
def readInt (T : TypeTable) (cs : List Char) : Except InitFault Number :=
  match unwrapped '\'' cs with
  | some a => match T.alias? (String.ofList a) with
    | some n => .ok n
    | none => .error (.unknownAlias (String.ofList a))
  | none => match Number.ofText? cs with
    | some n => .ok n
    | none => .error (.notInteger (String.ofList cs))

/-- The items between commas, without blanks around them. Empty ones do not count. -/
def items (cs : List Char) : List (List Char) :=
  ((fields ',' cs).map trimmed).filter fun item => !item.isEmpty

def readPositions (T : TypeTable) : List (List Char) → Bitset → Except InitFault Bitset
  | [], s => .ok s
  | item :: rest, s => do
    let n ← readInt T item
    match Bitset.position? n.toInt with
    | some p => readPositions T rest (s.insert p)
    | none => .error (.badPosition n)

/-- The number a field is given. -/
def readUnsigned? (cs : List Char) : Option Nat :=
  (Decimal.unsigned? (trimmed cs)).bind fun n => if n < 0x10000000000000000 then some n else none

def readFields (l : Layout) : List (List Char) → List UInt8 → Except InitFault (List UInt8)
  | [], block => .ok block
  | item :: rest, block => match cut ':' item with
    | none => .error .notPairs
    | some (name, number) => match l.field? (String.ofList (trimmed name)) with
      | none => .error (.noField (String.ofList (trimmed name)))
      | some f => match readUnsigned? number with
        | none => .error (.badFieldValue f.name)
        | some v => match f.write block v with
          | .error e => .error (.value e)
          | .ok block => readFields l rest block

/-- A string, without the double quotes around it if it has them. -/
def unquoted (cs : List Char) : List Char := (unwrapped '"' cs).getD cs

def readScalar (T : TypeTable) (k : Kind) (text : String) : Except InitFault Scalar :=
  match k with
  | .integer | .counter | .gauge | .timeticks => (readInt T text.toList).map .int
  | .boolean =>
    if text = "true" then .ok (.bool true)
    else if text = "false" then .ok (.bool false)
    else .error .notBoolean
  | .string => .ok (.str (String.ofList (unquoted text.toList)))
  | .oid | .ipaddress => .ok (.str text)
  | .bitset => (readPositions T (items text.toList) .empty).map .bits
  | .bytes => .error .noLayout

def readValue (T : TypeTable) (t : VarType) (text : String) : Except InitFault Value :=
  match t.kind, t.layout with
  | .bytes, some l => (readFields l (items text.toList) (List.replicate l.size 0)).map .block
  | k, _ => match readScalar T k text with
    | .error e => .error e
    | .ok s => match Value.ofScalar k s with
      | .error e => .error (.value e)
      | .ok v => .ok v

/-- The value an initializer gives to its variable. -/
def initialValue (T : TypeTable) (i : Initializer) : Except InitError Value :=
  match T.get? i.name with
  | none => .error (.unknownVar i.name)
  | some t => match readValue T t i.text with
    | .error e => .error (.badValue i e)
    | .ok v => .ok v

def apply (s : Store) (i : Initializer) : Except InitError Store :=
  match initialValue s.types i with
  | .error e => .error e
  | .ok v => match s.write i.name v with
    | .error e => .error (.badValue i (.store e))
    | .ok s => .ok s

/-- Applies initializers in order up to the first bad one, whose error it gives. -/
def applyAll (s : Store) : List Initializer → Store × Except InitError Unit
  | [] => (s, .ok ())
  | i :: is => match apply s i with
    | .error e => (s, .error e)
    | .ok s => applyAll s is

end Initializer

end ScriptedAgent
