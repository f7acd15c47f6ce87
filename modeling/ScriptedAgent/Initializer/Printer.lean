import ScriptedAgent.Initializer

/-!
# Writing initializers

The text that gives a variable a value: a decimal number, `true` or `false`, a string between double
quotes, a dotted identifier or address, the positions of a set and the fields of a block between
commas.
-/

namespace ScriptedAgent.Initializer

open Text

/-- A field and its number in a block. -/
def pairChars (block : List UInt8) (f : Field) : List Char :=
  f.name.toList ++ ':' :: Decimal.digits (f.value block)

/-- What a variable of type `t` is given the value by. -/
def valueChars (t : VarType) : Value → List Char
  | .integer n =>
    if t.kind = .boolean then (if n = truthValue true then "true" else "false").toList
    else (Number.text n).toList
  | .string s => '"' :: s.toList ++ ['"']
  | .counter n | .gauge n | .timeticks n => Decimal.digits n.toNat
  | .oid x => x.toList
  | .ipaddress a => a.text.toList
  | .bits s => joined ',' (s.positions.map Decimal.digits)
  | .block b => joined ',' (((t.layout.map Layout.fields).getD []).map (pairChars b))

/-- The initializer that gives a variable of type `t` the value. -/
def giving (name : String) (t : VarType) (v : Value) : Initializer :=
  ⟨name, String.ofList (valueChars t v)⟩

/-- An initializer as an argument. -/
def argument (i : Initializer) : String := i.name ++ "=" ++ i.text

end ScriptedAgent.Initializer
