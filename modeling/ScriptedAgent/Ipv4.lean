import ScriptedAgent.Text.Blank
import ScriptedAgent.Text.Decimal
import ScriptedAgent.Text.Fields

/-!
# IPv4 addresses

Four octets. In text they are decimal numbers between points, each at most three digits and without
leading zeros; blanks around an address are ignored.
-/

namespace ScriptedAgent

structure Ipv4 where
  a : UInt8
  b : UInt8
  c : UInt8
  d : UInt8
deriving DecidableEq

namespace Ipv4

def unspecified : Ipv4 := ⟨0, 0, 0, 0⟩

def octets (x : Ipv4) : List UInt8 := [x.a, x.b, x.c, x.d]

def ofOctets? : List UInt8 → Option Ipv4
  | [a, b, c, d] => some ⟨a, b, c, d⟩
  | _ => none

def text (x : Ipv4) : String :=
  String.ofList (Text.joined '.' (x.octets.map fun o => Decimal.digits o.toNat))

/-- An octet in at most three digits, the first not a zero unless it is the only one. -/
def octet? (cs : List Char) : Option UInt8 :=
  if 3 < cs.length ∨ (cs.head? = some '0' ∧ 1 < cs.length) then none
  else (Decimal.nat? cs).bind fun n => if n < 256 then some (UInt8.ofNat n) else none

def ofText? (s : String) : Option Ipv4 :=
  match Text.fields '.' (Text.trimmed s.toList) with
  | [a, b, c, d] => do
    let a ← octet? a
    let b ← octet? b
    let c ← octet? c
    let d ← octet? d
    return ⟨a, b, c, d⟩
  | _ => none

end Ipv4

end ScriptedAgent
