/-!
# Octets in hexadecimal

Two lower-case digits to an octet, the high one first.
-/

namespace ScriptedAgent.Hex

def digits (b : UInt8) : List Char :=
  [Nat.digitChar (b.toNat / 16), Nat.digitChar (b.toNat % 16)]

def text (b : UInt8) : String := String.ofList (digits b)

/-- An octet as a number with its base in front. -/
def number (b : UInt8) : String := "0x" ++ text b

end ScriptedAgent.Hex
