import ScriptedAgent.Text.Hex

/-!
# Octet strings

The size limit of an OCTET STRING, numbers as octets with the least significant first, and how a
run of octets is shown.
-/

namespace ScriptedAgent.Octets

/-- The most octets an OCTET STRING carries. -/
def maxSize : Nat := 65535

/-- The low `n` octets of a number, the least significant first. -/
def littleEndian : Nat → Nat → List UInt8
  | 0, _ => []
  | n + 1, v => UInt8.ofNat (v % 256) :: littleEndian n (v / 256)

def ofLittleEndian : List UInt8 → Nat
  | [] => 0
  | b :: bs => b.toNat + 256 * ofLittleEndian bs

/-- The numbers below it are those that `n` octets hold. -/
def bound : Nat → Nat
  | 0 => 1
  | n + 1 => 256 * bound n

/-- Every octet in hexadecimal, with a space between. -/
def text (bytes : List UInt8) : String := " ".intercalate (bytes.map Hex.text)

theorem length_littleEndian (n v : Nat) : (littleEndian n v).length = n := by
  induction n generalizing v with
  | zero => rfl
  | succ n ih => simp [littleEndian, ih]

theorem ofLittleEndian_littleEndian (n v : Nat) :
    ofLittleEndian (littleEndian n v) = v % bound n := by
  induction n generalizing v with
  | zero => simp [littleEndian, ofLittleEndian, bound, Nat.mod_one]
  | succ n ih =>
    simp only [littleEndian, ofLittleEndian, bound, ih, Nat.mod_mul]
    simp

end ScriptedAgent.Octets
