import ScriptedAgent.Number
import ScriptedAgent.Oid
import ScriptedAgent.Text.Hex

/-!
# Basic encoding rules

The part of BER that SNMP uses: a tag octet, a definite length, the contents. A `Reader` takes
encodings off the front of a run of octets and says what it left even where it fails. Integers are
written in the fewest octets of two's complement, identifiers with their first two arcs in one
number and every number in the fewest groups of seven bits.
-/

namespace ScriptedAgent.Ber

namespace Tag

def integer : UInt8 := 0x02
def octetString : UInt8 := 0x04
def null : UInt8 := 0x05
def oid : UInt8 := 0x06
def sequence : UInt8 := 0x30
def ipAddress : UInt8 := 0x40
def counter : UInt8 := 0x41
def gauge : UInt8 := 0x42
def timeticks : UInt8 := 0x43
def noSuchObject : UInt8 := 0x80
def noSuchInstance : UInt8 := 0x81
def endOfMibView : UInt8 := 0x82
def get : UInt8 := 0xa0
def getNext : UInt8 := 0xa1
def response : UInt8 := 0xa2
def set : UInt8 := 0xa3
def getBulk : UInt8 := 0xa5

end Tag

/-- What a well-formed message may hold that no answer is known to. -/
inductive Unsupported where
  | version (n : Number)
  | getBulk
  | pdu (tag : UInt8)
  | value (tag : UInt8)
deriving DecidableEq

def Unsupported.text : Unsupported → String
  | version n => "SNMP version " ++ Number.text n
  | getBulk => "GetBulkRequest"
  | pdu t => "PDU type " ++ Hex.number t
  | value t => "value type " ++ Hex.number t

inductive DecodeError where
  | truncated
  | badLength
  | unexpectedTag (expected found : UInt8)
  | integerTooLong
  | badOid
  | trailing
  | unsupported (what : Unsupported)
deriving DecidableEq

def DecodeError.message : DecodeError → String
  | truncated => "message truncated"
  | badLength => "unsupported length encoding"
  | unexpectedTag e f => "expected tag " ++ Hex.number e ++ ", found " ++ Hex.number f
  | integerTooLong => "integer does not fit in 64 bits"
  | badOid => "malformed object identifier"
  | trailing => "trailing bytes after message"
  | unsupported w => "unsupported " ++ w.text

/-! ## Contents -/

/-- The low `w` digits of a number, the most significant first. -/
def bigEndian (base : Nat) : Nat → Nat → List Nat
  | 0, _ => []
  | w + 1, n => bigEndian base w (n / base) ++ [n % base]

/-- The same without leading zeros. -/
def fewest (base w n : Nat) : List Nat := (bigEndian base w n).dropWhile (· == 0)

/-- Two's complement, the most significant octet first. -/
def decodeInteger (bytes : List UInt8) : Except DecodeError Number :=
  match bytes with
  | [] => .error .truncated
  | b :: _ =>
    if 8 < bytes.length then .error .integerTooLong
    else .ok (Int64.ofInt
      (bytes.foldl (fun n b => n * 256 + b.toNat) (if b < 0x80 then (0 : Int) else -1)))

/-- A 32-bit unsigned number. -/
def decodeUnsigned (bytes : List UInt8) : Except DecodeError UInt32 := do
  let n ← decodeInteger bytes
  if 0 ≤ n.toInt ∧ n.toInt < 0x100000000 then return UInt32.ofNat n.toInt.toNat
  else throw .integerTooLong

/-- Drops octets that the sign of the rest implies. -/
def trimSign : List UInt8 → List UInt8
  | b :: c :: bs =>
    if (b = 0x00 ∧ c < 0x80) ∨ (b = 0xff ∧ 0x80 ≤ c) then trimSign (c :: bs) else b :: c :: bs
  | bs => bs

def encodeInteger (n : Number) : List UInt8 :=
  trimSign ((bigEndian 256 8 (n.toInt % 0x10000000000000000).toNat).map UInt8.ofNat)

/-- The numbers in groups of seven bits, the first of them going on from `acc` where `inside`. -/
def subidentifiers (acc : Nat) (inside : Bool) : List UInt8 → Option (List Nat)
  | [] => if inside then none else some []
  | b :: bs =>
    if 0x2000000 ≤ acc then none
    else
      let n := acc * 128 + b.toNat % 128
      if 0x80 ≤ b then subidentifiers n true bs
      else (subidentifiers 0 false bs).map (n :: ·)

/-- The two arcs that the first number stands for. -/
def splitFirst (n : Nat) : Nat × Nat :=
  if n < 40 then (0, n) else if n < 80 then (1, n - 40) else (2, n - 80)

def decodeOid (bytes : List UInt8) : Except DecodeError Oid :=
  match subidentifiers 0 false bytes with
  | none | some [] => .error .badOid
  | some (n :: ns) =>
    .ok (((splitFirst n).1 :: (splitFirst n).2 :: ns).map UInt32.ofNat)

/-- The first two arcs as one number, at most the greatest of 32 bits. -/
def joinFirst (a b : Nat) : Nat := min (40 * a + b) 0xffffffff

/-- Groups of seven bits, all but the last marked as going on. -/
def marked : List Nat → List UInt8
  | [] => []
  | [n] => [UInt8.ofNat n]
  | n :: ns => UInt8.ofNat (n + 0x80) :: marked ns

def base128 (n : Nat) : List UInt8 :=
  match fewest 128 5 n with
  | [] => [0]
  | gs => marked gs

/-- The numbers an identifier is written as. -/
def subidentifiersOf : Oid → List Nat
  | [] => [0]
  | [a] => [joinFirst a.toNat 0]
  | a :: b :: rest => joinFirst a.toNat b.toNat :: rest.map UInt32.toNat

def encodeOid (arcs : Oid) : List UInt8 := (subidentifiersOf arcs).flatMap base128

/-! ## Writing -/

/-- The short form below 128, and otherwise the count of the octets that follow. -/
def length (n : Nat) : List UInt8 :=
  if n < 0x80 then [UInt8.ofNat n]
  else
    let ds := fewest 256 8 n
    UInt8.ofNat (0x80 + ds.length) :: ds.map UInt8.ofNat

def tlv (tag : UInt8) (contents : List UInt8) : List UInt8 :=
  tag :: length contents.length ++ contents

def integer (tag : UInt8) (n : Number) : List UInt8 := tlv tag (encodeInteger n)

def oid (arcs : Oid) : List UInt8 := tlv Tag.oid (encodeOid arcs)

/-! ## Reading -/

abbrev Reader := ExceptT DecodeError (StateM (List UInt8))

namespace Reader

def byte : Reader UInt8 := do
  match ← get with
  | [] => throw .truncated
  | b :: bs => set bs; return b

/-- A number of `n` octets after the ones `acc` stands for. -/
def number (acc : Nat) : Nat → Reader Nat
  | 0 => return acc
  | n + 1 => do
    let b ← byte
    number (acc * 256 + b.toNat) n

/-- The long form may have one to four octets, and need not be the shortest. -/
def length : Reader Nat := do
  let first ← byte
  if first < 0x80 then return first.toNat
  let count := first.toNat - 0x80
  if count = 0 ∨ 4 < count then throw .badLength
  number 0 count

def tlv : Reader (UInt8 × List UInt8) := do
  let tag ← byte
  let n ← length
  let bytes ← get
  if bytes.length < n then throw .truncated
  set (bytes.drop n)
  return (tag, bytes.take n)

/-- The contents of an encoding that must carry this tag. -/
def expect (tag : UInt8) : Reader (List UInt8) := do
  let (found, contents) ← tlv
  if found = tag then return contents
  throw (.unexpectedTag tag found)

def integer : Reader Number := do ofExcept (decodeInteger (← expect Tag.integer))

def octets : Reader (List UInt8) := expect Tag.octetString

def oid : Reader Oid := do ofExcept (decodeOid (← expect Tag.oid))

/-- Reads from the contents of an encoding, and ignores what is left of them. -/
def within {α : Type} (contents : List UInt8) (r : Reader α) : Reader α := ofExcept (r contents).1

end Reader

end ScriptedAgent.Ber
