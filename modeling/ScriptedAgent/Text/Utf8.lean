/-!
# UTF-8 with faults

Text from octets that need not be UTF-8. Every stretch that begins a character and is broken off,
and every octet that begins none, is shown as one replacement character.
-/

namespace ScriptedAgent.Text

/-- A character whose first octets have been read. -/
structure Begun where
  /-- How many octets are still to come. -/
  need : Nat
  /-- The least and the greatest that the next one may be. -/
  low : UInt8
  high : UInt8
  /-- The bits read so far. -/
  bits : Nat

/-- What an octet at the start of a character is: all of it, the first of several, or neither. -/
inductive Lead where
  | whole (c : Char)
  | first (p : Begun)
  | bad

def lead (b : UInt8) : Lead :=
  let n := b.toNat
  if n < 0x80 then .whole (Char.ofNat n)
  else if n < 0xc2 then .bad
  else if n < 0xe0 then .first ⟨1, 0x80, 0xbf, n - 0xc0⟩
  else if n = 0xe0 then .first ⟨2, 0xa0, 0xbf, 0⟩
  else if n = 0xed then .first ⟨2, 0x80, 0x9f, n - 0xe0⟩
  else if n < 0xf0 then .first ⟨2, 0x80, 0xbf, n - 0xe0⟩
  else if n = 0xf0 then .first ⟨3, 0x90, 0xbf, 0⟩
  else if n < 0xf4 then .first ⟨3, 0x80, 0xbf, n - 0xf0⟩
  else if n = 0xf4 then .first ⟨3, 0x80, 0x8f, n - 0xf0⟩
  else .bad

def replacement : Char := '\ufffd'

def decodeFrom : Option Begun → List UInt8 → List Char
  | none, [] => []
  | some _, [] => [replacement]
  | none, b :: bs => match lead b with
    | .whole c => c :: decodeFrom none bs
    | .first p => decodeFrom (some p) bs
    | .bad => replacement :: decodeFrom none bs
  | some p, b :: bs =>
    if p.low ≤ b ∧ b ≤ p.high then
      let bits := p.bits * 64 + b.toNat % 64
      if p.need ≤ 1 then Char.ofNat bits :: decodeFrom none bs
      else decodeFrom (some ⟨p.need - 1, 0x80, 0xbf, bits⟩) bs
    else match lead b with
      | .whole c => replacement :: c :: decodeFrom none bs
      | .first p => replacement :: decodeFrom (some p) bs
      | .bad => replacement :: replacement :: decodeFrom none bs

/-- The text of octets, with replacements for what is not UTF-8. -/
def repaired (bytes : List UInt8) : String := String.ofList (decodeFrom none bytes)

/-- The text of octets that are UTF-8. -/
def ofUtf8? (bytes : List UInt8) : Option String := String.fromUTF8? ⟨bytes.toArray⟩

def utf8 (s : String) : List UInt8 := s.toUTF8.data.toList

theorem ofUtf8?_utf8 (s : String) : ofUtf8? (utf8 s) = some s := by
  simp only [ofUtf8?, utf8, Array.toArray_toList]
  exact dif_pos s.isValidUTF8

theorem utf8_of_ofUtf8? {bytes : List UInt8} {s : String} (h : ofUtf8? bytes = some s) :
    utf8 s = bytes := by
  unfold ofUtf8? String.fromUTF8? at h
  split at h
  · cases h
    rfl
  · cases h

end ScriptedAgent.Text
