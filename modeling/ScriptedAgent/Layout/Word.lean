import Mathlib.Algebra.Group.Nat.Defs
import ScriptedAgent.Layout

/-!
# Layouts in machine words

The checks of `Layout.fault?` and the size of a layout as a machine with words of `w` bits computes
them. A sum that no word holds and a difference below zero are `none`.
-/

namespace ScriptedAgent

namespace Word

def add? (w a b : Nat) : Option Nat := if a + b < 2 ^ w then some (a + b) else none

def sub? (a b : Nat) : Option Nat := if b ≤ a then some (a - b) else none

end Word

namespace Layout

/-- A field starts at the latest where there is just room for it in the largest block. -/
def wordFieldFault? (w : Nat) (below : List Field) (f : Field) : Option (Option LayoutFault) :=
  if f.size < 1 ∨ 8 < f.size then some (some (.badSize f))
  else do
    let latest ← Word.sub? Octets.maxSize f.size
    if latest < f.offset then some (some (.pastEnd f))
    else if below.any (·.name == f.name) then some (some (.duplicate f))
    else match below with
      | [] => some none
      | b :: _ => do
        let stop ← Word.add? w b.offset b.size
        if stop > f.offset then some (some (.overlap f b)) else some none

def wordFaultFrom? (w : Nat) (below : List Field) : List Field → Option (Option LayoutFault)
  | [] => some none
  | f :: fs => do
    match ← wordFieldFault? w below f with
    | some e => some (some e)
    | none => wordFaultFrom? w (f :: below) fs

def wordFault? (w : Nat) : List Field → Option (Option LayoutFault)
  | [] => some (some .noFields)
  | fs => wordFaultFrom? w [] fs

def wordSize? (w : Nat) (fields : List Field) : Option Nat :=
  fields.foldlM (fun size f => (Word.add? w f.offset f.size).map (max size)) 0

end Layout

end ScriptedAgent
