import ScriptedAgent.Octets
import ScriptedAgent.Text.Decimal
import ScriptedAgent.Text.Fields

/-!
# Sets of bit positions

A finite set of positions, held in ascending order without repeats, and its packed form: position
`p` is bit `7 - p % 8` of octet `p / 8`, in as many octets as the greatest position needs.
-/

namespace ScriptedAgent

structure Bitset where
  positions : List Nat
  ascending : positions.Pairwise (· < ·)
deriving DecidableEq

namespace Bitset

def insertPosition (p : Nat) : List Nat → List Nat
  | [] => [p]
  | q :: qs => if p < q then p :: q :: qs else if p = q then q :: qs else q :: insertPosition p qs

theorem mem_insertPosition {p q : Nat} {qs : List Nat} :
    q ∈ insertPosition p qs ↔ q = p ∨ q ∈ qs := by
  induction qs with
  | nil => simp [insertPosition]
  | cons r rs ih =>
    unfold insertPosition
    split
    · simp
    · split
      · rename_i h; subst h; simp
      · simp only [List.mem_cons, ih]; grind

theorem ascending_insertPosition {p : Nat} {qs : List Nat} (h : qs.Pairwise (· < ·)) :
    (insertPosition p qs).Pairwise (· < ·) := by
  induction qs with
  | nil => simp [insertPosition]
  | cons r rs ih =>
    rw [List.pairwise_cons] at h
    unfold insertPosition
    split
    · rename_i hlt
      exact List.pairwise_cons.2 ⟨fun q hq => by
        rcases List.mem_cons.1 hq with rfl | hq
        · exact hlt
        · exact Nat.lt_trans hlt (h.1 q hq), List.pairwise_cons.2 h⟩
    · split
      · exact List.pairwise_cons.2 h
      · refine List.pairwise_cons.2 ⟨fun q hq => ?_, ih h.2⟩
        rcases mem_insertPosition.1 hq with rfl | hq
        · omega
        · exact h.1 q hq

def empty : Bitset := ⟨[], .nil⟩

def insert (s : Bitset) (p : Nat) : Bitset :=
  ⟨insertPosition p s.positions, ascending_insertPosition s.ascending⟩

instance : Membership Nat Bitset := ⟨fun s p => p ∈ s.positions⟩

instance (p : Nat) (s : Bitset) : Decidable (p ∈ s) := inferInstanceAs (Decidable (p ∈ s.positions))

def ofList (ps : List Nat) : Bitset := ps.foldl insert empty

def union (s t : Bitset) : Bitset := t.positions.foldl insert s

theorem mem_insert {s : Bitset} {p q : Nat} : q ∈ s.insert p ↔ q = p ∨ q ∈ s :=
  mem_insertPosition

/-! ## Packed form -/

/-- The octet whose bits, the high one first, are these eight. -/
def octet (bit : Nat → Bool) : UInt8 :=
  UInt8.ofNat ((List.range 8).foldl (fun n j => 2 * n + (bit j).toNat) 0)

/-- For every position below `n`, whether it is in the set. -/
def bitmap (s : Bitset) (n : Nat) : Array Bool :=
  s.positions.foldl (fun a p => a.setIfInBounds p true) (Array.replicate n false)

/-- No octets for the empty set. -/
def octets (s : Bitset) : List UInt8 :=
  match s.positions.getLast? with
  | none => []
  | some top =>
    let bits := s.bitmap (8 * (top / 8 + 1))
    (List.range (top / 8 + 1)).map fun i => octet fun j => bits[8 * i + j]?.getD false

/-- Whether position `p` is set in a packed form. -/
def bitAt (bytes : Array UInt8) (p : Nat) : Bool :=
  match bytes[p / 8]? with
  | none => false
  | some b => b.toNat.testBit (7 - p % 8)

def ofOctets (bytes : List UInt8) : Bitset :=
  ⟨(List.range (8 * bytes.length)).filter (bitAt bytes.toArray),
    List.Pairwise.filter _ List.pairwise_lt_range⟩

theorem getElem?_foldl_setIfInBounds (ps : List Nat) (a : Array Bool) (q : Nat) :
    (ps.foldl (fun a p => a.setIfInBounds p true) a)[q]? =
      a[q]?.map fun b => b || decide (q ∈ ps) := by
  induction ps generalizing a with
  | nil => simp
  | cons p ps ih =>
    simp only [List.foldl_cons, ih, Array.getElem?_setIfInBounds]
    split
    · rename_i h
      subst h
      split <;> simp_all
    · rename_i h
      simp [List.mem_cons, Ne.symm h]

theorem getElem?_bitmap {s : Bitset} {n q : Nat} (h : q < n) :
    (s.bitmap n)[q]? = some (decide (q ∈ s)) := by
  rw [bitmap, getElem?_foldl_setIfInBounds]
  simp [h]
  rfl

/-! ## Text -/

/-- The positions between braces, separated by commas. -/
def text (s : Bitset) : String :=
  String.ofList ('\x7b' :: Text.joined ',' (s.positions.map Decimal.digits) ++ ['\x7d'])

/-- Highest position a script may name: the last whose packed form fits an OCTET STRING. -/
def maxPosition : Nat := 8 * Octets.maxSize - 1

/-- An integer as a position a script may name. -/
def position? (n : Int) : Option Nat :=
  if 0 ≤ n ∧ n ≤ maxPosition then some n.toNat else none

end Bitset

end ScriptedAgent
