import ScriptedAgent.Oid
import ScriptedAgent.Proofs.Text

/-!
# The text of an identifier

The text of arcs that name an object is read as the same arcs (`ofText?_text`), whatever text they
were read from before.
-/

namespace ScriptedAgent.Oid

open Text

/-- The arcs name an object: there are two at least, and the first is 0, 1 or 2. -/
def Names : Oid → Prop
  | a :: _ :: _ => a ≤ 2
  | _ => False

instance : DecidablePred Names
  | [] => inferInstanceAs (Decidable False)
  | [_] => inferInstanceAs (Decidable False)
  | a :: _ :: _ => inferInstanceAs (Decidable (a ≤ 2))

theorem names_of_ofText? {s : String} {arcs : Oid} (h : ofText? s = some arcs) : arcs.Names := by
  unfold ofText? at h
  split at h
  · split at h
    · rename_i ha
      simp only [Option.some.injEq] at h
      rw [← h]
      exact ha
    · simp at h
  · simp at h

theorem arc?_digits (a : UInt32) : arc? (Decimal.digits a.toNat) = some a := by
  rw [arc?, Decimal.unsigned?_digits, Option.bind_some, if_pos a.toNat_lt, UInt32.ofNat_toNat]

theorem arcs?_digits : ∀ arcs : Oid, arcs? (arcs.map fun a => Decimal.digits a.toNat) = some arcs
  | [] => rfl
  | a :: arcs => by simp [arcs?, arc?_digits, arcs?_digits arcs]

theorem chars_cons (a : UInt32) : ∀ arcs : Oid,
    chars (a :: arcs) = '.' :: joined '.' ((a :: arcs).map fun a => Decimal.digits a.toNat)
  | [] => by simp [chars, joined]
  | b :: arcs => by
    have ih := chars_cons b arcs
    simp only [chars, List.flatMap_cons, List.map_cons, joined] at ih ⊢
    rw [ih]
    rfl

theorem fields_chars {arcs : Oid} (h : arcs ≠ []) :
    fields '.' (body arcs.chars) = arcs.map fun a => Decimal.digits a.toNat := by
  obtain ⟨a, rest, rfl⟩ := List.exists_cons_of_ne_nil h
  rw [chars_cons]
  refine fields_joined (by simp) fun f hf => ?_
  obtain ⟨c, -, rfl⟩ := List.mem_map.1 hf
  exact Decimal.notMem_digits rfl _

theorem ofText?_text {arcs : Oid} (h : arcs.Names) : ofText? arcs.text = some arcs := by
  match arcs, h with
  | a :: b :: rest, h =>
    rw [ofText?, text, String.toList_ofList, fields_chars (List.cons_ne_nil a _), arcs?_digits]
    exact if_pos h

/-- The text of arcs is read as no others, also where they name no object. -/
theorem eq_of_ofText?_text {arcs arcs' : Oid} (h : ofText? arcs.text = some arcs') :
    arcs' = arcs := by
  by_cases hnil : arcs = []
  · subst hnil
    rw [show ofText? (text []) = none from by decide +kernel] at h
    cases h
  · rw [ofText?, text, String.toList_ofList, fields_chars hnil, arcs?_digits] at h
    split at h
    · rename_i heq
      split at h
      · exact Option.some.inj (h.symm.trans heq.symm)
      · cases h
    · cases h

/-- The text is that of arcs that name an object: with a point before each of them, and without
signs and leading zeros. -/
def Canonical (text : String) : Prop := ∃ arcs : Oid, arcs.Names ∧ text = arcs.text

theorem canonical_iff {text : String} :
    Canonical text ↔ (ofText? text).map Oid.text = some text := by
  constructor
  · rintro ⟨arcs, hn, rfl⟩
    rw [ofText?_text hn, Option.map_some]
  · intro h
    obtain ⟨arcs, harcs, htext⟩ := Option.map_eq_some_iff.1 h
    exact ⟨arcs, names_of_ofText? harcs, htext.symm⟩

instance : DecidablePred Canonical := fun _ => decidable_of_iff' _ canonical_iff

end ScriptedAgent.Oid
