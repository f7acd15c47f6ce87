import Mathlib.Data.List.Forall2
import ScriptedAgent.Proofs.Oid
import ScriptedAgent.Proofs.Text.Decimal

/-!
# The spellings of an identifier

A text is read as arcs that name an object exactly if it spells them: with or without a point in
front, and every arc with or without a plus sign and with any zeros in front of its digits
(`ofText?_eq_some_iff`). The text of the arcs is the one of these spellings that is plain
(`eq_text_of_isPlain`), so it stands for all of them: texts name the same object exactly if they
have the same canonical text (`text_inverse`).
-/

namespace ScriptedAgent.Oid

open Text

variable {s : String} {arcs arcs' : Oid} {fs : List (List Char)}

/-- Every field spells the arc at its place. -/
abbrev FieldsSpell (fs : List (List Char)) (arcs : Oid) : Prop :=
  List.Forall₂ (fun f a => Decimal.Spells f (UInt32.toNat a)) fs arcs

/-- The text spells the arcs, with a point between any two and perhaps one in front. -/
def Spells (s : String) (arcs : Oid) : Prop :=
  ∃ fs, FieldsSpell fs arcs ∧ (s.toList = joined '.' fs ∨ s.toList = '.' :: joined '.' fs)

/-- A point in front of the fields and between any two, and no signs and no zeros in front of
their digits. -/
def IsPlain (s : String) : Prop :=
  ∃ fs, fs ≠ [] ∧ s.toList = '.' :: joined '.' fs ∧ ∀ f ∈ fs, Decimal.IsPlain f

/-- The text of the arcs that a text is read as. -/
def canonical? (s : String) : Option String := (ofText? s).map text

/-! ## Reading fields -/

theorem arc?_eq_some_iff {f : List Char} {a : UInt32} :
    arc? f = some a ↔ Decimal.Spells f a.toNat := by
  rw [← Decimal.unsigned?_eq_some_iff, arc?, Option.bind_eq_some_iff]
  constructor
  · rintro ⟨n, hn, h⟩
    split at h
    · rename_i hlt
      cases h
      rw [hn, UInt32.toNat_ofNat', Nat.mod_eq_of_lt hlt]
    · cases h
  · intro h
    exact ⟨a.toNat, h, by rw [if_pos a.toNat_lt, UInt32.ofNat_toNat]⟩

theorem arcs?_eq_some_iff : ∀ {fs : List (List Char)} {arcs : Oid},
    arcs? fs = some arcs ↔ FieldsSpell fs arcs
  | [], arcs => by simp [arcs?, eq_comm]
  | f :: fs, arcs => by
    constructor
    · intro h
      obtain ⟨a, ha, h⟩ := Option.bind_eq_some_iff.1 h
      obtain ⟨rest, hrest, h⟩ := Option.bind_eq_some_iff.1 h
      cases h
      exact .cons (arc?_eq_some_iff.1 ha) (arcs?_eq_some_iff.1 hrest)
    · rintro (_ | ⟨hf, hfs⟩)
      simp [arcs?, arc?_eq_some_iff.2 hf, arcs?_eq_some_iff.2 hfs]

theorem ofText?_eq_some_iff_fields :
    ofText? s = some arcs ↔ arcs.Names ∧ FieldsSpell (fields '.' (body s.toList)) arcs := by
  rw [← arcs?_eq_some_iff]
  constructor
  · intro h
    refine ⟨names_of_ofText? h, ?_⟩
    unfold ofText? at h
    split at h
    · rename_i harcs
      split at h
      · rw [harcs, h]
      · cases h
    · cases h
  · rintro ⟨hn, harcs⟩
    match arcs, hn with
    | a :: b :: rest, hn =>
      rw [ofText?, harcs]
      exact if_pos hn

/-! ## Points -/

theorem Names.ne_nil (h : arcs.Names) : arcs ≠ [] := by
  rintro rfl
  exact h

theorem FieldsSpell.notMem (h : FieldsSpell fs arcs) : ∀ f ∈ fs, '.' ∉ f := by
  induction h with
  | nil => exact nofun
  | cons hf _ ih => exact List.forall_mem_cons.2 ⟨hf.notMem rfl (by decide), ih⟩

theorem body_eq_or (cs : List Char) : cs = body cs ∨ cs = '.' :: body cs := by
  unfold body
  split
  · exact .inr rfl
  · exact .inl rfl

theorem body_cons {c : Char} (h : c ≠ '.') (cs : List Char) : body (c :: cs) = c :: cs := by
  rcases body_eq_or (c :: cs) with heq | heq
  · exact heq.symm
  · exact absurd (List.cons.inj heq).1 h

/-- The first field has a character, and it is no point. -/
theorem FieldsSpell.body_joined (h : FieldsSpell fs arcs) :
    body (joined '.' fs) = joined '.' fs := by
  cases h with
  | nil => rfl
  | @cons f a fs arcs hf hfs =>
    obtain ⟨c, cs, rfl⟩ := List.exists_cons_of_ne_nil hf.ne_nil
    have hc : c ≠ '.' := by
      rintro rfl
      exact hf.notMem (c := '.') rfl (by decide) List.mem_cons_self
    obtain ⟨ds, hds⟩ : ∃ ds, joined '.' ((c :: cs) :: fs) = c :: ds := by
      cases fs <;> exact ⟨_, rfl⟩
    rw [hds, body_cons hc]

/-- Exactly the spellings of arcs that name an object are read, and as these arcs. -/
theorem ofText?_eq_some_iff : ofText? s = some arcs ↔ arcs.Names ∧ Spells s arcs := by
  rw [ofText?_eq_some_iff_fields]
  refine and_congr_right fun hn => ⟨fun h => ?_, ?_⟩
  · refine ⟨_, h, ?_⟩
    rw [joined_fields]
    exact body_eq_or s.toList
  · rintro ⟨fs, hfs, hs⟩
    have hne : fs ≠ [] := by
      rintro rfl
      exact hn.ne_nil (List.forall₂_nil_left_iff.1 hfs)
    have hbody : body s.toList = joined '.' fs := by
      rcases hs with hs | hs <;> rw [hs]
      · exact hfs.body_joined
      · rfl
    rw [hbody, fields_joined hne hfs.notMem]
    exact hfs

/-- An arc above 32 bits, a minus sign, two points in a row, one arc alone, and a first arc of 3. -/
example : ["1.4294967296", "1.-3", "1..3", "..1.3", ".1", "3.1"].all (ofText? · = none) = true := by
  decide +kernel

/-! ## The plain spelling -/

theorem toList_text (h : arcs.Names) :
    arcs.text.toList = '.' :: joined '.' (arcs.map fun a => Decimal.digits a.toNat) := by
  obtain ⟨a, rest, rfl⟩ := List.exists_cons_of_ne_nil h.ne_nil
  rw [text, String.toList_ofList, chars_cons]

theorem isPlain_text (h : arcs.Names) : IsPlain arcs.text := by
  refine ⟨_, by simpa using h.ne_nil, toList_text h, fun f hf => ?_⟩
  obtain ⟨a, -, rfl⟩ := List.mem_map.1 hf
  exact Decimal.isPlain_digits _

theorem FieldsSpell.eq_digits (h : FieldsSpell fs arcs) (hp : ∀ f ∈ fs, Decimal.IsPlain f) :
    fs = arcs.map fun a => Decimal.digits a.toNat := by
  induction h with
  | nil => rfl
  | cons hf _ ih =>
    obtain ⟨hplain, hrest⟩ := List.forall_mem_cons.1 hp
    rw [List.map_cons, ← hf.eq_digits hplain, ← ih hrest]

theorem eq_text_of_isPlain (h : ofText? s = some arcs) (hp : IsPlain s) : s = arcs.text := by
  obtain ⟨hn, hfields⟩ := ofText?_eq_some_iff_fields.1 h
  obtain ⟨fs, hne, hs, hplain⟩ := hp
  have hpoint : ∀ f ∈ fs, '.' ∉ f := fun f hf hmem =>
    absurd ((hplain f hf).digit '.' hmem) (by decide)
  have hbody : body s.toList = joined '.' fs := by rw [hs]; rfl
  rw [hbody, fields_joined hne hpoint] at hfields
  rw [← String.toList_inj, toList_text hn, ← hfields.eq_digits hplain, hs]

theorem text_inj (h : arcs.Names) (h' : arcs'.Names) : arcs.text = arcs'.text ↔ arcs = arcs' := by
  refine ⟨fun htext => ?_, fun heq => heq ▸ rfl⟩
  have hread := ofText?_text h
  rw [htext, ofText?_text h'] at hread
  exact (Option.some.inj hread).symm

/-! ## The canonical text -/

theorem ofText?_canonical? {t : String} (h : canonical? s = some t) : ofText? t = ofText? s := by
  obtain ⟨arcs, harcs, rfl⟩ := Option.map_eq_some_iff.1 h
  rw [harcs, ofText?_text (names_of_ofText? harcs)]

theorem canonical?_canonical? (s : String) : (canonical? s).bind canonical? = canonical? s := by
  cases hs : canonical? s with
  | none => rfl
  | some t => rw [Option.bind_some, canonical?, ofText?_canonical? hs, ← hs, canonical?]

/-- Arcs that name an object are read from their text. The texts that are read are the spellings of
such arcs, and of all spellings of the same arcs their text is the plain one. So the canonical text
of a canonical text is that text, and two texts name the same object exactly if their canonical
texts are equal. -/
theorem text_inverse :
    (∀ arcs : Oid, arcs.Names → ofText? arcs.text = some arcs) ∧
    (∀ s arcs, ofText? s = some arcs ↔ arcs.Names ∧ Spells s arcs) ∧
    (∀ s arcs, ofText? s = some arcs →
      IsPlain arcs.text ∧ ofText? arcs.text = some arcs ∧ (arcs.text = s ↔ IsPlain s)) ∧
    (∀ s, (canonical? s).bind canonical? = canonical? s) ∧
    ∀ s s' arcs arcs', ofText? s = some arcs → ofText? s' = some arcs' →
      (arcs = arcs' ↔ arcs.text = arcs'.text) := by
  refine ⟨fun _ => ofText?_text, fun _ _ => ofText?_eq_some_iff, fun s arcs h => ?_,
    canonical?_canonical?, fun s s' arcs arcs' h h' => ?_⟩
  · have hn := names_of_ofText? h
    refine ⟨isPlain_text hn, ofText?_text hn, ?_, fun hp => (eq_text_of_isPlain h hp).symm⟩
    rintro rfl
    exact isPlain_text hn
  · exact (text_inj (names_of_ofText? h) (names_of_ofText? h')).symm

/-- The greatest arc behind zeros and a sign, and its neighbour in a text that only lacks the first
point. -/
theorem text_inverse_greatest :
    let s := ".01.3.+004294967295"
    let s' := "1.3.4294967294"
    let arcs : Oid := [1, 3, 0xffffffff]
    let arcs' : Oid := [1, 3, 0xfffffffe]
    arcs.Names ∧ ofText? arcs.text = some arcs ∧ arcs.text = ".1.3.4294967295" ∧
      IsPlain arcs.text ∧ ofText? s = some arcs ∧ Spells s arcs ∧ ¬ IsPlain s ∧
      (canonical? s).bind canonical? = some ".1.3.4294967295" ∧
      ofText? s' = some arcs' ∧ ¬ IsPlain s' ∧ arcs.text ≠ arcs'.text := by
  intro s s' arcs arcs'
  obtain ⟨hread, hspells, hplain, htwice, hsame⟩ := text_inverse
  have hn : arcs.Names := by decide
  have hs : ofText? s = some arcs := by decide +kernel
  have hs' : ofText? s' = some arcs' := by decide +kernel
  have htext : arcs.text = ".1.3.4294967295" := by decide +kernel
  have htext' : arcs'.text = ".1.3.4294967294" := by decide +kernel
  have hcanonical : canonical? s = some arcs.text := by rw [canonical?, hs]; rfl
  refine ⟨hn, hread arcs hn, htext, (hplain s arcs hs).1, hs, ((hspells s arcs).1 hs).2, ?_,
    by rw [htwice, hcanonical, htext], hs', ?_, ?_⟩
  · rw [← (hplain s arcs hs).2.2, htext]
    decide
  · rw [← (hplain s' arcs' hs').2.2, htext']
    decide
  · rw [ne_eq, ← hsame s s' arcs arcs' hs hs']
    decide

end ScriptedAgent.Oid
