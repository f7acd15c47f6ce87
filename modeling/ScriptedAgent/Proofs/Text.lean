import ScriptedAgent.Text.Blank
import ScriptedAgent.Text.Decimal
import ScriptedAgent.Text.Fields

/-!
# Fields and digits

A text joined from fields without the separator falls into these fields again (`fields_joined`), and
any text is joined from its fields (`joined_fields`). The digits of a number are no separator of any
text here: neither a point nor a sign, nor a blank, which a text without any is not trimmed of
(`trimmed_of_forall`).
-/

namespace ScriptedAgent

namespace Text

variable {sep : Char}

theorem fields_of_notMem : ∀ {f : List Char}, sep ∉ f → fields sep f = [f]
  | [], _ => rfl
  | c :: cs, h => by
    rw [List.mem_cons, not_or] at h
    rw [fields, if_neg (Ne.symm h.1), fields_of_notMem h.2]

theorem fields_append (cs : List Char) :
    ∀ {f : List Char}, sep ∉ f → fields sep (f ++ sep :: cs) = f :: fields sep cs
  | [], _ => by rw [List.nil_append, fields, if_pos rfl]
  | c :: f, h => by
    rw [List.mem_cons, not_or] at h
    rw [List.cons_append, fields, if_neg (Ne.symm h.1), fields_append cs h.2]

theorem fields_joined :
    ∀ {fs : List (List Char)}, fs ≠ [] → (∀ f ∈ fs, sep ∉ f) → fields sep (joined sep fs) = fs
  | [f], _, h => fields_of_notMem (h f (by simp))
  | f :: g :: gs, _, h => by
    have ih : fields sep (joined sep (g :: gs)) = g :: gs :=
      fields_joined (by simp) fun x hx => h x (List.mem_cons_of_mem _ hx)
    show fields sep (f ++ sep :: joined sep (g :: gs)) = f :: g :: gs
    rw [fields_append _ (h f (by simp)), ih]

theorem joined_fields : ∀ cs : List Char, joined sep (fields sep cs) = cs
  | [] => rfl
  | c :: cs => by
    have ih := joined_fields cs
    obtain ⟨f, fs, hfs⟩ := List.exists_cons_of_ne_nil (fields_ne_nil sep cs)
    rw [hfs] at ih
    rw [fields, hfs]
    split
    · rename_i hc
      show sep :: joined sep (f :: fs) = c :: cs
      rw [ih, hc]
    · show joined sep ((c :: f) :: fs) = c :: cs
      rw [← ih]
      cases fs <;> rfl

theorem mem_joined {c : Char} : ∀ {fs : List (List Char)}, c ∈ joined sep fs →
    c = sep ∨ ∃ f ∈ fs, c ∈ f
  | [f], h => .inr ⟨f, List.mem_cons_self, h⟩
  | f :: g :: gs, h => by
    have h : c ∈ f ++ sep :: joined sep (g :: gs) := h
    rw [List.mem_append, List.mem_cons] at h
    rcases h with hf | hsep | hrest
    · exact .inr ⟨f, List.mem_cons_self, hf⟩
    · exact .inl hsep
    · exact (mem_joined hrest).imp_right fun ⟨k, hk, hc⟩ => ⟨k, List.mem_cons_of_mem _ hk, hc⟩

theorem cut_append (cs : List Char) :
    ∀ {f : List Char}, sep ∉ f → cut sep (f ++ sep :: cs) = some (f, cs)
  | [], _ => by rw [List.nil_append, cut, if_pos rfl]
  | c :: f, h => by
    rw [List.mem_cons, not_or] at h
    rw [List.cons_append, cut, if_neg (Ne.symm h.1), cut_append cs h.2]
    rfl

theorem unwrapped_of_notMem {mark : Char} {cs : List Char} (h : mark ∉ cs) :
    unwrapped mark cs = none := by
  cases cs with
  | nil => rfl
  | cons c cs =>
    rw [unwrapped, if_neg]
    rintro ⟨rfl, -⟩
    exact h List.mem_cons_self

theorem unwrapped_marks (mark : Char) (cs : List Char) :
    unwrapped mark (mark :: cs ++ [mark]) = some cs := by
  rw [List.cons_append, unwrapped, if_pos ⟨rfl, List.getLast?_concat⟩, List.dropLast_concat]

/-! ## Blanks -/

theorem dropBlanks_of_forall {cs : List Char} (h : ∀ c ∈ cs, isBlank c = false) :
    dropBlanks cs = cs := by
  cases cs with
  | nil => rfl
  | cons c cs => exact List.dropWhile_cons_of_neg (by simp [h])

theorem trimmed_of_forall {cs : List Char} (h : ∀ c ∈ cs, isBlank c = false) :
    trimmed cs = cs := by
  rw [trimmed, dropBlanks_of_forall h, dropBlanks_of_forall (by simpa using h),
    List.reverse_reverse]

/-- A text is not trimmed of what stands between two marks. -/
theorem trimmed_marks {mark : Char} (h : isBlank mark = false) (cs : List Char) :
    trimmed (mark :: cs ++ [mark]) = mark :: cs ++ [mark] := by
  have hdrop : ∀ ds, dropBlanks (mark :: ds) = mark :: ds := fun ds =>
    List.dropWhile_cons_of_neg (by simp [h])
  rw [trimmed, List.cons_append, hdrop, List.reverse_cons, List.reverse_append,
    List.reverse_singleton, List.singleton_append, List.cons_append, hdrop]
  simp

theorem isBlank_of_isDigit {c : Char} (h : c.isDigit = true) : isBlank c = false := by
  simp only [Char.isDigit, Bool.and_eq_true, decide_eq_true_eq] at h
  have hlow : 48 ≤ c.toNat := h.1
  have hhigh : c.toNat ≤ 57 := h.2
  simp [isBlank]
  omega

theorem toNat_of_isAlpha {c : Char} (h : c.isAlpha = true) :
    (65 ≤ c.toNat ∧ c.toNat ≤ 90) ∨ (97 ≤ c.toNat ∧ c.toNat ≤ 122) := by
  delta Char.isAlpha Char.isUpper Char.isLower at h
  simpa [UInt32.le_iff_toNat_le] using h

theorem isBlank_of_isAlpha {c : Char} (h : c.isAlpha = true) : isBlank c = false := by
  have hc := toNat_of_isAlpha h
  simp [isBlank]
  omega

end Text

namespace Decimal

theorem isDigit_of_mem_digits {n : Nat} {c : Char} (h : c ∈ digits n) : c.isDigit :=
  Nat.isDigit_of_mem_toDigits (by decide) (by decide) h

theorem notMem_digits {c : Char} (h : c.isDigit = false) (n : Nat) : c ∉ digits n := fun hc => by
  rw [isDigit_of_mem_digits hc] at h
  simp at h

theorem unsigned?_digits (n : Nat) : unsigned? (digits n) = some n := by
  unfold unsigned?
  split
  · rename_i cs h
    exact absurd (h ▸ List.mem_cons_self) (notMem_digits (c := '+') rfl n)
  · exact nat?_digits n

end Decimal

end ScriptedAgent
