import ScriptedAgent.Proofs.Script.Lexing

/-!
# The tokens of whole lines

No token goes over the end of a line, and the lexer looks one character past a token at most. So
what it makes of whole lines, and of the indentation of the next, does not depend on the text behind
them (`exists_passes_of_opensLine`).
-/

namespace ScriptedAgent.Script

/-- A text that a line break ends, or none at all. -/
def WholeLines (cs : List Char) : Prop := cs = [] ∨ cs.getLast? = some '\n'

instance (cs : List Char) : Decidable (WholeLines cs) :=
  inferInstanceAs (Decidable (_ ∨ _))

/-- A text behind which a line begins, or has begun with no more than blanks. -/
def OpensLine (cs : List Char) : Prop :=
  ∃ lines blanks, cs = lines ++ blanks ∧ WholeLines lines ∧
    ∀ c ∈ blanks, c = ' ' ∨ c = '\t' ∨ c = '\r'

theorem WholeLines.opensLine {cs : List Char} (h : WholeLines cs) : OpensLine cs :=
  ⟨cs, [], (List.append_nil cs).symm, h, nofun⟩

namespace Lexer

variable {c : Char} {cs rest more : List Char} {line : Nat}

theorem wholeLines_of_suffix (h : WholeLines cs) (hr : rest <:+ cs) : WholeLines rest := by
  rcases h with rfl | h
  · exact .inl (List.suffix_nil.1 hr)
  · obtain ⟨front, rfl⟩ := hr
    by_cases hrest : rest = []
    · exact .inl hrest
    · refine .inr ?_
      rwa [List.getLast?_append, List.getLast?_eq_some_getLast hrest, Option.some_or,
        ← List.getLast?_eq_some_getLast hrest] at h

/-- A run that no line break belongs to ends in whole lines, and what is behind them is no matter
to it. -/
theorem run_wholeLines {p : Char → List Char → Bool} (hline : ∀ cs, p '\n' cs = false)
    (hp : ∀ c cs more, cs ≠ [] → p c (cs ++ more) = p c cs) :
    ∀ (cs : List Char), cs.getLast? = some '\n' →
      (run p cs).2 ≠ [] ∧ run p (cs ++ more) = ((run p cs).1, (run p cs).2 ++ more)
  | [c], h => by
    obtain rfl : c = '\n' := by simpa using h
    rw [run_stop (hline _)]
    exact ⟨by simp, run_stop (hline _)⟩
  | c :: d :: cs, h => by
    obtain ⟨hne, ih⟩ := run_wholeLines hline hp (d :: cs) (by simpa using h)
    have hcons := hp c (d :: cs) more (by simp)
    cases hc : p c (d :: cs) with
    | true =>
      rw [List.cons_append, run_more (hcons.trans hc), run_more hc, ih]
      exact ⟨hne, rfl⟩
    | false =>
      rw [List.cons_append, run_stop (hcons.trans hc), run_stop hc]
      exact ⟨by simp, rfl⟩

theorem digitNext_append (h : cs ≠ []) : digitNext (cs ++ more) = digitNext cs := by
  cases cs with
  | nil => exact absurd rfl h
  | cons c cs => rfl

theorem letterNext_append (h : cs ≠ []) : letterNext (cs ++ more) = letterNext cs := by
  cases cs with
  | nil => exact absurd rfl h
  | cons c cs => rfl

theorem run_inNumber_append (h : cs.getLast? = some '\n') :
    run inNumber (cs ++ more) = ((run inNumber cs).1, (run inNumber cs).2 ++ more) :=
  (run_wholeLines (fun _ => rfl) (fun _ _ _ hne => by rw [inNumber, digitNext_append hne]; rfl)
    cs h).2

theorem run_inWord_append (h : cs.getLast? = some '\n') :
    run inWord (cs ++ more) = ((run inWord cs).1, (run inWord cs).2 ++ more) :=
  (run_wholeLines (fun _ => rfl) (fun _ _ _ hne => by rw [inWord, letterNext_append hne]; rfl)
    cs h).2

/-- Behind a character that is no line break, a text that a line break ends has a rest. -/
theorem getLast?_of_cons (h : (c :: cs).getLast? = some '\n') (hc : c ≠ '\n') :
    cs.getLast? = some '\n' := by
  cases cs with
  | nil => exact absurd (by simpa using h) hc
  | cons d ds => simpa using h

theorem stringBody_append (h : cs.getLast? = some '\n') :
    stringBody (cs ++ more) = (stringBody cs).map fun (s, r) => (s, r ++ more) := by
  fun_induction stringBody cs with
  | case1 => cases h
  | case2 cs | case3 cs =>
    rw [List.cons_append, stringBody.eq_def]
    simp [Except.map]
  | case4 => simp at h
  | case5 cs _ _ ih | case6 cs _ _ _ ih =>
    have hcs := getLast?_of_cons (getLast?_of_cons h (by decide)) (by decide)
    rw [List.cons_append, List.cons_append, stringBody.eq_def]
    cases hbody : stringBody cs <;> simp [ih hcs, hbody, Except.map]
  | case7 e cs _ _ hmark _ _ ih =>
    have hcs := getLast?_of_cons (getLast?_of_cons h (by decide))
      (by rcases hmark with rfl | rfl <;> decide)
    rw [List.cons_append, List.cons_append, stringBody.eq_def]
    rcases hmark with rfl | rfl <;>
      cases hbody : stringBody cs <;> simp [ih hcs, hbody, Except.map]
  | case8 e cs hn ht hmark =>
    rw [not_or] at hmark
    rw [List.cons_append, List.cons_append, stringBody.eq_def]
    simp [hn, ht, hmark, Except.map]
  | case9 c cs hline hquote hslash ih =>
    have hcs := getLast?_of_cons h hline
    rw [List.cons_append, stringBody.eq_def]
    cases hbody : stringBody cs <;> simp [ih hcs, hbody, hline, hquote, hslash, Except.map]

theorem aliasBody_append (h : cs.getLast? = some '\n') :
    aliasBody (cs ++ more) = (aliasBody cs).map fun (t, r) => (t, r ++ more) := by
  obtain ⟨hne, hrun⟩ : (run inAlias cs).2 ≠ [] ∧
      run inAlias (cs ++ more) = ((run inAlias cs).1, (run inAlias cs).2 ++ more) :=
    run_wholeLines (fun _ => rfl) (fun _ _ _ _ => rfl) cs h
  rw [aliasBody, aliasBody, hrun]
  generalize run inAlias cs = r at hne
  rcases r with ⟨name, _ | ⟨d, ds⟩⟩
  · exact absurd rfl hne
  · by_cases hd : d = '\''
    · subst hd
      cases name <;> rfl
    · simp [hd, Except.map]

theorem withEqual_append (alone together : Symbol) (h : cs ≠ []) :
    withEqual alone together (cs ++ more) =
      ((withEqual alone together cs).1, (withEqual alone together cs).2 ++ more) := by
  match cs, h with
  | c :: cs, _ =>
    by_cases hc : c = '='
    · subst hc
      rfl
    · simp [withEqual, hc]

theorem token_append (h : cs.getLast? = some '\n') :
    token c (cs ++ more) = (token c cs).map fun (t, r) => (t, r ++ more) := by
  have hne : cs ≠ [] := by
    rintro rfl
    cases h
  unfold token
  rw [digitNext_append hne, run_inNumber_append h, run_inWord_append h, stringBody_append h,
    aliasBody_append h, withEqual_append _ _ hne, withEqual_append _ _ hne]
  split
  · dsimp only
    cases numberToken (c :: (run inNumber cs).1) <;> rfl
  split
  · cases stringBody cs <;> rfl
  split
  · rfl
  split
  · rfl
  split
  · rfl
  split
  · rfl
  split <;> rfl

theorem skip_append_of_cons {breaks comment : Bool} {line' : Nat}
    (h : skip breaks comment line cs = (line', c :: rest)) :
    skip breaks comment line (cs ++ more) = (line', c :: (rest ++ more)) := by
  fun_induction skip breaks comment line cs with
  | case1 => cases h
  | case2 _ _ _ hbreaks ih => rw [List.cons_append, skip, if_pos rfl, if_pos hbreaks, ih h]
  | case3 _ _ _ hbreaks =>
    cases h
    rw [List.cons_append, skip, if_pos rfl, if_neg hbreaks]
  | case4 _ _ _ _ hline hblank ih => rw [List.cons_append, skip, if_neg hline, if_pos hblank, ih h]
  | case5 _ _ _ hline hblank ih =>
    rw [List.cons_append, skip, if_neg hline, if_neg hblank, if_pos rfl, ih h]
  | case6 _ _ _ _ hline hblank hmark =>
    cases h
    rw [List.cons_append, skip, if_neg hline, if_neg hblank, if_neg hmark]

/-- The last line break ends a comment that is still open. -/
theorem skip_append_of_nil {breaks comment : Bool} {line' : Nat} (hw : WholeLines cs)
    (hcomment : comment = true → cs ≠ []) (h : skip breaks comment line cs = (line', [])) :
    skip breaks comment line (cs ++ more) = skip breaks false line' more := by
  have hcons : ∀ {d : Char} {ds : List Char}, WholeLines (d :: ds) → d ≠ '\n' →
      WholeLines ds ∧ ds ≠ [] := fun hw hd => by
    have hlast := getLast?_of_cons (hw.resolve_left (List.cons_ne_nil _ _)) hd
    exact ⟨.inr hlast, by rintro rfl; cases hlast⟩
  fun_induction skip breaks comment line cs with
  | case1 comment =>
    cases comment with
    | true => exact absurd rfl (hcomment rfl)
    | false =>
      cases h
      rfl
  | case2 _ _ cs hbreaks ih =>
    have hcs : WholeLines cs := wholeLines_of_suffix hw (List.suffix_cons _ _)
    rw [List.cons_append, skip, if_pos rfl, if_pos hbreaks, ih hcs (by simp) h]
  | case3 => cases h
  | case4 _ _ _ _ hline hblank ih =>
    obtain ⟨hcs, hne⟩ := hcons hw hline
    rw [List.cons_append, skip, if_neg hline, if_pos hblank, ih hcs (fun _ => hne) h]
  | case5 _ _ _ hline hblank ih =>
    obtain ⟨hcs, hne⟩ := hcons hw hline
    rw [List.cons_append, skip, if_neg hline, if_neg hblank, if_pos rfl, ih hcs (fun _ => hne) h]
  | case6 => cases h

/-- What the next token of whole lines is does not depend on the text behind them. -/
theorem next_wholeLines (line depth : Nat) (fresh : Bool) (hw : WholeLines cs) :
    (∃ line', ∀ more, next ⟨cs ++ more, line, depth, fresh⟩ = next ⟨more, line', depth, fresh⟩) ∨
    (∃ e, ∀ more, next ⟨cs ++ more, line, depth, fresh⟩ = .error e) ∨
    ∃ t rest line' depth' fresh', t.token ≠ .eof ∧ rest.length < cs.length ∧ WholeLines rest ∧
      ∀ more, next ⟨cs ++ more, line, depth, fresh⟩ =
        .ok (t, ⟨rest ++ more, line', depth', fresh'⟩) := by
  rcases hskip : skip (0 < depth || fresh) false line cs with ⟨line', _ | ⟨c, ds⟩⟩
  · refine .inl ⟨line', fun more => ?_⟩
    simp only [next, skip_append_of_nil hw (by simp) hskip]
  · have hsuffix : c :: ds <:+ cs := by
      have h := skip_suffix (0 < depth || fresh) cs false line
      rwa [hskip] at h
    have hskip : ∀ more, skip (0 < depth || fresh) false line (cs ++ more) =
        (line', c :: (ds ++ more)) := fun more => skip_append_of_cons hskip
    have hlength : ds.length < cs.length := hsuffix.length_le
    have hds : WholeLines (c :: ds) := wholeLines_of_suffix hw hsuffix
    by_cases hline : c = '\n'
    · have hne : Token.newline ≠ Token.eof := Token.noConfusion
      refine .inr (.inr ⟨⟨.newline, line'⟩, ds, line' + 1, depth, true, hne, hlength, ?_, ?_⟩)
      · exact wholeLines_of_suffix hds (List.suffix_cons _ _)
      · intro more
        simp only [next, hskip, if_pos hline]
    have hlast := getLast?_of_cons (hds.resolve_left (List.cons_ne_nil _ _)) hline
    cases htoken : token c ds with
    | error e =>
      refine .inr (.inl ⟨⟨line', e⟩, fun more => ?_⟩)
      simp only [next, hskip, if_neg hline, token_append hlast, htoken, Except.map]
    | ok r =>
      obtain ⟨t, rest⟩ := r
      have hrest := token_suffix htoken
      refine .inr (.inr ⟨⟨t, line'⟩, rest, line', depthAfter depth t, t.continues,
        token_ne_eof htoken, Nat.lt_of_le_of_lt hrest.length_le hlength,
        wholeLines_of_suffix (.inr hlast) hrest, fun more => ?_⟩)
      simp only [next, hskip, if_neg hline, token_append hlast, htoken, Except.map]

/-- Whole lines without a fault give tokens of their own. -/
theorem exists_passes_wholeLines {text : List Char} : ∀ (n : Nat) (cs : List Char)
    {line depth : Nat} {fresh : Bool}, cs.length < n → WholeLines cs →
      (∃ k, (all ⟨cs ++ text, line, depth, fresh⟩).ending = .eof k) →
        ∃ ts line' depth' fresh', ∀ more,
          Passes ⟨cs ++ more, line, depth, fresh⟩ ts ⟨more, line', depth', fresh'⟩
  | n + 1, cs, line, depth, fresh, hn, hw, ⟨k, hend⟩ => by
    rcases next_wholeLines line depth fresh hw with ⟨line', hnext⟩ | ⟨e, hnext⟩ |
      ⟨t, rest, line', depth', fresh', ht, hlt, hrest, hnext⟩
    · exact ⟨[], line', depth, fresh, fun more => .here (hnext more)⟩
    · rw [all_next, hnext text] at hend
      cases hend
    · rw [all_token (hnext text) ht] at hend
      obtain ⟨ts, line'', depth'', fresh'', hp⟩ :=
        exists_passes_wholeLines n rest (by omega) hrest ⟨k, hend⟩
      exact ⟨t.token :: ts, line'', depth'', fresh'', fun more => .token (hnext more) ht (hp more)⟩

theorem passes_blanks (more : List Char) (line depth : Nat) (fresh : Bool) : ∀ {cs : List Char},
    (∀ c ∈ cs, c = ' ' ∨ c = '\t' ∨ c = '\r') →
      Passes ⟨cs ++ more, line, depth, fresh⟩ [] ⟨more, line, depth, fresh⟩
  | [], _ => .refl
  | c :: cs, h => by
    obtain ⟨hc, hcs⟩ := List.forall_mem_cons.1 h
    exact .of_next_eq (next_blank hc) (passes_blanks more line depth fresh hcs)

theorem exists_passes_of_opensLine {text : List Char} (h : OpensLine cs) {depth : Nat}
    {fresh : Bool} (hend : ∃ k, (all ⟨cs ++ text, line, depth, fresh⟩).ending = .eof k) :
    ∃ ts line' depth' fresh', ∀ more,
      Passes ⟨cs ++ more, line, depth, fresh⟩ ts ⟨more, line', depth', fresh'⟩ := by
  obtain ⟨lines, blanks, rfl, hlines, hblanks⟩ := h
  rw [List.append_assoc] at hend
  obtain ⟨ts, line', depth', fresh', hp⟩ :=
    exists_passes_wholeLines _ lines (Nat.lt_succ_self _) hlines hend
  refine ⟨ts, line', depth', fresh', fun more => ?_⟩
  rw [List.append_assoc, ← List.append_nil ts]
  exact (hp (blanks ++ more)).trans (passes_blanks more line' depth' fresh' hblanks)

end Lexer

end ScriptedAgent.Script
