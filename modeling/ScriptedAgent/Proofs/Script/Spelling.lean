import ScriptedAgent.Proofs.Text
import ScriptedAgent.Script.Lexer
import ScriptedAgent.Script.Token.Printer

/-!
# The spelling of a token

A token that a line can hold is read back from its spelling, up to the space, the line break or the
end of the text behind it (`token_chars`). An identifier that is read has the form in which one is
written (`spelled_of_token`), so a name read from one text can be written into another.
-/

namespace ScriptedAgent.Script

/-- What stands behind a token of a line: nothing, or a space or the line break and more. -/
def EndsToken (cs : List Char) : Prop := ∀ c ∈ cs.head?, c = ' ' ∨ c = '\n'

theorem EndsToken.nil : EndsToken [] := nofun

theorem EndsToken.space (cs : List Char) : EndsToken (' ' :: cs) := by simp [EndsToken]

theorem EndsToken.break (cs : List Char) : EndsToken ('\n' :: cs) := by simp [EndsToken]

theorem Token.Writable.ne_eof {t : Token} (h : t.Writable) : t ≠ .eof := by
  rintro rfl
  exact h

namespace Lexer

variable {p : Char → List Char → Bool} {c : Char} {cs more : List Char}

/-! ## Runs -/

theorem run_more (h : p c cs = true) :
    run p (c :: cs) = (c :: (run p cs).1, (run p cs).2) := by
  rw [run, if_pos h]

theorem run_stop (h : p c cs = false) : run p (c :: cs) = ([], c :: cs) := by
  rw [run, if_neg (by simp [h])]

theorem run_append {ys : List Char} : ∀ {xs : List Char}, (∀ c ∈ xs, ∀ cs, p c cs = true) →
    run p (xs ++ ys) = (xs ++ (run p ys).1, (run p ys).2)
  | [], _ => rfl
  | c :: xs, h => by
    obtain ⟨hc, hxs⟩ := List.forall_mem_cons.1 h
    rw [List.cons_append, run_more (hc _), run_append hxs]
    rfl

theorem run_all {xs : List Char} (h : ∀ c ∈ xs, ∀ cs, p c cs = true)
    (hm : run p more = ([], more)) : run p (xs ++ more) = (xs, more) := by
  rw [run_append h, hm, List.append_nil]

/-- A mark between two parts belongs to a run if the part behind it makes it so. -/
theorem run_joined {mark : Char} (hm : run p more = ([], more)) :
    ∀ {parts : List (List Char)} {first : List Char}, (∀ d ∈ first, ∀ cs, p d cs = true) →
      (∀ w ∈ parts, (∀ cs, p mark (w ++ cs) = true) ∧ ∀ d ∈ w, ∀ cs, p d cs = true) →
      run p (first ++ parts.flatMap (mark :: ·) ++ more) =
        (first ++ parts.flatMap (mark :: ·), more)
  | [], first, hfirst, _ => by
    rw [List.flatMap_nil, List.append_nil]
    exact run_all hfirst hm
  | w :: ws, first, hfirst, hparts => by
    obtain ⟨⟨hmark, hw⟩, hws⟩ := List.forall_mem_cons.1 hparts
    have ih := run_joined hm hw hws
    rw [List.append_assoc] at ih
    simp only [List.flatMap_cons, List.cons_append, List.append_assoc]
    rw [run_append hfirst, run_more (hmark _), ih]

theorem inWord_of_mem {cs : List Char} (h : ∀ d ∈ cs, d.isAlphanum = true ∨ d = '_') :
    ∀ d ∈ cs, ∀ ds, inWord d ds = true := fun d hd ds => by
  rcases h d hd with h | rfl
  · simp [inWord, isWordChar, h]
  · rfl

theorem inNumber_of_mem {cs : List Char} (h : ∀ d ∈ cs, d.isDigit = true) :
    ∀ d ∈ cs, ∀ ds, inNumber d ds = true := fun d hd ds => by simp [inNumber, h d hd]

/-- A run of characters that are neither a space nor a line break stops at the end of a token. -/
theorem run_of_endsToken (hm : EndsToken more) (hspace : ∀ cs, p ' ' cs = false)
    (hbreak : ∀ cs, p '\n' cs = false) : run p more = ([], more) := by
  cases more with
  | nil => rfl
  | cons c cs =>
    rcases hm c rfl with rfl | rfl
    · exact run_stop (hspace cs)
    · exact run_stop (hbreak cs)

theorem run_hyphenated {first : List Char} {words : List (List Char)} (hm : EndsToken more)
    (hf : ∀ d ∈ first, d.isAlphanum = true ∨ d = '_') (hw : ∀ w ∈ words, IsWord w) :
    run inWord (hyphenated first words ++ more) = (hyphenated first words, more) := by
  have hend := run_of_endsToken (p := inWord) hm (fun _ => rfl) fun _ => rfl
  refine run_joined hend (inWord_of_mem hf) fun w hmem => ?_
  match w, hw w hmem with
  | c :: cs, ⟨hc, hcs⟩ =>
    refine ⟨fun ds => by simp [inWord, letterNext, hc], inWord_of_mem ?_⟩
    exact List.forall_mem_cons.2 ⟨.inl (by simp [Char.isAlphanum, hc]), hcs⟩

theorem run_inNumber_of_endsToken (hm : EndsToken more) : run inNumber more = ([], more) :=
  run_of_endsToken hm (fun _ => rfl) fun _ => rfl

theorem run_dotted {first : List Char} {arcs : List (List Char)} (hm : EndsToken more)
    (hf : ∀ d ∈ first, d.isDigit = true) (ha : ∀ a ∈ arcs, IsNumeral a) :
    run inNumber (first ++ dotted arcs ++ more) = (first ++ dotted arcs, more) := by
  refine run_joined (run_inNumber_of_endsToken hm) (inNumber_of_mem hf) fun a hmem => ?_
  match a, ha a hmem with
  | c :: cs, ⟨_, hcs⟩ =>
    have hc : c.isDigit = true := hcs c List.mem_cons_self
    exact ⟨fun ds => by simp [inNumber, digitNext, hc], inNumber_of_mem hcs⟩

/-! ## Words and symbols -/

theorem isDigit_of_isAlpha (h : c.isAlpha = true) : c.isDigit = false := by
  delta Char.isAlpha Char.isUpper Char.isLower at h
  delta Char.isDigit
  simp only [Bool.or_eq_true, Bool.and_eq_true, decide_eq_true_eq, Bool.and_eq_false_iff,
    decide_eq_false_iff_not, ge_iff_le, UInt32.le_iff_toNat_le] at *
  simp at *
  omega

theorem token_word (h : c.isAlpha = true ∨ c = '_') :
    token c cs = .ok (.ofWord (String.ofList (c :: (run inWord cs).1)), (run inWord cs).2) := by
  have hd : c.isDigit = false := by
    rcases h with h | rfl
    · exact isDigit_of_isAlpha h
    · rfl
  have hne : ∀ d : Char, d.isAlpha = false → d ≠ '_' → c ≠ d := by
    rintro d hd hu rfl
    rcases h with h | h
    · rw [hd] at h
      cases h
    · exact hu h
  unfold token
  rw [if_neg (by simp [hd, hne '.' rfl (by decide)]), if_neg (hne '"' rfl (by decide)),
    if_neg (hne '\'' rfl (by decide)), if_pos h]

theorem token_hyphenated {first : List Char} {words : List (List Char)} (hm : EndsToken more)
    (hc : c.isAlpha = true ∨ c = '_') (hf : ∀ d ∈ first, d.isAlphanum = true ∨ d = '_')
    (hw : ∀ w ∈ words, IsWord w) :
    token c (hyphenated first words ++ more) =
      .ok (.ofWord (String.ofList (hyphenated (c :: first) words)), more) := by
  rw [token_word hc, run_hyphenated hm hf hw]
  rfl

/-- The keywords, kinds and access modes are words of letters. -/
theorem token_letters {s : String} {t : Token} (ht : Token.ofWord s = t)
    (hne : s.toList ≠ []) (h : s.toList.all Char.isAlpha = true) (hm : EndsToken more) :
    ∃ c cs, s.toList = c :: cs ∧ token c (cs ++ more) = .ok (t, more) := by
  obtain ⟨c, cs, heq⟩ := List.exists_cons_of_ne_nil hne
  obtain ⟨hc, hcs⟩ := List.forall_mem_cons.1 (heq ▸ List.all_eq_true.1 h)
  have hcs : ∀ d ∈ cs, d.isAlphanum = true ∨ d = '_' := fun d hd =>
    .inl (by simp [Char.isAlphanum, hcs d hd])
  have htoken : token c (hyphenated cs [] ++ more) = _ := token_hyphenated hm (.inl hc) hcs nofun
  simp only [hyphenated, List.flatMap_nil, List.append_nil, ← heq, String.ofList_toList, ht]
    at htoken
  exact ⟨c, cs, heq, htoken⟩

theorem token_symbol (s : Symbol) (hm : EndsToken more) :
    ∃ c cs, s.chars = c :: cs ∧ token c (cs ++ more) = .ok (.symbol s, more) := by
  cases more with
  | nil => cases s <;> exact ⟨_, _, rfl, rfl⟩
  | cons c cs => rcases hm c rfl with rfl | rfl <;> cases s <;> exact ⟨_, _, rfl, rfl⟩

/-! ## Numbers -/

theorem text_of_nonneg {n : Number} (h : 0 ≤ n.toInt) :
    ∃ k : Nat, n.toInt = k ∧ (Number.text n).toList = Decimal.digits k := by
  obtain ⟨k, hk⟩ := Int.eq_ofNat_of_zero_le h
  refine ⟨k, hk, ?_⟩
  rw [Number.text, hk]
  show (toString k).toList = _
  simp [Decimal.digits, Nat.toList_repr]

theorem signed?_numeral (h : IsNumeral cs) :
    Decimal.signed? cs = some (Nat.ofDigitChars 10 cs 0 : Int) := by
  have hnat : Decimal.nat? cs = some (Nat.ofDigitChars 10 cs 0) :=
    if_pos ⟨h.1, List.all_eq_true.2 h.2⟩
  unfold Decimal.signed?
  split
  · exact absurd (h.2 '-' List.mem_cons_self) (by decide)
  · exact absurd (h.2 '+' List.mem_cons_self) (by decide)
  · rw [hnat]
    rfl

theorem isNumeral_digits (k : Nat) : IsNumeral (Decimal.digits k) :=
  ⟨Nat.toDigits_ne_nil, fun _ => Decimal.isDigit_of_mem_digits⟩

theorem ofText?_digits {n : Number} {k : Nat} (hk : n.toInt = k) :
    Number.ofText? (Decimal.digits k) = some n := by
  have hvalue : Nat.ofDigitChars 10 (Decimal.digits k) 0 = k := Nat.ofDigitChars_ten_toDigits
  rw [Number.ofText?, signed?_numeral (isNumeral_digits k), hvalue, Option.bind_some,
    Number.ofInt?_eq_some_iff, hk]

/-- Digits are read as their number up to a text that does not go on with a number. -/
theorem token_numeral {n : Number} (h : IsNumeral cs) (hn : Number.ofText? cs = some n)
    (hm : run inNumber more = ([], more)) :
    ∃ d ds, cs = d :: ds ∧ token d (ds ++ more) = .ok (.int n, more) := by
  obtain ⟨d, ds, rfl⟩ := List.exists_cons_of_ne_nil h.1
  obtain ⟨hd, hds⟩ := List.forall_mem_cons.1 h.2
  have hpoint : '.' ∉ d :: ds := fun hmem => absurd (h.2 '.' hmem) (by decide)
  have hrun : run inNumber (ds ++ more) = (ds, more) := by
    rw [run_append (inNumber_of_mem hds), hm, List.append_nil]
  have hnumber : numberToken (d :: ds) = .ok (.int n) := by
    rw [numberToken, if_neg hpoint, hn]
  refine ⟨d, ds, rfl, ?_⟩
  rw [token, if_pos (.inl hd), hrun]
  exact congrArg (Except.map _) hnumber

theorem token_digits (hm : EndsToken more) {first : List Char} {arcs : List (List Char)}
    (hc : c.isDigit = true ∨ c = '.' ∧ digitNext (first ++ dotted arcs ++ more) = true)
    (hf : ∀ d ∈ first, d.isDigit = true) (ha : ∀ a ∈ arcs, IsNumeral a) :
    token c (first ++ dotted arcs ++ more) =
      (numberToken (c :: (first ++ dotted arcs))).map fun t => (t, more) := by
  rw [token, if_pos hc, run_dotted hm hf ha]

theorem token_int {n : Number} (h : 0 ≤ n.toInt) (hm : EndsToken more) :
    ∃ c cs, (Number.text n).toList = c :: cs ∧ token c (cs ++ more) = .ok (.int n, more) := by
  obtain ⟨k, hk, htext⟩ := text_of_nonneg h
  rw [htext]
  exact token_numeral (isNumeral_digits k) (ofText?_digits hk) (run_inNumber_of_endsToken hm)

theorem numberToken_point (h : '.' ∈ cs) : numberToken cs = .ok (.oid (String.ofList cs)) := by
  rw [numberToken, if_pos h]

theorem token_oid {s : String} (h : IsOidLiteral s.toList) (hm : EndsToken more) :
    ∃ c cs, s.toList = c :: cs ∧ token c (cs ++ more) = .ok (.oid s, more) := by
  obtain ⟨arcs, harcs, ⟨hne, heq⟩ | ⟨htwo, heq⟩⟩ := h
  · match arcs with
    | a :: arcs =>
      obtain ⟨⟨hne, ha⟩, htail⟩ := List.forall_mem_cons.1 harcs
      obtain ⟨d, ds, rfl⟩ := List.exists_cons_of_ne_nil hne
      have hnext : digitNext (d :: ds ++ dotted arcs ++ more) = true :=
        ha d List.mem_cons_self
      have hlist : s.toList = '.' :: (d :: ds ++ dotted arcs) := heq
      refine ⟨'.', _, hlist, ?_⟩
      rw [token_digits hm (.inr ⟨rfl, hnext⟩) ha htail, numberToken_point List.mem_cons_self,
        ← hlist, String.ofList_toList]
      rfl
  · match arcs with
    | a :: b :: arcs =>
      obtain ⟨⟨hne, ha⟩, htail⟩ := List.forall_mem_cons.1 harcs
      obtain ⟨d, ds, rfl⟩ := List.exists_cons_of_ne_nil hne
      obtain ⟨hd, hds⟩ := List.forall_mem_cons.1 ha
      have hlist : s.toList = d :: (ds ++ dotted (b :: arcs)) := (List.cons.inj heq).2
      have hpoint : '.' ∈ d :: (ds ++ dotted (b :: arcs)) := by simp [dotted]
      refine ⟨d, _, hlist, ?_⟩
      rw [token_digits hm (.inl hd) hds htail, numberToken_point hpoint, ← hlist,
        String.ofList_toList]
      rfl

/-! ## Quoted text -/

theorem stringBody_escaped (c : Char) (cs : List Char) :
    stringBody (escaped c ++ cs) = (stringBody cs).map fun (s, r) => (c :: s, r) := by
  unfold escaped
  split
  · rename_i h
    subst h
    simp [stringBody]
  split
  · rename_i h
    subst h
    simp [stringBody]
  split
  · rename_i h
    rcases h with rfl | rfl <;> simp [stringBody]
  · rename_i hline htab hmark
    rw [not_or] at hmark
    rw [List.singleton_append, stringBody.eq_def]
    simp [hline, hmark]

theorem stringBody_flatMap_escaped : ∀ s : List Char,
    stringBody (s.flatMap escaped ++ '"' :: cs) = .ok (s, cs)
  | [] => by
    rw [List.flatMap_nil, List.nil_append, stringBody.eq_def]
    simp
  | c :: s => by
    rw [List.flatMap_cons, List.append_assoc, stringBody_escaped, stringBody_flatMap_escaped s]
    rfl

theorem token_quote :
    token '"' cs = (stringBody cs).map fun (s, r) => (.str (String.ofList s), r) := by
  rw [token, if_neg (by simp), if_pos rfl]

theorem token_alias {s : String} (h : IsAliasName s.toList) :
    token '\'' (s.toList ++ '\'' :: cs) = .ok (.aliasName s, cs) := by
  have hrun : run inAlias (s.toList ++ '\'' :: cs) = (s.toList, '\'' :: cs) := by
    refine run_all (fun d hd ds => ?_) (run_stop rfl)
    rcases h.2 d hd with h | rfl | rfl
    · simp [inAlias, isWordChar, h]
    · rfl
    · rfl
  rw [token, if_neg (by simp), if_neg (by decide), if_pos rfl, aliasBody, hrun]
  simp [h.1]

/-! ## Tokens -/

/-- A writable token is what its spelling reads as where a token can end behind it. -/
theorem token_chars {t : Token} (ht : t.Writable) (hm : EndsToken more) :
    ∃ c cs, t.chars = c :: cs ∧ token c (cs ++ more) = .ok (t, more) := by
  cases t with
  | ident s =>
    obtain ⟨⟨c, first, words, heq, hc, hf, hw⟩, hword⟩ := ht
    refine ⟨c, hyphenated first words, heq, ?_⟩
    rw [token_hyphenated hm hc hf hw, ← heq, String.ofList_toList, hword]
  | int n => exact token_int ht hm
  | str s =>
    refine ⟨'"', _, rfl, ?_⟩
    show token '"' (s.toList.flatMap escaped ++ ['"'] ++ more) = _
    rw [List.append_assoc, List.singleton_append, token_quote, stringBody_flatMap_escaped]
    simp [Except.map]
  | aliasName s =>
    refine ⟨'\'', _, rfl, ?_⟩
    show token '\'' (s.toList ++ ['\''] ++ more) = _
    rw [List.append_assoc, List.singleton_append, token_alias ht]
  | oid s => exact token_oid ht hm
  | keyword k =>
    exact token_letters (s := k.text) (by cases k <;> decide) (by cases k <;> decide)
      (by cases k <;> rfl) hm
  | kind k =>
    exact token_letters (s := k.keyword) (by cases k <;> decide) (by cases k <;> decide)
      (by cases k <;> rfl) hm
  | access a =>
    exact token_letters (s := a.keyword) (by cases a <;> decide) (by cases a <;> decide)
      (by cases a <;> rfl) hm
  | symbol s => exact token_symbol s hm
  | newline => exact ht.elim
  | eof => exact ht.elim

/-! ## Identifiers that are read -/

theorem exists_of_map_eq_ok {ε α β : Type} {f : α → β} {b : β} :
    ∀ {r : Except ε α}, r.map f = .ok b → ∃ a, r = .ok a ∧ f a = b
  | .ok a, h => ⟨a, rfl, Except.ok.inj h⟩

theorem hyphenated_cons (c : Char) (first : List Char) (words : List (List Char)) :
    hyphenated (c :: first) words = c :: hyphenated first words := rfl

theorem run_inWord_hyphenated : ∀ cs : List Char, ∃ first words,
    (run inWord cs).1 = hyphenated first words ∧
      (∀ d ∈ first, d.isAlphanum = true ∨ d = '_') ∧ ∀ w ∈ words, IsWord w
  | [] => ⟨[], [], rfl, nofun, nofun⟩
  | c :: cs => by
    obtain ⟨first, words, heq, hfirst, hwords⟩ := run_inWord_hyphenated cs
    cases hin : inWord c cs with
    | false => exact ⟨[], [], by rw [run_stop hin]; rfl, nofun, nofun⟩
    | true =>
      have hrun : (run inWord (c :: cs)).1 = c :: hyphenated first words := by
        rw [run_more hin, heq]
      rw [hrun]
      by_cases hc : c.isAlphanum = true ∨ c = '_'
      · exact ⟨c :: first, words, rfl, List.forall_mem_cons.2 ⟨hc, hfirst⟩, hwords⟩
      -- A hyphen: the letter behind it begins the first word of the rest.
      have hmark : c = '-' ∧ letterNext cs = true := by
        rw [not_or] at hc
        simpa [inWord, isWordChar, hc.1, hc.2] using hin
      obtain ⟨rfl, hnext⟩ := hmark
      match cs, hnext with
      | d :: ds, hd =>
        replace hd : d.isAlpha = true := hd
        have hword : inWord d ds = true := by simp [inWord, isWordChar, Char.isAlphanum, hd]
        rw [run_more hword] at heq
        match first, words, heq with
        | e :: first, words, heq =>
          obtain rfl : d = e := (List.cons.inj heq).1
          have htail : ∀ x ∈ first, x.isAlphanum = true ∨ x = '_' := fun x hx =>
            hfirst x (List.mem_cons_of_mem _ hx)
          exact ⟨[], (d :: first) :: words, rfl, nofun,
            List.forall_mem_cons.2 ⟨⟨hd, htail⟩, hwords⟩⟩
        | [], w :: words, heq =>
          obtain rfl : d = '-' := (List.cons.inj heq).1
          cases hd

/-- What a text holds as a token: no end mark, and only identifiers that can be written. -/
def Spelled : Token → Prop
  | .eof => False
  | .ident s => (Token.ident s).Writable
  | _ => True

theorem spelled_numberToken {t : Token} (h : numberToken cs = .ok t) : Spelled t := by
  unfold numberToken at h
  split at h
  · cases h
    trivial
  · split at h <;> cases h
    trivial

theorem ofWord_cases (word : String) : (∃ k, Token.ofWord word = .keyword k) ∨
    (∃ k, Token.ofWord word = .kind k) ∨ (∃ a, Token.ofWord word = .access a) ∨
    Token.ofWord word = .ident word := by
  unfold Token.ofWord
  split
  · exact .inl ⟨_, rfl⟩
  split
  · exact .inr (.inl ⟨_, rfl⟩)
  split
  · exact .inr (.inr (.inl ⟨_, rfl⟩))
  · exact .inr (.inr (.inr rfl))

theorem spelled_ofWord {word : List Char} (h : IsIdentifier word) :
    Spelled (.ofWord (String.ofList word)) := by
  rcases ofWord_cases (String.ofList word) with ⟨_, ht⟩ | ⟨_, ht⟩ | ⟨_, ht⟩ | ht <;> rw [ht]
  · trivial
  · trivial
  · trivial
  · exact ⟨by rwa [String.toList_ofList], ht⟩

theorem spelled_withEqual {alone together : Symbol} {t : Token} {rest : List Char}
    (h : withEqual alone together cs = (t, rest)) : Spelled t := by
  unfold withEqual at h
  split at h <;> cases h <;> trivial

theorem spelled_of_token {t : Token} {rest : List Char} (h : token c cs = .ok (t, rest)) :
    Spelled t := by
  unfold token at h
  split at h
  · obtain ⟨_, hnumber, ⟨⟩⟩ := exists_of_map_eq_ok h
    exact spelled_numberToken hnumber
  split at h
  · obtain ⟨_, _, ⟨⟩⟩ := exists_of_map_eq_ok h
    trivial
  split at h
  · unfold aliasBody at h
    split at h <;> try split at h
    all_goals cases h
    trivial
  split at h
  · rename_i hc
    obtain ⟨first, words, heq, hfirst, hwords⟩ := run_inWord_hyphenated cs
    cases h
    exact spelled_ofWord ⟨c, first, words, by rw [heq, hyphenated_cons], hc, hfirst, hwords⟩
  split at h
  · exact spelled_withEqual (Except.ok.inj h)
  split at h
  · exact spelled_withEqual (Except.ok.inj h)
  split at h <;> cases h
  trivial

end Lexer

end ScriptedAgent.Script
