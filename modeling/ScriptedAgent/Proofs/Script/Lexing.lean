import ScriptedAgent.Proofs.Script.Spelling

/-!
# The tokens of lines

`Lexer.Passes l ts l'` says that the lexer gives the tokens `ts` on its way from `l` to `l'`; they
are a front part of its stream (`all_of_passes`). A line that is written from tokens is passed with
these tokens and a line break (`passes_line`).
-/

namespace ScriptedAgent.Script

/-- The tokens of a stream without their lines. -/
def TokenStream.bare (s : TokenStream) : List Token := s.tokens.map Located.token

namespace Lexer

inductive Passes : Lexer → List Token → Lexer → Prop
  | here {l l' : Lexer} (h : l.next = l'.next) : Passes l [] l'
  | token {l m l' : Lexer} {t : Located} {ts : List Token} (h : l.next = .ok (t, m))
      (ht : t.token ≠ .eof) (hp : Passes m ts l') : Passes l (t.token :: ts) l'

variable {l l' m : Lexer} {t : Token} {ts us : List Token} {c : Char} {cs rest more : List Char}
  {line depth : Nat} {fresh : Bool}

namespace Passes

theorem refl : Passes l [] l := .here rfl

theorem of_next_eq (h : l.next = m.next) (hp : Passes m ts l') : Passes l ts l' := by
  cases hp with
  | here h' => exact .here (h.trans h')
  | token h' ht hp => exact .token (h.trans h') ht hp

theorem trans (hp : Passes l ts m) (hq : Passes m us l') : Passes l (ts ++ us) l' := by
  induction hp with
  | here h => exact .of_next_eq h hq
  | token h ht _ ih => exact .token h ht (ih hq)

end Passes

/-! ## What is left -/

/-- There is no line break in front of `rest`, with which `cs` ends. -/
def OnLine (rest cs : List Char) : Prop := ∃ front, cs = front ++ rest ∧ '\n' ∉ front

namespace OnLine

theorem refl (cs : List Char) : OnLine cs cs := ⟨[], rfl, nofun⟩

theorem cons (hc : c ≠ '\n') (h : OnLine rest cs) : OnLine rest (c :: cs) := by
  obtain ⟨front, rfl, hfront⟩ := h
  exact ⟨c :: front, rfl, by simp [hc.symm, hfront]⟩

theorem tail (hc : c ≠ '\n') (h : OnLine (c :: rest) cs) : OnLine rest cs := by
  obtain ⟨front, rfl, hfront⟩ := h
  exact ⟨front ++ [c], by simp, by simp [hc.symm, hfront]⟩

theorem suffix (h : OnLine rest cs) : rest <:+ cs := by
  obtain ⟨front, rfl, -⟩ := h
  exact List.suffix_append _ _

end OnLine

theorem run_onLine {p : Char → List Char → Bool} (hline : ∀ cs, p '\n' cs = false) :
    ∀ cs, OnLine (run p cs).2 cs
  | [] => .refl _
  | c :: cs => by
    cases h : p c cs with
    | true =>
      have hc : c ≠ '\n' := by
        rintro rfl
        simp [hline] at h
      rw [run_more h]
      exact (run_onLine hline cs).cons hc
    | false =>
      have hrest : (run p (c :: cs)).2 = c :: cs := congrArg Prod.snd (run_stop h)
      rw [hrest]
      exact .refl _

theorem stringBody_onLine {s : List Char} (h : stringBody cs = .ok (s, rest)) :
    OnLine rest cs := by
  fun_induction stringBody cs generalizing s with
  | case3 cs =>
    cases h
    exact (OnLine.refl _).cons (by decide)
  | case5 cs _ _ ih | case6 cs _ _ _ ih =>
    obtain ⟨_, hbody, ⟨⟩⟩ := exists_of_map_eq_ok h
    exact ((ih hbody).cons (by decide)).cons (by decide)
  | case7 e cs _ _ hmark _ _ ih =>
    obtain ⟨_, hbody, ⟨⟩⟩ := exists_of_map_eq_ok h
    exact ((ih hbody).cons (by rcases hmark with rfl | rfl <;> decide)).cons (by decide)
  | case9 _ cs hline _ _ ih =>
    obtain ⟨_, hbody, ⟨⟩⟩ := exists_of_map_eq_ok h
    exact (ih hbody).cons hline
  | _ => cases h

theorem aliasBody_onLine (h : aliasBody cs = .ok (t, rest)) : OnLine rest cs := by
  unfold aliasBody at h
  split at h
  · rename_i name r hrun
    split at h
    · cases h
    · cases h
      have hr : OnLine ('\'' :: rest) cs := by
        have hr := run_onLine (p := inAlias) (fun _ => rfl) cs
        rwa [hrun] at hr
      exact hr.tail (by decide)
  · cases h

theorem withEqual_onLine {alone together : Symbol} (h : withEqual alone together cs = (t, rest)) :
    OnLine rest cs := by
  unfold withEqual at h
  split at h
  · cases h
    exact (OnLine.refl _).cons (by decide)
  · cases h
    exact .refl _

/-- A token does not go over the end of a line. -/
theorem token_onLine (h : token c cs = .ok (t, rest)) : OnLine rest cs := by
  unfold token at h
  split at h
  · obtain ⟨_, _, ⟨⟩⟩ := exists_of_map_eq_ok h
    exact run_onLine (fun _ => rfl) _
  split at h
  · obtain ⟨_, hbody, ⟨⟩⟩ := exists_of_map_eq_ok h
    exact stringBody_onLine hbody
  split at h
  · exact aliasBody_onLine h
  split at h
  · cases h
    exact run_onLine (fun _ => rfl) _
  split at h
  · exact withEqual_onLine (Except.ok.inj h)
  split at h
  · exact withEqual_onLine (Except.ok.inj h)
  split at h
  · cases h
    exact .refl _
  · cases h

theorem token_suffix (h : token c cs = .ok (t, rest)) : rest <:+ cs := (token_onLine h).suffix

/-! ## Taking tokens -/

theorem beginsToken (h : token c cs = .ok (t, rest)) :
    c ≠ '\n' ∧ c ≠ ' ' ∧ c ≠ '\t' ∧ c ≠ '\r' ∧ c ≠ '#' := by
  refine ⟨?_, ?_, ?_, ?_, ?_⟩ <;> rintro rfl <;> cases h

theorem token_ne_eof (h : token c cs = .ok (t, rest)) : t ≠ .eof := by
  rintro rfl
  exact spelled_of_token h

theorem token_ne_newline (h : token c cs = .ok (t, rest)) : t ≠ .newline := by
  rintro rfl
  unfold token at h
  split at h
  · obtain ⟨_, hnumber, ⟨⟩⟩ := exists_of_map_eq_ok h
    unfold numberToken at hnumber
    split at hnumber
    · cases hnumber
    · split at hnumber <;> cases hnumber
  split at h
  · obtain ⟨_, _, ⟨⟩⟩ := exists_of_map_eq_ok h
  split at h
  · unfold aliasBody at h
    split at h <;> try split at h
    all_goals cases h
  split at h
  · have hword : Token.ofWord (String.ofList (c :: (run inWord cs).1)) = .newline :=
      congrArg Prod.fst (Except.ok.inj h)
    rcases ofWord_cases (String.ofList (c :: (run inWord cs).1)) with
      ⟨_, ht⟩ | ⟨_, ht⟩ | ⟨_, ht⟩ | ht <;> cases ht.symm.trans hword
  split at h
  · unfold withEqual at h
    split at h <;> cases h
  split at h
  · unfold withEqual at h
    split at h <;> cases h
  split at h <;> cases h

theorem next_blank (h : c = ' ' ∨ c = '\t' ∨ c = '\r') :
    next ⟨c :: cs, line, depth, fresh⟩ = next ⟨cs, line, depth, fresh⟩ := by
  rcases h with rfl | rfl | rfl <;> simp [next, skip]

/-- A line break vanishes where no statement can end. -/
theorem next_break (h : 0 < depth ∨ fresh = true) :
    next ⟨'\n' :: cs, line, depth, fresh⟩ = next ⟨cs, line + 1, depth, fresh⟩ := by
  simp [next, skip, h]

theorem next_newline :
    next ⟨'\n' :: cs, line, 0, false⟩ = .ok (⟨.newline, line⟩, ⟨cs, line + 1, 0, true⟩) := by
  simp [next, skip]

theorem next_token (h : token c cs = .ok (t, rest)) : next ⟨c :: cs, line, depth, fresh⟩ =
    .ok (⟨t, line⟩, ⟨rest, line, depthAfter depth t, t.continues⟩) := by
  obtain ⟨hline, hspace, htab, hreturn, hcomment⟩ := beginsToken h
  simp [next, skip, h, hline, hspace, htab, hreturn, hcomment]

theorem next_fault {fault : LexFault} (h : token c cs = .error fault) (hline : c ≠ '\n')
    (hblank : ¬ (c = ' ' ∨ c = '\t' ∨ c = '\r')) (hcomment : c ≠ '#') :
    next ⟨c :: cs, line, depth, fresh⟩ = .error ⟨line, fault⟩ := by
  simp [next, skip, h, hline, hblank, hcomment]

theorem skip_comment (breaks : Bool) : ∀ (cs : List Char) (line : Nat),
    skip breaks true line cs = skip breaks false line (cs.dropWhile (· ≠ '\n'))
  | [], _ => rfl
  | c :: cs, line => by
    by_cases hc : c = '\n'
    · subst hc
      simp [skip]
    · rw [List.dropWhile_cons_of_pos (by simpa using hc), ← skip_comment breaks cs line, skip,
        if_neg hc, if_pos (.inl rfl)]

/-- A comment goes on to the end of its line. -/
theorem next_comment : next ⟨'#' :: cs, line, depth, fresh⟩ =
    next ⟨cs.dropWhile (· ≠ '\n'), line, depth, fresh⟩ := by
  have hskip : ∀ breaks, skip breaks false line ('#' :: cs) =
      skip breaks false line (cs.dropWhile (· ≠ '\n')) := fun breaks => by
    rw [← skip_comment]
    simp [skip]
  simp only [next, hskip]

theorem skip_suffix (breaks : Bool) : ∀ (cs : List Char) (comment : Bool) (line : Nat),
    (skip breaks comment line cs).2 <:+ cs
  | [], _, _ => by simp [skip]
  | c :: cs, comment, line => by
    unfold skip
    split
    · split
      · exact (skip_suffix breaks cs false _).trans (List.suffix_cons _ _)
      · exact List.suffix_refl _
    split
    · exact (skip_suffix breaks cs comment _).trans (List.suffix_cons _ _)
    split
    · exact (skip_suffix breaks cs true _).trans (List.suffix_cons _ _)
    · exact List.suffix_refl _

theorem next_suffix {t : Located} (h : l.next = .ok (t, m)) : m.rest <:+ l.rest := by
  unfold next at h
  have hskip := skip_suffix (0 < l.depth || l.fresh) l.rest false l.line
  split at h <;> rename_i hs <;> rw [hs] at hskip
  · cases h
    exact hskip
  · have hrest := (List.suffix_cons _ _).trans hskip
    split at h
    · cases h
      exact hrest
    split at h
    · cases h
    · rename_i htoken
      cases h
      exact (token_suffix htoken).trans hrest

theorem of_next {t : Located} (h : l.next = .ok (t, m)) (ht : t.token ≠ .eof) :
    Spelled t.token ∧ m.rest.length < l.rest.length := by
  unfold next at h
  have hskip := (skip_suffix (0 < l.depth || l.fresh) l.rest false l.line).length_le
  split at h <;> rename_i hs <;> rw [hs] at hskip
  · cases h
    exact absurd rfl ht
  split at h
  · cases h
    exact ⟨trivial, hskip⟩
  split at h
  · cases h
  · rename_i htoken
    cases h
    have hrest := (token_suffix htoken).length_le
    exact ⟨spelled_of_token htoken, Nat.lt_of_le_of_lt hrest hskip⟩

/-! ## Streams -/

/-- All tokens ahead. -/
def all (l : Lexer) : TokenStream := take (l.rest.length + 1) l

theorem take_eq : ∀ (n k : Nat) {l : Lexer}, l.rest.length < n → l.rest.length < k →
    take n l = take k l
  | n + 1, k + 1, l, hn, hk => by
    unfold take
    split
    · rfl
    · rfl
    · rename_i t m hne hnext
      have ht : t.token ≠ .eof := fun heof => hne t.line (by rw [← heof])
      have hm := (of_next hnext ht).2
      rw [take_eq n k (l := m) (by omega) (by omega)]

theorem all_next (l : Lexer) : all l = match l.next with
    | .error e => ⟨[], .fault e⟩
    | .ok (⟨.eof, line⟩, _) => ⟨[], .eof line⟩
    | .ok (t, m) => ⟨t :: (all m).tokens, (all m).ending⟩ := by
  rw [all, take]
  cases hnext : l.next with
  | error e => rfl
  | ok r =>
    obtain ⟨⟨t, line⟩, m⟩ := r
    cases t with
    | eof => rfl
    | _ =>
      have hm : take l.rest.length m = all m :=
        take_eq _ _ (of_next hnext (by simp)).2 (by omega)
      dsimp only
      rw [hm]

theorem all_eq (h : l.next = m.next) : all l = all m := by
  rw [all_next, h, ← all_next]

theorem all_token {t : Located} (h : l.next = .ok (t, m)) (ht : t.token ≠ .eof) :
    all l = ⟨t :: (all m).tokens, (all m).ending⟩ := by
  rw [all_next, h]
  obtain ⟨token, line⟩ := t
  cases token with
  | eof => exact absurd rfl ht
  | _ => rfl

theorem all_of_passes (hp : Passes l ts l') :
    (all l).bare = ts ++ (all l').bare ∧ (all l).ending = (all l').ending := by
  induction hp with
  | here h => exact ⟨by rw [all_eq h, List.nil_append], by rw [all_eq h]⟩
  | token h ht _ ih =>
    rw [all_token h ht]
    exact ⟨congrArg _ ih.1, ih.2⟩

theorem spelled_take : ∀ (n : Nat) (l : Lexer), ∀ t ∈ (take n l).bare, Spelled t
  | 0, _ => nofun
  | n + 1, l => by
    unfold take
    split
    · exact nofun
    · exact nofun
    · rename_i t m hne hnext
      have ht : t.token ≠ .eof := fun heof => hne t.line (by rw [← heof])
      exact List.forall_mem_cons.2 ⟨(of_next hnext ht).1, spelled_take n m⟩

theorem length_take_le : ∀ (n : Nat) (l : Lexer), (take n l).tokens.length ≤ l.rest.length
  | 0, _ => Nat.zero_le _
  | n + 1, l => by
    unfold take
    split
    · exact Nat.zero_le _
    · exact Nat.zero_le _
    · rename_i t m hne hnext
      have ht : t.token ≠ .eof := fun heof => hne t.line (by rw [← heof])
      exact Nat.lt_of_le_of_lt (length_take_le n m) (of_next hnext ht).2

/-! ## Lines that are written -/

/-- Tokens that can be written and close the brackets they open. -/
structure Balanced (ts : List Token) : Prop where
  writable : ∀ t ∈ ts, t.Writable
  depth : ∀ depth, ts.foldl depthAfter depth = depth

/-- Tokens that fill a line: behind the last of them the line may end. -/
structure Phrase (ts : List Token) : Prop extends Balanced ts where
  ne_nil : ts ≠ []
  ends : (ts.getLast ne_nil).continues = false

/-- Lines of tokens, a line break behind each. -/
def ended (lines : List (List Token)) : List Token := lines.flatMap (· ++ [.newline])

/-- The token that is written comes next, and the text behind it is left. -/
theorem next_chars (ht : t.Writable) (hm : EndsToken more) (line depth : Nat) (fresh : Bool) :
    next ⟨t.chars ++ more, line, depth, fresh⟩ =
      .ok (⟨t, line⟩, ⟨more, line, depthAfter depth t, t.continues⟩) := by
  obtain ⟨c, cs, hchars, htoken⟩ := token_chars ht hm
  rw [hchars]
  exact next_token htoken

/-- A line without a break behind it is its tokens, and all of them stand on it. -/
theorem all_lineChars (line : Nat) : ∀ {ts : List Token} (depth : Nat) (fresh : Bool),
    (∀ t ∈ ts, t.Writable) →
      all ⟨lineChars ts, line, depth, fresh⟩ = ⟨ts.map (⟨·, line⟩), .eof line⟩
  | [], _, _, _ => rfl
  | [t], depth, fresh, h => by
    have ht := h t (by simp)
    have hnext := next_chars ht .nil line depth fresh
    rw [List.append_nil] at hnext
    exact all_token hnext ht.ne_eof
  | t :: u :: ts, depth, fresh, h => by
    obtain ⟨ht, hts⟩ := List.forall_mem_cons.1 h
    have ih := all_lineChars line (depthAfter depth t) t.continues hts
    have hspace : all ⟨' ' :: lineChars (u :: ts), line, depthAfter depth t, t.continues⟩ =
        ⟨(u :: ts).map (⟨·, line⟩), .eof line⟩ := (all_eq (next_blank (.inl rfl))).trans ih
    rw [lineChars, all_token (next_chars ht (.space _) _ _ _) ht.ne_eof, hspace]
    · rfl
    · exact nofun

theorem passes_words (hm : EndsToken more) (line : Nat) : ∀ {ts : List Token} (hne : ts ≠ [])
    (depth : Nat) (fresh : Bool), (∀ t ∈ ts, t.Writable) →
      Passes ⟨lineChars ts ++ more, line, depth, fresh⟩ ts
        ⟨more, line, ts.foldl depthAfter depth, (ts.getLast hne).continues⟩
  | [t], _, depth, fresh, h => by
    have ht := h t (by simp)
    exact .token (next_chars ht hm line depth fresh) ht.ne_eof .refl
  | t :: u :: ts, _, depth, fresh, h => by
    obtain ⟨ht, hts⟩ := List.forall_mem_cons.1 h
    have ih := passes_words hm line (List.cons_ne_nil u ts) (depthAfter depth t) t.continues hts
    show Passes ⟨t.chars ++ ' ' :: lineChars (u :: ts) ++ more, _, _, _⟩ _ _
    rw [List.append_assoc]
    exact .token (next_chars ht (.space _) line depth fresh) ht.ne_eof
      (.of_next_eq (next_blank (.inl rfl)) ih)

theorem passes_line (h : Phrase ts) : Passes ⟨lineChars ts ++ '\n' :: more, line, 0, fresh⟩
    (ts ++ [.newline]) ⟨more, line + 1, 0, true⟩ := by
  have hwords := passes_words (.break more) line h.ne_nil 0 fresh h.writable
  rw [h.depth, h.ends] at hwords
  exact hwords.trans (.token next_newline nofun .refl)

/-- Between brackets the line break is no token. -/
theorem passes_line_of_open (more : List Char) (line : Nat) (fresh : Bool) (h : Phrase ts)
    (hd : 0 < depth) : Passes ⟨lineChars ts ++ '\n' :: more, line, depth, fresh⟩ ts
      ⟨more, line + 1, depth, false⟩ := by
  have hwords := passes_words (.break more) line h.ne_nil depth fresh h.writable
  rw [h.depth, h.ends] at hwords
  simpa using hwords.trans (.here (next_break (.inl hd)))

theorem passes_lines (more : List Char) : ∀ {lines : List (List Token)} (line : Nat)
    (fresh : Bool), (∀ ts ∈ lines, Phrase ts) → ∃ line' fresh',
      Passes ⟨(lines.flatMap fun ts => lineChars ts ++ ['\n']) ++ more, line, 0, fresh⟩
        (ended lines) ⟨more, line', 0, fresh'⟩
  | [], line, fresh, _ => ⟨line, fresh, .refl⟩
  | ts :: lines, line, fresh, h => by
    obtain ⟨hts, hlines⟩ := List.forall_mem_cons.1 h
    obtain ⟨line', fresh', ih⟩ := passes_lines more (line + 1) true hlines
    refine ⟨line', fresh', ?_⟩
    rw [List.flatMap_cons, List.append_assoc, List.append_assoc]
    exact (passes_line hts).trans ih

end Lexer

end ScriptedAgent.Script
