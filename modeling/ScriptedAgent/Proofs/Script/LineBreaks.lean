import Mathlib.Data.List.Chain
import Mathlib.Data.List.TakeWhile
import Mathlib.Tactic.SplitIfs
import ScriptedAgent.Proofs.Script.Lexing

/-!
# Line breaks and the lines of tokens

A text falls into parts, each of them a blank, a comment, a line break or a lexeme (`divide`). The
division looks at the text alone, and the tokens are given by its parts: a lexeme gives its token,
and a line break gives one where a statement can end (`given`). The lexer, which carries a line, a
count of brackets and a flag along, comes to the same tokens (`all_behind`).
-/

namespace ScriptedAgent.Script

/-! ## Where a statement can end -/

def Token.isOpening : Token → Bool
  | .symbol s => s ∈ [.openParen, .openBracket, .openBrace]
  | _ => false

def Token.isClosing : Token → Bool
  | .symbol s => s ∈ [.closeParen, .closeBracket, .closeBrace]
  | _ => false

/-- All symbols but the brackets and the colon. -/
def Token.isOperatorOrComma (t : Token) : Bool :=
  match t with
  | .symbol s => !(t.isOpening || t.isClosing || s = .colon)
  | _ => false

theorem Token.isOperatorOrComma_eq (t : Token) : t.isOperatorOrComma = t.continues := by
  cases t with
  | symbol s => cases s <;> rfl
  | _ => rfl

/-- How many brackets are open behind tokens. A bracket too many closes nothing. -/
def openBrackets (ts : List Token) : Nat :=
  ts.foldl (fun n t => if t.isOpening then n + 1 else if t.isClosing then n - 1 else n) 0

theorem openBrackets_concat (ts : List Token) (t : Token) : openBrackets (ts ++ [t]) =
    if t.isOpening then openBrackets ts + 1
    else if t.isClosing then openBrackets ts - 1
    else openBrackets ts := by
  simp [openBrackets]

/-- The lexer's table of symbols counts the same. -/
theorem openBrackets_concat_eq (ts : List Token) (t : Token) :
    openBrackets (ts ++ [t]) = Lexer.depthAfter (openBrackets ts) t := by
  rw [openBrackets_concat]
  cases t with
  | symbol s => cases s <;> rfl
  | _ => rfl

theorem Token.isClosing_eq_false {t : Token} (h : t.isOpening = true) : t.isClosing = false := by
  cases t with
  | symbol s => cases s <;> first | rfl | exact absurd h Bool.false_ne_true
  | _ => rfl

/-- More than `n` brackets are open exactly where some of the last tokens open more than `n` that
they do not close. -/
theorem lt_openBrackets_iff (ts : List Token) (n : Nat) : n < openBrackets ts ↔
    ∃ us, us <:+ ts ∧ us.countP Token.isClosing + n < us.countP Token.isOpening := by
  induction ts using List.reverseRecOn generalizing n with
  | nil => simp [openBrackets]
  | append_singleton ts t ih =>
    have hconcat : (∃ us, us <:+ ts ++ [t] ∧
        us.countP Token.isClosing + n < us.countP Token.isOpening) ↔
        ∃ us, us <:+ ts ∧ us.countP Token.isClosing + [t].countP Token.isClosing + n <
          us.countP Token.isOpening + [t].countP Token.isOpening := by
      simp [List.suffix_concat_iff, or_and_right, exists_or]
    rw [hconcat, openBrackets_concat]
    split_ifs with hopening hclosing
    · rcases n with _ | n
      · -- The last token alone will do.
        refine iff_of_true (Nat.succ_pos _) ⟨[], List.nil_suffix, ?_⟩
        simp [hopening, Token.isClosing_eq_false hopening]
      · simp [hopening, Token.isClosing_eq_false hopening, ih, ← Nat.add_assoc]
    · simp [hclosing, hopening, Nat.lt_sub_iff_add_lt, ih, Nat.add_right_comm, ← Nat.add_assoc]
    · simp [hopening, hclosing, ih]

-- What a bracket closes need not be of its kind, and one too many is not made up for.
example : openBrackets [.symbol .closeParen, .symbol .openParen, .symbol .openBracket,
    .symbol .closeBrace] = 1 := by
  decide

/-- The last token leaves nothing to be said on the next line. -/
def Complete (ts : List Token) : Prop :=
  ∃ t ∈ ts.getLast?, t ≠ .newline ∧ t.isOperatorOrComma = false

/-- Behind these tokens a statement can end. -/
def EndsStatement (ts : List Token) : Prop := openBrackets ts = 0 ∧ Complete ts

instance : DecidablePred Complete := fun ts => inferInstanceAs (Decidable (∃ t ∈ ts.getLast?, _))

instance : DecidablePred EndsStatement := fun _ => inferInstanceAs (Decidable (_ ∧ _))

theorem not_endsStatement {ts : List Token} (h : ¬ EndsStatement ts) :
    0 < openBrackets ts ∨ (!decide (Complete ts)) = true := by
  by_cases hopen : openBrackets ts = 0
  · exact .inr (by simpa using fun hcomplete => h ⟨hopen, hcomplete⟩)
  · exact .inl (Nat.pos_of_ne_zero hopen)

theorem complete_concat (ts : List Token) (t : Token) :
    Complete (ts ++ [t]) ↔ t ≠ .newline ∧ t.continues = false := by
  simp [Complete, Token.isOperatorOrComma_eq]

/-! ## Parts of a text -/

inductive Part where
  | blank (c : Char)
  /-- What is noted behind the mark, up to the end of the line. -/
  | comment (note : List Char)
  | lineBreak
  /-- A token and the characters it is written in. -/
  | lexeme (t : Token) (chars : List Char)

def Part.chars : Part → List Char
  | blank c => [c]
  | comment note => '#' :: note
  | lineBreak => ['\n']
  | lexeme _ cs => cs

/-- The line that a text behind these parts begins on. -/
def lineBehind (ps : List Part) : Nat := 1 + (ps.flatMap Part.chars).count '\n'

/-- The tokens of a part on this line, behind those that were given before it. -/
def Part.gives (before : List Token) (line : Nat) : Part → List Located
  | lexeme t _ => [⟨t, line⟩]
  | lineBreak => if EndsStatement before then [⟨.newline, line⟩] else []
  | blank _ => []
  | comment _ => []

/-- The tokens that parts give, the last part being the first here. -/
def givenBy : List Part → List Located
  | [] => []
  | p :: before => givenBy before ++
      p.gives ((givenBy before).map Located.token) (lineBehind before.reverse)

/-- The tokens that parts give. -/
def given (ps : List Part) : List Located := givenBy ps.reverse

/-- The same without their lines. -/
def givenTokens (ps : List Part) : List Token := (given ps).map Located.token

/-- A text in parts up to its end, or up to a token that has a fault. -/
structure Division where
  parts : List Part
  rest : List Char
  fault : Option LexFault

def Division.cons (p : Part) (d : Division) : Division := { d with parts := p :: d.parts }

/-- How the tokens of the text end. -/
def Division.ending (d : Division) : Ending :=
  match d.fault with
  | none => .eof (lineBehind d.parts)
  | some fault => .fault ⟨lineBehind d.parts, fault⟩

open Lexer (token token_onLine)

def divide : List Char → Division
  | [] => ⟨[], [], none⟩
  | c :: cs =>
    if c = '\n' then (divide cs).cons .lineBreak
    else if c = ' ' ∨ c = '\t' ∨ c = '\r' then (divide cs).cons (.blank c)
    else if c = '#' then
      (divide (cs.dropWhile (· ≠ '\n'))).cons (.comment (cs.takeWhile (· ≠ '\n')))
    else match _ : token c cs with
      | .error fault => ⟨[], c :: cs, some fault⟩
      | .ok (t, rest) =>
        (divide rest).cons (.lexeme t ((c :: cs).take (cs.length + 1 - rest.length)))
termination_by cs => cs.length
decreasing_by
  · exact Nat.lt_succ_self _
  · exact Nat.lt_succ_self _
  · exact Nat.lt_succ_of_le (List.dropWhile_sublist _).length_le
  · rename_i h
    exact Nat.lt_succ_of_le (Lexer.token_suffix h).length_le

/-- A part that the lexer passes in front of this text. -/
def Part.Fits (rest : List Char) : Part → Prop
  | blank c => c = ' ' ∨ c = '\t' ∨ c = '\r'
  | comment note => '\n' ∉ note ∧ ∀ c ∈ rest.head?, c = '\n'
  | lineBreak => True
  | lexeme t chars => '\n' ∉ chars ∧ ∃ c cs, chars ++ rest = c :: cs ∧ token c cs = .ok (t, rest)

def Division.text (d : Division) : List Char := d.parts.flatMap Part.chars ++ d.rest

/-- Parts that the lexer passes one by one, and what it finds behind them. -/
inductive Division.Fits : Division → Prop
  | ended : Fits ⟨[], [], none⟩
  | faulty {c : Char} {cs : List Char} {fault : LexFault} (h : token c cs = .error fault)
      (hline : c ≠ '\n') (hblank : ¬ (c = ' ' ∨ c = '\t' ∨ c = '\r')) (hcomment : c ≠ '#') :
      Fits ⟨[], c :: cs, some fault⟩
  | cons {p : Part} {d : Division} (hp : p.Fits d.text) (hd : d.Fits) : Fits (d.cons p)

variable {ps : List Part} {p : Part} {d : Division} {rest : List Char} {t : Token}

theorem Division.text_cons (p : Part) (d : Division) : (d.cons p).text = p.chars ++ d.text := by
  simp [text, cons]

/-- The characters of a token are those in front of what is left. -/
theorem lexeme_fits {c : Char} {cs : List Char} (h : token c cs = .ok (t, rest)) :
    ∃ chars, c :: cs = chars ++ rest ∧ (Part.lexeme t chars).Fits rest ∧
      (c :: cs).take (cs.length + 1 - rest.length) = chars := by
  obtain ⟨front, rfl, hfront⟩ := token_onLine h
  refine ⟨c :: front, rfl, ⟨?_, c, front ++ rest, rfl, h⟩, ?_⟩
  · simpa [hfront] using (Lexer.beginsToken h).1.symm
  · have hlength : (front ++ rest).length + 1 - rest.length = (c :: front).length := by
      simp
      omega
    rw [hlength, ← List.cons_append, List.take_left]

theorem text_divide (cs : List Char) : (divide cs).text = cs := by
  fun_induction divide cs with
  | case1 => rfl
  | case2 cs ih => rw [Division.text_cons, ih, Part.chars, List.singleton_append]
  | case3 c cs _ _ ih => rw [Division.text_cons, ih, Part.chars, List.singleton_append]
  | case4 cs _ _ ih =>
    rw [Division.text_cons, ih, Part.chars, List.cons_append, List.takeWhile_append_dropWhile]
  | case5 => rfl
  | case6 c cs _ _ _ t rest h ih =>
    obtain ⟨chars, hcs, -, hchars⟩ := lexeme_fits h
    rw [Division.text_cons, ih, Part.chars, hchars, hcs]

theorem fits_divide (cs : List Char) : (divide cs).Fits := by
  fun_induction divide cs with
  | case1 => exact .ended
  | case2 cs ih => exact .cons trivial ih
  | case3 c cs _ hblank ih => exact .cons hblank ih
  | case4 cs _ _ ih =>
    refine .cons ⟨fun hmem => ?_, fun c hc => ?_⟩ ih
    · simpa using List.mem_takeWhile_imp hmem
    · rw [text_divide] at hc
      have hhead := List.head?_dropWhile_not (· ≠ '\n') cs
      rw [hc] at hhead
      simpa using hhead
  | case5 c cs hline hblank hcomment fault h => exact .faulty h hline hblank hcomment
  | case6 c cs _ _ _ t rest h ih =>
    obtain ⟨chars, -, hfits, hchars⟩ := lexeme_fits h
    rw [hchars]
    exact .cons (by rwa [text_divide]) ih

/-! ## The lexer behind parts -/

theorem lineBehind_concat (ps : List Part) (p : Part) :
    lineBehind (ps ++ [p]) = lineBehind ps + p.chars.count '\n' := by
  simp [lineBehind, Nat.add_assoc]

theorem given_concat (ps : List Part) (p : Part) :
    given (ps ++ [p]) = given ps ++ p.gives (givenTokens ps) (lineBehind ps) := by
  simp [given, givenBy, givenTokens]

theorem givenTokens_concat (ps : List Part) (p : Part) : givenTokens (ps ++ [p]) =
    givenTokens ps ++ (p.gives (givenTokens ps) (lineBehind ps)).map Located.token := by
  simp [givenTokens, given_concat]

/-- What the lexer carries along when it has passed these parts. -/
def Lexer.behind (ps : List Part) (rest : List Char) : Lexer :=
  ⟨rest, lineBehind ps, openBrackets (givenTokens ps), !decide (Complete (givenTokens ps))⟩

open Lexer (all behind all_eq all_token)

/-- Behind a part that gives no token, only the line may have changed. -/
theorem behind_silent (hgives : p.gives (givenTokens ps) (lineBehind ps) = []) :
    behind (ps ++ [p]) rest =
      { behind ps rest with line := lineBehind ps + p.chars.count '\n' } := by
  simp [behind, lineBehind_concat, givenTokens_concat, hgives]

theorem behind_newline (h : EndsStatement (givenTokens ps)) :
    behind (ps ++ [.lineBreak]) rest = ⟨rest, lineBehind ps + 1, 0, true⟩ := by
  simp [behind, lineBehind_concat, givenTokens_concat, Part.gives, Part.chars,
    openBrackets_concat_eq, complete_concat, h, h.1, Lexer.depthAfter]

theorem behind_lexeme {chars : List Char} (hline : '\n' ∉ chars) (ht : t ≠ .newline) :
    behind (ps ++ [.lexeme t chars]) rest =
      ⟨rest, lineBehind ps, Lexer.depthAfter (openBrackets (givenTokens ps)) t, t.continues⟩ := by
  simp [behind, lineBehind_concat, givenTokens_concat, Part.gives, Part.chars,
    openBrackets_concat_eq, complete_concat, ht, List.count_eq_zero_of_not_mem hline]

/-- A part gives its tokens, and then those behind it come. -/
def Comes (ps : List Part) (p : Part) (rest : List Char) : Prop :=
  all (behind ps (p.chars ++ rest)) =
    ⟨p.gives (givenTokens ps) (lineBehind ps) ++ (all (behind (ps ++ [p]) rest)).tokens,
      (all (behind (ps ++ [p]) rest)).ending⟩

theorem comes_silent (hgives : p.gives (givenTokens ps) (lineBehind ps) = [])
    (hnext : (behind ps (p.chars ++ rest)).next =
      { behind ps rest with line := lineBehind ps + p.chars.count '\n' }.next) :
    Comes ps p rest := by
  rw [Comes, hgives, behind_silent hgives]
  exact all_eq hnext

theorem comes (hp : p.Fits rest) : Comes ps p rest := by
  cases p with
  | blank c =>
    refine comes_silent rfl ?_
    have hcount : [c].count '\n' = 0 := by rcases hp with rfl | rfl | rfl <;> rfl
    rw [Part.chars, hcount]
    exact Lexer.next_blank hp
  | comment note =>
    obtain ⟨hnote, hrest⟩ := hp
    refine comes_silent rfl ?_
    have hcount : ('#' :: note).count '\n' = 0 :=
      List.count_eq_zero_of_not_mem (by simpa using hnote)
    have hdrop : (note ++ rest).dropWhile (· ≠ '\n') = rest := by
      rw [List.dropWhile_append_of_pos (by simpa using fun c hc => ne_of_mem_of_not_mem hc hnote)]
      cases rest with
      | nil => rfl
      | cons c cs => simp [hrest c rfl]
    rw [Part.chars, hcount, List.cons_append, behind, Lexer.next_comment, hdrop]
    rfl
  | lineBreak =>
    by_cases hends : EndsStatement (givenTokens ps)
    · have hbehind : behind ps ('\n' :: rest) = ⟨'\n' :: rest, lineBehind ps, 0, false⟩ := by
        simp [behind, hends.1, hends.2]
      rw [Comes, behind_newline hends, Part.gives, if_pos hends, Part.chars,
        List.singleton_append, hbehind, all_token Lexer.next_newline nofun]
      rfl
    · exact comes_silent (by rw [Part.gives, if_neg hends])
        (Lexer.next_break (not_endsStatement hends))
  | lexeme t chars =>
    obtain ⟨hline, c, cs, hchars, htoken⟩ := hp
    rw [Comes, behind_lexeme hline (Lexer.token_ne_newline htoken), Part.chars, hchars]
    exact all_token (Lexer.next_token htoken) (Lexer.token_ne_eof htoken)

/-- The tokens behind some parts of a text are those that the parts yet to come give. -/
theorem all_behind (hd : d.Fits) : ∀ ps : List Part,
    given ps ++ (all (behind ps d.text)).tokens = given (ps ++ d.parts) ∧
      (all (behind ps d.text)).ending = Division.ending { d with parts := ps ++ d.parts } := by
  induction hd with
  | ended =>
    intro ps
    simp [Division.text, behind, Lexer.all_next, Lexer.next, Lexer.skip, Division.ending]
  | faulty h hline hblank hcomment =>
    intro ps
    simp [Division.text, behind, Lexer.all_next, Lexer.next_fault h hline hblank hcomment,
      Division.ending]
  | @cons p d hp _ ih =>
    intro ps
    obtain ⟨htokens, hending⟩ := ih (ps ++ [p])
    rw [Division.text_cons, (comes hp : _ = _)]
    rw [given_concat, List.append_assoc, List.append_assoc] at htokens
    rw [List.append_assoc] at hending
    exact ⟨htokens, hending⟩

theorem stream_eq (text : String) : Lexer.stream text =
    ⟨given (divide text.toList).parts, (divide text.toList).ending⟩ := by
  have hstart : Lexer.stream text = all (behind [] text.toList) := rfl
  obtain ⟨htokens, hending⟩ := all_behind (fits_divide text.toList) []
  rw [text_divide] at htokens hending
  rw [hstart]
  exact congrArg₂ TokenStream.mk htokens hending

/-! ## Where the line breaks are tokens -/

theorem Division.Fits.exists_fits (hd : d.Fits) : ∀ p ∈ d.parts, ∃ rest, p.Fits rest := by
  induction hd with
  | ended => exact nofun
  | faulty => exact nofun
  | @cons p d hp _ ih => exact List.forall_mem_cons.2 ⟨⟨d.text, hp⟩, ih⟩

theorem Part.Fits.eq_lineBreak (hp : p.Fits rest) (hline : '\n' ∈ p.chars) : p = .lineBreak := by
  cases p with
  | blank c =>
    obtain rfl : '\n' = c := by simpa [Part.chars] using hline
    simp [Part.Fits] at hp
  | comment note => exact absurd (by simpa [Part.chars] using hline) hp.1
  | lineBreak => rfl
  | lexeme t chars => exact absurd hline hp.1

theorem Part.Fits.ne_newline {chars : List Char} (hp : (Part.lexeme t chars).Fits rest) :
    t ≠ .newline := by
  obtain ⟨-, c, cs, -, htoken⟩ := hp
  exact Lexer.token_ne_newline htoken

/-- A part gives one token at most, and a line break only where a statement can end. -/
theorem Part.Fits.gives_cases (hp : p.Fits rest) (before : List Token) (line : Nat) :
    p.gives before line = [] ∨
      ∃ t, p.gives before line = [⟨t, line⟩] ∧ (t = .newline → EndsStatement before) := by
  cases p with
  | blank | comment => exact .inl rfl
  | lineBreak =>
    by_cases hends : EndsStatement before
    · exact .inr ⟨.newline, if_pos hends, fun _ => hends⟩
    · exact .inl (if_neg hends)
  | lexeme t chars => exact .inr ⟨t, rfl, fun ht => absurd ht hp.ne_newline⟩

theorem endsStatement_of_newline {ts us : List Token}
    (hps : ∀ p ∈ ps, ∃ rest, p.Fits rest) (h : givenTokens ps = ts ++ .newline :: us) :
    EndsStatement ts := by
  induction ps using List.reverseRecOn generalizing us with
  | nil => simp [givenTokens, given, givenBy] at h
  | append_singleton ps p ih =>
    have hfront := fun q hq => hps q (List.mem_append_left _ hq)
    obtain ⟨rest, hp⟩ := hps p (by simp)
    rw [givenTokens_concat] at h
    rcases hp.gives_cases (givenTokens ps) (lineBehind ps) with hnone | ⟨t, hone, hends⟩
    · rw [hnone, List.map_nil, List.append_nil] at h
      exact ih hfront h
    · rw [hone, List.map_singleton] at h
      rcases us.eq_nil_or_concat with rfl | ⟨us, u, rfl⟩
      · obtain ⟨rfl, ht⟩ := List.append_inj' h rfl
        exact hends (List.singleton_inj.1 ht)
      · rw [List.concat_eq_append, ← List.cons_append, ← List.append_assoc] at h
        exact ih hfront (List.append_inj' h rfl).1

theorem given_prefix (ps qs : List Part) : given ps <+: given (ps ++ qs) := by
  induction qs using List.reverseRecOn with
  | nil => simp
  | append_singleton qs q ih =>
    rw [← List.append_assoc, given_concat]
    exact ih.trans (List.prefix_append _ _)

/-- A line break is a token exactly where a statement can end, and tokens and faults are on the
lines that their first characters stand on. -/
theorem stream_lineBreaks (text : String) :
    let s := Lexer.stream text
    let d := divide text.toList
    -- The parts are the text, as the lexer passes it, and no line break is inside another part.
    (d.text = text.toList ∧ d.Fits ∧
      (∀ p ∈ d.parts, '\n' ∈ p.chars → p = .lineBreak) ∧
      ∀ t chars, .lexeme t chars ∈ d.parts → t ≠ .newline) ∧
    -- No break is the first token, or behind another one, or behind an operator or a comma, or
    -- between brackets.
    (∀ ts us, s.bare = ts ++ .newline :: us → openBrackets ts = 0 ∧
      ∃ t ∈ ts.getLast?, t ≠ .newline ∧ t.isOperatorOrComma = false) ∧
    -- The tokens are those of the parts, one for every line break in another place.
    (s.tokens = given d.parts ∧
      ∀ ps p qs, d.parts = ps ++ p :: qs →
        given ps ++ p.gives (givenTokens ps) (lineBehind ps) <+: s.tokens) ∧
    s.ending = d.ending := by
  intro s d
  have hs : s = ⟨given d.parts, d.ending⟩ := stream_eq text
  have hd : d.Fits := fits_divide _
  refine ⟨⟨text_divide _, hd, fun p hp => ?_, fun t chars hp => ?_⟩, fun ts us hts => ?_,
    ⟨by rw [hs], fun ps p qs hparts => ?_⟩, by rw [hs]⟩
  · obtain ⟨rest, hfits⟩ := hd.exists_fits p hp
    exact hfits.eq_lineBreak
  · obtain ⟨rest, hfits⟩ := hd.exists_fits _ hp
    exact hfits.ne_newline
  · rw [hs] at hts
    exact endsStatement_of_newline hd.exists_fits hts
  · have hfront := given_prefix (ps ++ [p]) qs
    rw [given_concat, List.append_assoc, List.singleton_append, ← hparts] at hfront
    rwa [hs]

/-- Brackets that nest over line breaks, one that closes nothing, operators in front of a break,
comments and blank lines throughout, and a fault. -/
theorem stream_lineBreaks_nested :
    let text := "\n)\n\nx = ( # (\n[1\n,2]\n)\n # :\n-\n3\n?"
    given (divide text.toList).parts =
      [⟨.symbol .closeParen, 2⟩, ⟨.newline, 2⟩, ⟨.ident "x", 4⟩, ⟨.symbol .equal, 4⟩,
        ⟨.symbol .openParen, 4⟩, ⟨.symbol .openBracket, 5⟩, ⟨.int 1, 5⟩, ⟨.symbol .comma, 6⟩,
        ⟨.int 2, 6⟩, ⟨.symbol .closeBracket, 6⟩, ⟨.symbol .closeParen, 7⟩, ⟨.newline, 7⟩,
        ⟨.symbol .minus, 9⟩, ⟨.int 3, 10⟩, ⟨.newline, 10⟩] ∧
      (divide text.toList).ending = .fault ⟨11, .unrecognised 0x3f⟩ := by
  obtain ⟨-, -, ⟨htokens, -⟩, hending⟩ :=
    stream_lineBreaks "\n)\n\nx = ( # (\n[1\n,2]\n)\n # :\n-\n3\n?"
  exact ⟨htokens.symm.trans (by decide +kernel), hending.symm.trans (by decide +kernel)⟩

end ScriptedAgent.Script
