import ScriptedAgent.Proofs.Script.Lexing
import ScriptedAgent.Proofs.Text.Utf8
import ScriptedAgent.Script.Lexer.Octets

/-!
# Characters and their octets

On the octets of a text the lexer gives the tokens of the text (`OctetLexer.tokenize_utf8`). What it
looks for is ASCII, and a character below 128 is one octet. The first octet of any other character
is not what it looks for, and the octets behind that one are passed wherever the first is, in
strings and in comments.
-/

namespace ScriptedAgent.Script

open Text

/-- The tokens of a text up to the end mark, or the fault in it. -/
def TokenStream.result (s : TokenStream) : Except LexError (List Located) :=
  match s.ending with
  | .eof _ => .ok s.all
  | .fault e => .error e

theorem TokenStream.result_cons (t : Located) (s : TokenStream) :
    TokenStream.result ⟨t :: s.tokens, s.ending⟩ = s.result.map (t :: ·) := by
  obtain ⟨tokens, ending⟩ := s
  cases ending <;> rfl

/-- What is left of a text, as octets. -/
def Lexer.octets (l : Lexer) : OctetLexer := ⟨encoded l.rest, l.line, l.depth, l.fresh⟩

namespace OctetLexer

open Lexer (inNumber inWord inAlias digitNext letterNext numberToken symbol? leadOctet)

variable {c d : Char} {cs : List Char} {b : UInt8} {bs : List UInt8}
  {p : Char → List Char → Bool}

/-! ## Characters beyond ASCII -/

theorem ne_of_le (h : 0x80 ≤ c.toNat) (hd : d.toNat < 0x80) : c ≠ d := by
  rintro rfl
  exact absurd h (Nat.not_le.2 hd)

theorem isDigit_of_le (h : 0x80 ≤ c.toNat) : c.isDigit = false := by
  cases hc : c.isDigit with
  | false => rfl
  | true =>
    have hle : c.toNat ≤ 57 := (by simpa [Char.isDigit] using hc : _ ∧ c.val ≤ 57).2
    omega

theorem isAlpha_of_le (h : 0x80 ≤ c.toNat) : c.isAlpha = false := by
  cases hc : c.isAlpha with
  | false => rfl
  | true =>
    have hletter := toNat_of_isAlpha hc
    omega

theorem isWordChar_of_le (h : 0x80 ≤ c.toNat) : Lexer.isWordChar c = false := by
  have hne : c ≠ '_' := ne_of_le h (by decide)
  simp [Lexer.isWordChar, Char.isAlphanum, isAlpha_of_le h, isDigit_of_le h, hne]

/-! ## First octets -/

theorem toNat_chr (b : UInt8) : (chr b).toNat = b.toNat := by
  have hb := b.toNat_lt
  rw [chr, Char.ofNat, dif_pos (.inl (by omega))]
  rfl

/-- The octets of a character behind its first. -/
def trail (c : Char) : List UInt8 := (String.utf8EncodeChar c).tail

theorem utf8EncodeChar_eq (c : Char) : String.utf8EncodeChar c = leadOctet c :: trail c := by
  obtain ⟨b, bs, h⟩ := List.exists_cons_of_ne_nil (String.utf8EncodeChar_ne_nil (c := c))
  rw [leadOctet, trail, h]
  rfl

theorem encoded_cons (c : Char) (cs : List Char) :
    encoded (c :: cs) = leadOctet c :: (trail c ++ encoded cs) := by
  rw [encoded, List.flatMap_cons, utf8EncodeChar_eq]
  rfl

theorem trail_of_lt (h : c.toNat < 0x80) : trail c = [] := by
  rw [trail, utf8EncodeChar_of_lt h]
  rfl

theorem le_of_mem_trail (h : b ∈ trail c) : 0x80 ≤ b.toNat := by
  by_cases hc : c.toNat < 0x80
  · rw [trail_of_lt hc] at h
    cases h
  · exact le_of_mem_utf8EncodeChar (Nat.le_of_not_lt hc) (List.mem_of_mem_tail h)

theorem chr_leadOctet (h : c.toNat < 0x80) : chr (leadOctet c) = c := by
  have hn : (UInt8.ofNat c.toNat).toNat = c.toNat :=
    UInt8.toNat_ofNat_of_lt' (show c.toNat < 256 by omega)
  rw [leadOctet, utf8EncodeChar_of_lt h, List.head?_cons, Option.getD_some, chr, hn,
    Char.ofNat_toNat]

theorem le_chr_leadOctet (h : 0x80 ≤ c.toNat) : 0x80 ≤ (chr (leadOctet c)).toNat := by
  rw [toNat_chr]
  exact le_of_mem_utf8EncodeChar h (utf8EncodeChar_eq c ▸ List.mem_cons_self)

theorem chr_leadOctet_eq_iff (hd : d.toNat < 0x80) : chr (leadOctet c) = d ↔ c = d := by
  by_cases h : c.toNat < 0x80
  · rw [chr_leadOctet h]
  · have hle := Nat.le_of_not_lt h
    exact iff_of_false (ne_of_le (le_chr_leadOctet hle) hd) (ne_of_le hle hd)

theorem isDigit_leadOctet (c : Char) : (chr (leadOctet c)).isDigit = c.isDigit := by
  by_cases h : c.toNat < 0x80
  · rw [chr_leadOctet h]
  · have hle := Nat.le_of_not_lt h
    rw [isDigit_of_le hle, isDigit_of_le (le_chr_leadOctet hle)]

theorem isAlpha_leadOctet (c : Char) : (chr (leadOctet c)).isAlpha = c.isAlpha := by
  by_cases h : c.toNat < 0x80
  · rw [chr_leadOctet h]
  · have hle := Nat.le_of_not_lt h
    rw [isAlpha_of_le hle, isAlpha_of_le (le_chr_leadOctet hle)]

/-! ## Looking ahead -/

theorem peek_encoded_cons (c : Char) (cs : List Char) :
    peek (encoded (c :: cs)) = [chr (leadOctet c)] := by
  rw [encoded_cons]
  rfl

theorem digitNext_encoded : ∀ cs, digitNext (peek (encoded cs)) = digitNext cs
  | [] => rfl
  | c :: cs => by rw [peek_encoded_cons, digitNext, digitNext, isDigit_leadOctet]

theorem letterNext_encoded : ∀ cs, letterNext (peek (encoded cs)) = letterNext cs
  | [] => rfl
  | c :: cs => by rw [peek_encoded_cons, letterNext, letterNext, isAlpha_leadOctet]

/-! ## Runs -/

/-- What a run takes is ASCII, and it looks at the next octet as at the next character. -/
structure Ascii (p : Char → List Char → Bool) : Prop where
  stop : ∀ c cs, 0x80 ≤ c.toNat → p c cs = false
  peek : ∀ c cs, p c (peek (encoded cs)) = p c cs

theorem ascii_inNumber : Ascii inNumber where
  stop c cs h := by
    have hne : c ≠ '.' := ne_of_le h (by decide)
    simp [inNumber, isDigit_of_le h, hne]
  peek c cs := by rw [inNumber, inNumber, digitNext_encoded]

theorem ascii_inWord : Ascii inWord where
  stop c cs h := by
    have hne : c ≠ '-' := ne_of_le h (by decide)
    simp [inWord, isWordChar_of_le h, hne]
  peek c cs := by rw [inWord, inWord, letterNext_encoded]

theorem ascii_inAlias : Ascii inAlias where
  stop c cs h := by
    have hne : c ≠ '-' := ne_of_le h (by decide)
    simp [inAlias, isWordChar_of_le h, hne]
  peek _ _ := rfl

theorem Ascii.lt (hp : Ascii p) (h : p c cs = true) : c.toNat < 0x80 := by
  refine Nat.lt_of_not_le fun hle => ?_
  rw [hp.stop c cs hle] at h
  cases h

theorem run_encoded (hp : Ascii p) : ∀ cs,
    run p (encoded cs) = (encoded (Lexer.run p cs).1, encoded (Lexer.run p cs).2)
  | [] => rfl
  | c :: cs => by
    cases hc : p c cs with
    | true =>
      have hlt := hp.lt hc
      rw [Lexer.run_more hc, encoded_cons, encoded_cons, trail_of_lt hlt, List.nil_append, run,
        chr_leadOctet hlt, hp.peek, if_pos hc, run_encoded hp cs]
      rfl
    | false =>
      have hstop : p (chr (leadOctet c)) (peek (trail c ++ encoded cs)) = false := by
        by_cases h : c.toNat < 0x80
        · rw [chr_leadOctet h, trail_of_lt h, List.nil_append, hp.peek, hc]
        · exact hp.stop _ _ (le_chr_leadOctet (Nat.le_of_not_lt h))
      rw [Lexer.run_stop hc, encoded_cons, run, if_neg (by simp [hstop])]
      rfl

theorem map_chr_encoded : ∀ {cs : List Char}, (∀ c ∈ cs, c.toNat < 0x80) →
    (encoded cs).map chr = cs
  | [], _ => rfl
  | c :: cs, h => by
    obtain ⟨hc, hcs⟩ := List.forall_mem_cons.1 h
    rw [encoded_cons, trail_of_lt hc, List.nil_append, List.map_cons, chr_leadOctet hc,
      map_chr_encoded hcs]

theorem lt_of_mem_run (hp : Ascii p) : ∀ {cs}, c ∈ (Lexer.run p cs).1 → c.toNat < 0x80
  | d :: cs, h => by
    cases hd : p d cs with
    | true =>
      rw [Lexer.run_more hd, List.mem_cons] at h
      rcases h with rfl | h
      · exact hp.lt hd
      · exact lt_of_mem_run hp h
    | false =>
      rw [Lexer.run_stop hd] at h
      cases h

theorem map_chr_run (hp : Ascii p) (cs : List Char) :
    (run p (encoded cs)).1.map chr = (Lexer.run p cs).1 := by
  rw [run_encoded hp]
  exact map_chr_encoded fun c hc => lt_of_mem_run hp hc

/-! ## Strings and names -/

/-- The octets of a character behind its first stay in a string as they are. -/
theorem stringBody_append (more : List UInt8) : ∀ {bs : List UInt8}, (∀ b ∈ bs, 0x80 ≤ b.toNat) →
    stringBody (bs ++ more) = (stringBody more).map fun (s, r) => (bs ++ s, r)
  | [], _ => by cases h : stringBody more <;> simp [h, Except.map]
  | b :: bs, h => by
    obtain ⟨hb, hbs⟩ := List.forall_mem_cons.1 h
    have hne {d : Char} (hd : d.toNat < 0x80) : chr b ≠ d :=
      ne_of_le ((toNat_chr b).symm ▸ hb) hd
    rw [List.cons_append, stringBody.eq_def]
    simp only [hne (show '\n'.toNat < 0x80 by decide), hne (show '"'.toNat < 0x80 by decide),
      hne (show '\\'.toNat < 0x80 by decide), if_false, stringBody_append more hbs]
    cases stringBody more <;> rfl

/-- A character in front of a string goes over into its octets. -/
theorem map_cons_encoded (c : Char) (x : Except LexFault (List Char × List Char)) :
    (x.map fun (s, r) => (encoded s, encoded r)).map
        (fun (s, r) => (String.utf8EncodeChar c ++ s, r)) =
      (x.map fun (s, r) => (c :: s, r)).map fun (s, r) => (encoded s, encoded r) := by
  cases x <;> rfl

theorem stringBody_escape {e : Char} (ih : stringBody (encoded cs) =
      (Lexer.stringBody cs).map fun (s, r) => (encoded s, encoded r)) :
    stringBody (encoded ('\\' :: e :: cs)) =
      (Lexer.stringBody ('\\' :: e :: cs)).map fun (s, r) => (encoded s, encoded r) := by
  have hn := chr_leadOctet_eq_iff (c := e) (d := 'n') (by decide)
  have ht := chr_leadOctet_eq_iff (c := e) (d := 't') (by decide)
  have hquote := chr_leadOctet_eq_iff (c := e) (d := '"') (by decide)
  have hmark := chr_leadOctet_eq_iff (c := e) (d := '\\') (by decide)
  have henc : encoded ('\\' :: e :: cs) =
      leadOctet '\\' :: leadOctet e :: (trail e ++ encoded cs) := congrArg _ (encoded_cons e cs)
  rw [henc, stringBody.eq_def, Lexer.stringBody.eq_def ('\\' :: e :: cs)]
  simp only [chr_leadOctet (show '\\'.toNat < 0x80 by decide), hn, ht, hquote, hmark, Char.reduceEq,
    if_true, if_false]
  split
  · rename_i h
    subst h
    exact (congrArg (Except.map _) ih).trans (map_cons_encoded '\n' _)
  split
  · rename_i h
    subst h
    exact (congrArg (Except.map _) ih).trans (map_cons_encoded '\t' _)
  split
  · rename_i h
    rcases h with rfl | rfl
    · exact (congrArg (Except.map _) ih).trans (map_cons_encoded '"' _)
    · exact (congrArg (Except.map _) ih).trans (map_cons_encoded '\\' _)
  · rfl

theorem stringBody_encoded : ∀ cs,
    stringBody (encoded cs) = (Lexer.stringBody cs).map fun (s, r) => (encoded s, encoded r)
  | [] => rfl
  | c :: cs => by
    by_cases hmark : c = '\\'
    · subst hmark
      match cs with
      | [] => rfl
      | e :: es => exact stringBody_escape (stringBody_encoded es)
    rw [encoded_cons, stringBody.eq_def (leadOctet c :: _), Lexer.stringBody.eq_def (c :: cs)]
    simp only [chr_leadOctet_eq_iff (c := c) (d := '\n') (by decide),
      chr_leadOctet_eq_iff (c := c) (d := '"') (by decide),
      chr_leadOctet_eq_iff (c := c) (d := '\\') (by decide)]
    split
    · rfl
    split
    · rename_i h
      subst h
      rfl
    · rw [stringBody_append _ fun b => le_of_mem_trail, stringBody_encoded cs, ← map_cons_encoded,
        utf8EncodeChar_eq]
      cases Lexer.stringBody cs <;> rfl

theorem isEmpty_encoded : ∀ cs, (encoded cs).isEmpty = cs.isEmpty
  | [] => rfl
  | c :: cs => by rw [encoded_cons, List.isEmpty_cons, List.isEmpty_cons]

theorem aliasBody_encoded (cs : List Char) :
    aliasBody (encoded cs) = (Lexer.aliasBody cs).map fun (t, r) => (t, encoded r) := by
  rw [aliasBody, Lexer.aliasBody, run_encoded ascii_inAlias]
  obtain ⟨name, rest⟩ := Lexer.run inAlias cs
  cases rest with
  | nil => rfl
  | cons c rest =>
    simp only [encoded_cons, chr_leadOctet_eq_iff (c := c) (d := '\'') (by decide),
      isEmpty_encoded, repaired_encoded]
    by_cases h : c = '\''
    · subst h
      rw [if_pos rfl]
      cases name <;> rfl
    · rw [if_neg h]
      split
      · rename_i heq
        cases heq
        exact absurd rfl h
      · rfl

/-! ## Tokens -/

theorem withEqual_encoded (alone together : Symbol) : ∀ cs,
    withEqual alone together (encoded cs) =
      ((Lexer.withEqual alone together cs).1, encoded (Lexer.withEqual alone together cs).2)
  | [] => rfl
  | c :: cs => by
    by_cases h : c = '='
    · subst h
      rfl
    · have hpeek : peek (encoded (c :: cs)) ≠ ['='] := fun heq => by
        rw [peek_encoded_cons] at heq
        exact h ((chr_leadOctet_eq_iff (by decide)).1 (List.cons.inj heq).1)
      rw [withEqual, if_neg hpeek, Lexer.withEqual]
      exact fun ds heq => h (List.cons.inj heq).1

theorem symbol?_of_le (h : 0x80 ≤ c.toNat) : symbol? c = none := by
  rw [symbol?, List.find?_eq_none]
  intro s _ heq
  have hchars : s.chars = [c] := beq_iff_eq.1 heq
  cases s <;> cases hchars <;> exact absurd h (by decide)

/-- No token begins with a character beyond ASCII. -/
theorem beginsNothing_of_le (h : 0x80 ≤ c.toNat) : c.isDigit = false ∧ c.isAlpha = false ∧
    symbol? c = none ∧ c ≠ '.' ∧ c ≠ '"' ∧ c ≠ '\'' ∧ c ≠ '_' ∧ c ≠ '<' ∧ c ≠ '>' :=
  ⟨isDigit_of_le h, isAlpha_of_le h, symbol?_of_le h, ne_of_le h (by decide),
    ne_of_le h (by decide), ne_of_le h (by decide), ne_of_le h (by decide),
    ne_of_le h (by decide), ne_of_le h (by decide)⟩

theorem token_of_le (h : 0x80 ≤ (chr b).toNat) : token b bs = .error (.unrecognised b) := by
  simp [token, beginsNothing_of_le h]

theorem lexer_token_of_le (h : 0x80 ≤ c.toNat) :
    Lexer.token c cs = .error (.unrecognised (leadOctet c)) := by
  simp [Lexer.token, beginsNothing_of_le h]

/-- The token that begins with a character begins with its first octet. -/
theorem token_encoded (c : Char) (cs : List Char) :
    token (leadOctet c) (trail c ++ encoded cs) =
      (Lexer.token c cs).map fun (t, r) => (t, encoded r) := by
  by_cases h : c.toNat < 0x80
  · rw [trail_of_lt h, List.nil_append, token, Lexer.token, chr_leadOctet h]
    simp only [digitNext_encoded, map_chr_run ascii_inNumber, map_chr_run ascii_inWord]
    split
    · rw [run_encoded ascii_inNumber]
      cases numberToken (c :: (Lexer.run inNumber cs).1) <;> rfl
    split
    · rw [stringBody_encoded]
      cases Lexer.stringBody cs with
      | error e => rfl
      | ok r => simp only [Except.map, repaired_encoded]
    split
    · exact aliasBody_encoded cs
    split
    · rw [run_encoded ascii_inWord]
      rfl
    split
    · rw [withEqual_encoded]
      rfl
    split
    · rw [withEqual_encoded]
      rfl
    · cases symbol? c <;> rfl
  · have hle := Nat.le_of_not_lt h
    rw [token_of_le (le_chr_leadOctet hle), lexer_token_of_le hle]
    rfl

/-! ## Between tokens -/

theorem skip_append (breaks : Bool) (line : Nat) (more : List UInt8) :
    ∀ {bs : List UInt8}, (∀ b ∈ bs, 0x80 ≤ b.toNat) →
      skip breaks true line (bs ++ more) = skip breaks true line more
  | [], _ => rfl
  | b :: bs, h => by
    obtain ⟨hb, hbs⟩ := List.forall_mem_cons.1 h
    have hline : chr b ≠ '\n' := ne_of_le ((toNat_chr b).symm ▸ hb) (by decide)
    rw [List.cons_append, skip, if_neg hline, if_pos (.inl rfl), skip_append breaks line more hbs]

theorem skip_encoded (breaks : Bool) : ∀ (cs : List Char) (comment : Bool) (line : Nat),
    skip breaks comment line (encoded cs) =
      ((Lexer.skip breaks comment line cs).1, encoded (Lexer.skip breaks comment line cs).2)
  | [], _, _ => rfl
  | c :: cs, comment, line => by
    rw [encoded_cons, skip, Lexer.skip]
    simp only [chr_leadOctet_eq_iff (c := c) (d := '\n') (by decide),
      chr_leadOctet_eq_iff (c := c) (d := ' ') (by decide),
      chr_leadOctet_eq_iff (c := c) (d := '\t') (by decide),
      chr_leadOctet_eq_iff (c := c) (d := '\r') (by decide),
      chr_leadOctet_eq_iff (c := c) (d := '#') (by decide)]
    split
    · rename_i h
      subst h
      split
      · exact skip_encoded breaks cs false (line + 1)
      · rfl
    split
    · rename_i h
      rw [← skip_encoded breaks cs comment line]
      rcases h with rfl | rfl | rfl | rfl
      · exact skip_append breaks line _ fun b => le_of_mem_trail
      · rfl
      · rfl
      · rfl
    split
    · rename_i h
      subst h
      exact skip_encoded breaks cs true line
    · rw [encoded_cons]

theorem next_octets (l : Lexer) :
    l.octets.next = l.next.map fun (t, m) => (t, m.octets) := by
  obtain ⟨cs, line, depth, fresh⟩ := l
  rw [next, Lexer.next, Lexer.octets, skip_encoded]
  obtain ⟨line, rest⟩ := Lexer.skip (0 < depth || fresh) false line cs
  cases rest with
  | nil => rfl
  | cons c rest =>
    simp only [encoded_cons, chr_leadOctet_eq_iff (c := c) (d := '\n') (by decide), token_encoded]
    split
    · rename_i h
      subst h
      rfl
    · cases Lexer.token c rest <;> rfl

theorem take_octets : ∀ (n : Nat) {l : Lexer}, l.rest.length < n →
    take n l.octets = l.all.result
  | n + 1, l, h => by
    rw [take, next_octets]
    cases hnext : l.next with
    | error e =>
      rw [Lexer.all_next, hnext]
      rfl
    | ok r =>
      obtain ⟨t, m⟩ := r
      show (if t.token = .eof then .ok [t] else (take n m.octets).map (t :: ·)) = _
      by_cases ht : t.token = .eof
      · obtain ⟨token, line⟩ := t
        cases ht
        rw [Lexer.all_next, hnext]
        rfl
      · have hm := (Lexer.of_next hnext ht).2
        rw [if_neg ht, take_octets n (l := m) (by omega), Lexer.all_token hnext ht,
          TokenStream.result_cons]

theorem length_le_encoded : ∀ cs : List Char, cs.length ≤ (encoded cs).length
  | [] => Nat.le_refl _
  | c :: cs => by
    have ih := length_le_encoded cs
    rw [encoded_cons, List.length_cons, List.length_cons, List.length_append]
    omega

/-- The tokens of a text are those of its octets, and so is the fault in it. -/
theorem tokenize_utf8 (text : String) : tokenize (utf8 text) = (Lexer.stream text).result := by
  have hlength := length_le_encoded text.toList
  rw [utf8_eq, tokenize]
  exact take_octets _ (l := .start text) (by
    show text.toList.length < _
    omega)

/-! ## Lines -/

/-- Tokens that are written on a line are read from it again, from its characters as from its
octets, and all of them stand on line 1. -/
theorem tokenize_lineChars {ts : List Token} (h : ∀ t ∈ ts, t.Writable) :
    tokenize (utf8 (String.ofList (lineChars ts))) = .ok (ts.map (⟨·, 1⟩) ++ [⟨.eof, 1⟩]) ∧
      Lexer.stream (String.ofList (lineChars ts)) = ⟨ts.map (⟨·, 1⟩), .eof 1⟩ := by
  have hstream : Lexer.stream (String.ofList (lineChars ts)) = ⟨ts.map (⟨·, 1⟩), .eof 1⟩ := by
    show Lexer.all ⟨(String.ofList (lineChars ts)).toList, 1, 0, true⟩ = _
    rw [String.toList_ofList, Lexer.all_lineChars 1 0 true h]
  refine ⟨?_, hstream⟩
  rw [tokenize_utf8, hstream]
  rfl

/-- A hyphen in a name and between names, signs that could make one, the greatest integer, two
identifiers, and a string with escapes and with characters of two and of four octets. -/
theorem tokenize_lineChars_neighbours :
    let line := "a-b - x = < <= = 9223372036854775807 .1.03 1.03 '-2' \"ü\\n\\t\\\"\\\\😀\" run"
    let ts : List Token := [.ident "a-b", .symbol .minus, .ident "x", .symbol .equal,
      .symbol .less, .symbol .atMost, .symbol .equal, .int 0x7fffffffffffffff, .oid ".1.03",
      .oid "1.03", .aliasName "-2", .str "ü\n\t\"\\😀", .keyword .run]
    String.ofList (lineChars ts) = line ∧ (∀ t ∈ ts, t.Writable) ∧
      tokenize (utf8 line) = .ok (ts.map (⟨·, 1⟩) ++ [⟨.eof, 1⟩]) ∧
      Lexer.stream line = ⟨ts.map (⟨·, 1⟩), .eof 1⟩ := by
  intro line ts
  have hline : String.ofList (lineChars ts) = line := by decide +kernel
  have hname : (Token.ident "a-b").Writable :=
    ⟨⟨'a', [], [['b']], rfl, .inl rfl, nofun, List.forall_mem_singleton.2 ⟨rfl, nofun⟩⟩,
      by decide +kernel⟩
  have hletter : (Token.ident "x").Writable :=
    ⟨⟨'x', [], [], rfl, .inl rfl, nofun, nofun⟩, by decide +kernel⟩
  have hnumerals : ∀ a ∈ [['1'], ['0', '3']], IsNumeral a := by simp [IsNumeral, Char.isDigit]
  have habsolute : IsOidLiteral ".1.03".toList :=
    ⟨_, hnumerals, .inl ⟨nofun, by decide +kernel⟩⟩
  have hrelative : IsOidLiteral "1.03".toList :=
    ⟨_, hnumerals, .inr ⟨Nat.le_refl 2, by decide +kernel⟩⟩
  have hint : 0 ≤ (0x7fffffffffffffff : Number).toInt := by decide +kernel
  have halias : IsAliasName ['-', '2'] :=
    ⟨nofun, List.forall_mem_cons.2 ⟨.inr (.inr rfl), List.forall_mem_singleton.2 (.inl rfl)⟩⟩
  have hts : ∀ t ∈ ts, t.Writable := by
    simp only [ts, List.forall_mem_cons]
    exact ⟨hname, trivial, hletter, trivial, trivial, trivial, trivial, hint, habsolute,
      hrelative, halias, trivial, trivial, nofun⟩
  obtain ⟨hoctets, hchars⟩ := tokenize_lineChars hts
  rw [hline] at hoctets hchars
  exact ⟨hline, hts, hoctets, hchars⟩

end OctetLexer

end ScriptedAgent.Script
