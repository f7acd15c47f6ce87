import ScriptedAgent.Proofs.Script.Mentions
import ScriptedAgent.Proofs.Script.RoundTrip
import ScriptedAgent.Run.Chain

/-!
# Chains are parsed

The script of a chain is parsed as the tree that grows by one operator after another
(`Chain.parse_script`). An operator of a product goes to the last term of a sum, any other on top.
-/

namespace ScriptedAgent.Script

/-! ## The tree of a chain -/

/-- The expression with one more operator. -/
def IntExpr.extend (e : IntExpr) (f : IntFactor) : Operator → IntExpr
  | .plus => .add e (.factor f)
  | .minus => .sub e (.factor f)
  | .times => match e with
    | .term t => .term (.mul t f)
    | .add e t => .add e (.mul t f)
    | .sub e t => .sub e (.mul t f)
  | .divide => match e with
    | .term t => .term (.div t f)
    | .add e t => .add e (.div t f)
    | .sub e t => .sub e (.div t f)

def IntExpr.along (e : IntExpr) (links : List Link) : IntExpr :=
  links.foldl (fun e l => e.extend (.const l.literal.number) l.operator) e

def Chain.expr (c : Chain) : IntExpr := (IntExpr.constant c.first.number).along c.rest

def Link.tokens (l : Link) : List Token := [.symbol l.operator.symbol, .int l.literal.number]

namespace Literal

variable (l : Literal)

theorem toInt_number : l.number.toInt = l.value := by
  have hfits : Number.Fits l.value := l.fits
  exact Int64.toInt_ofInt_of_le hfits.1 (by have := hfits.2; omega)

theorem value_nonneg : 0 ≤ l.value := Int.natCast_nonneg _

theorem const_expressible : (IntFactor.const l.number).Expressible := by
  rw [IntFactor.Expressible, toInt_number]
  exact l.value_nonneg

end Literal

namespace IntExpr

variable (e : IntExpr) (f : IntFactor) (o : Operator)

theorem tokens_extend : (e.extend f o).tokens = e.tokens ++ .symbol o.symbol :: f.tokens := by
  cases o <;> cases e <;> simp [extend, IntExpr.tokens, IntTerm.tokens, Operator.symbol]

theorem mentions_extend : (e.extend f o).mentions = e.mentions ++ f.mentions := by
  cases o <;> cases e <;> simp [extend, IntExpr.mentions, IntTerm.mentions]

theorem expressible_extend : (e.extend f o).Expressible ↔ e.Expressible ∧ f.Expressible := by
  cases o <;> cases e <;> simp [extend, IntExpr.Expressible, IntTerm.Expressible, and_assoc]

theorem tokens_along : ∀ (links : List Link) (e : IntExpr),
    (e.along links).tokens = e.tokens ++ links.flatMap Link.tokens
  | [], e => (List.append_nil _).symm
  | l :: ls, e => by
    show ((e.extend _ _).along ls).tokens = _
    rw [tokens_along ls, tokens_extend, List.append_assoc]
    rfl

theorem mentions_along : ∀ (links : List Link) (e : IntExpr), (e.along links).mentions = e.mentions
  | [], e => rfl
  | l :: ls, e => by
    show ((e.extend _ _).along ls).mentions = _
    rw [mentions_along ls, mentions_extend]
    exact List.append_nil _

theorem expressible_along : ∀ (links : List Link) (e : IntExpr), e.Expressible →
    (e.along links).Expressible
  | [], _, h => h
  | l :: ls, _, h =>
    expressible_along ls _ ((expressible_extend _ _ _).2 ⟨h, l.literal.const_expressible⟩)

end IntExpr

namespace Chain

variable (c : Chain)

theorem expr_tokens : c.expr.tokens = .int c.first.number :: c.rest.flatMap Link.tokens :=
  IntExpr.tokens_along _ _

theorem expr_mentions : c.expr.mentions = [] := IntExpr.mentions_along _ _

theorem expr_wellKinded (T : TypeTable) : c.expr.WellKinded T := by
  rw [IntExpr.wellKinded_iff, expr_mentions]
  exact nofun

theorem expr_expressible : c.expr.Expressible :=
  IntExpr.expressible_along _ _ c.first.const_expressible

end Chain

/-! ## The text of a chain -/

open Lexer Parse

section

variable {cs more : List Char} {line depth : Nat} {fresh : Bool} {ts : List Token} {l' : Lexer}

theorem passes_spaces (hp : Passes ⟨cs, line, depth, fresh⟩ ts l') (n : Nat) :
    Passes ⟨List.replicate n ' ' ++ cs, line, depth, fresh⟩ ts l' := by
  induction n with
  | zero => exact hp
  | succ n ih => exact .of_next_eq (next_blank (.inl rfl)) ih

theorem passes_operator (o : Operator) (hp : Passes ⟨cs, line, depth, true⟩ ts l') :
    Passes ⟨o.symbol.chars ++ cs, line, depth, fresh⟩ (.symbol o.symbol :: ts) l' := by
  cases o <;> exact .token (next_token rfl) nofun hp

theorem Literal.ofText?_digits (l : Literal) : Number.ofText? l.digits = some l.number := by
  rw [Number.ofText?, signed?_numeral l.numeral, Option.bind_some, Number.ofInt?_eq_some_iff]
  exact l.toInt_number

theorem passes_literal (l : Literal) (hm : run inNumber more = ([], more))
    (hp : Passes ⟨more, line, depth, false⟩ ts l') :
    Passes ⟨l.digits ++ more, line, depth, fresh⟩ (.int l.number :: ts) l' := by
  obtain ⟨c, cs, hcs, htoken⟩ := token_numeral l.numeral l.ofText?_digits hm
  rw [hcs]
  exact .token (next_token htoken) nofun hp

/-- No number goes on over the links and the bracket behind them. -/
theorem run_links : ∀ links : List Link,
    run inNumber (links.flatMap Link.chars ++ ')' :: more) =
      ([], links.flatMap Link.chars ++ ')' :: more)
  | [] => run_stop rfl
  | ⟨k + 1, _, _, _⟩ :: _ => run_stop rfl
  | ⟨0, o, _, _⟩ :: _ => by cases o <;> exact run_stop rfl

theorem passes_links : ∀ links : List Link,
    Passes ⟨links.flatMap Link.chars ++ ')' :: more, line, depth, false⟩
      (links.flatMap Link.tokens) ⟨')' :: more, line, depth, false⟩
  | [] => .refl
  | l :: ls => by
    simp only [List.flatMap_cons, Link.chars, List.append_assoc]
    refine passes_spaces (passes_operator _ (passes_spaces ?_ _)) _
    exact passes_literal _ (run_links ls) (passes_links ls)

end

namespace Chain

variable (c : Chain)

/-- The block of the script. -/
def body : List Stmt := [.print (.term (.ofInt c.expr))]

theorem toList_script : c.script.toList = lineChars [.keyword .run] ++ '\n' ::
    ' ' :: ((Token.keyword .print).chars ++ ' ' :: ((Token.keyword .strInt).chars ++ '(' ::
      (c.chars ++ ')' :: '\n' :: (lineChars [.keyword .endrun] ++ '\n' :: [])))) := by
  have hopen : "run\n print strInt(".toList = lineChars [.keyword .run] ++ '\n' ::
      ' ' :: ((Token.keyword .print).chars ++ ' ' :: ((Token.keyword .strInt).chars ++ ['('])) := by
    decide +kernel
  have hclose : ")\nendrun\n".toList =
      ')' :: '\n' :: (lineChars [.keyword .endrun] ++ '\n' :: []) := by
    decide +kernel
  unfold script
  simp only [String.toList_append, String.toList_ofList]
  simp only [hopen, hclose, List.append_assoc, List.cons_append, List.nil_append]

theorem ended_body : ended (runLines c.body) = .keyword .run :: .newline :: .keyword .print ::
    .keyword .strInt :: .symbol .openParen ::
      (c.expr.tokens ++ [.symbol .closeParen, .newline, .keyword .endrun, .newline]) := by
  rw [ended_runLines, body, blockLines, blockLines, List.append_nil, Stmt.lines, ended_singleton]
  simp [StrExpr.tokens, StrTerm.tokens, bracketed]

theorem passes_chars {fresh : Bool} {more : List Char} :
    Passes ⟨c.chars ++ ')' :: more, 2, 1, fresh⟩ c.expr.tokens ⟨')' :: more, 2, 1, false⟩ := by
  rw [chars, expr_tokens, List.append_assoc]
  exact passes_literal _ (run_links _) (passes_links c.rest)

/-- The text is spent by the tokens of the script. -/
theorem passes_script : Passes (Lexer.start c.script) (ended (runLines c.body))
    ⟨[], 4, 0, true⟩ := by
  have hrun {more : List Char} : Passes ⟨lineChars [.keyword .run] ++ '\n' :: more, 1, 0, true⟩
      [.keyword .run, .newline] ⟨more, 2, 0, true⟩ := passes_line (.keyword .run)
  rw [Lexer.start, toList_script, ended_body]
  refine hrun.trans (.of_next_eq (next_blank (.inl rfl)) ?_)
  refine .token (next_chars (t := .keyword .print) trivial (.space _) _ _ _) nofun ?_
  refine .of_next_eq (next_blank (.inl rfl)) (.token (next_token rfl) nofun ?_)
  refine .token (next_token rfl) nofun (.trans c.passes_chars ?_)
  exact .token (next_token rfl) nofun (.token next_newline nofun (passes_line (.keyword .endrun)))

theorem declarations_reads (base : String) (n : Nat) :
    Reads (declarations base n) [] (pure .empty) (· = .keyword .run) := by
  refine .step (.decline .refl ?_)
  rintro _ rfl
  nofun

theorem parse_script (base : String) : Program.parse c.script base = .ok ⟨.empty, c.body⟩ := by
  obtain ⟨hbare, hend⟩ := all_of_passes c.passes_script
  have hbare : (stream c.script).bare = ended (runLines c.body) := hbare.trans (List.append_nil _)
  have hend : (stream c.script).ending = .eof 4 := hend
  have hlength := congrArg List.length hbare
  rw [ended_runLines] at hbare hlength
  simp only [TokenStream.bare, List.length_map, List.length_cons, List.length_append] at hlength
  have hw : BlockWellKinded .empty c.body := ⟨c.expr_wellKinded .empty, trivial⟩
  have he : BlockExpressible c.body := ⟨c.expr_expressible, trivial⟩
  have hblock := block_reads (N := 16 * ((stream c.script).tokens.length + 1)) c.body hw he
    (by omega)
  exact Program.parse_eq_ok_iff.2
    (Program.read_eq_ok (declarations_reads _ _) hblock hbare hend)

end Chain

end ScriptedAgent.Script
