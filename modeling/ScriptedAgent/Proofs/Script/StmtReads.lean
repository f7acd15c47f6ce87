import ScriptedAgent.Proofs.Script.ExprReads
import ScriptedAgent.Proofs.Script.Lexing
import ScriptedAgent.Script.Stmt.Printer
import ScriptedAgent.Script.Stmt.Reader

/-!
# Printed blocks are read back

The lines of a block that fits the table, in front of a keyword that closes the block, are read as
this block (`block_reads`). A statement has its own line breaks in it; the last one of a branch is
read behind what follows its first arm.
-/

namespace ScriptedAgent.Script

open Parse Lexer

variable {T : TypeTable}

theorem ended_cons (ts : List Token) (lines : List (List Token)) :
    ended (ts :: lines) = ts ++ .newline :: ended lines := by
  rw [ended, List.flatMap_cons, List.append_assoc]
  rfl

theorem ended_append (xs ys : List (List Token)) : ended (xs ++ ys) = ended xs ++ ended ys :=
  List.flatMap_append

/-! ## Simple statements -/

theorem Expr.reads {g : Grammar} {x : String} : ∀ (e : Expr) {n : Nat}, e.WellKinded T g →
    e.Expressible → 2 * e.tokens.length + 4 ≤ n →
      Reads (assigned T n x g) e.tokens (pure e) (Past boolOps)
  | .int e, n, ⟨hg, hw⟩, _, hN => by
    subst hg
    exact ((e.reads hw (by simp only [Expr.tokens] at hN; omega)).map fun _ _ => .refl).weaken
      fun _ => .of_subset (by decide)
  | .bool e, n, ⟨hg, hw⟩, he, hN => by
    subst hg
    exact (e.reads hw he hN).map fun _ _ => .refl
  | .str e, n, ⟨hg, hw⟩, he, hN => by
    subst hg
    exact ((e.reads hw he (by simp only [Expr.tokens] at hN; omega)).map fun _ _ => .refl).weaken
      fun _ => .of_subset (by decide)
  | .bits e, n, ⟨hg, hw⟩, _, hN => by
    subst hg
    exact ((e.reads hw (by simp only [Expr.tokens] at hN; omega)).map fun _ _ => .refl).weaken
      fun _ => .of_subset (by decide)

theorem past_newline (ops : List Symbol) : Past ops .newline := nofun

theorem assignment_reads {target : Target} {e : Expr} {n : Nat}
    (hw : AssignmentWellKinded T target e) (he : e.Expressible)
    (hn : 2 * e.tokens.length + 4 ≤ n) :
    Reads (assignment T n) (target.tokens ++ .symbol .equal :: e.tokens ++ [.newline])
      (pure (.assign target e)) fun _ => True := by
  cases target with
  | var x =>
    obtain ⟨g, hx, hw⟩ := hw
    obtain ⟨k, hk, rfl⟩ := Option.map_eq_some_iff.1 hx
    refine .step (.expectIdent ?_)
    rw [hk]
    have hvalue := e.reads (x := x) hw he hn
    refine .decline (.expect (hvalue.bind (.expect .refl) fun _ _ => past_newline _)) ?_
    exact fun _ _ => nofun
  | field x f =>
    obtain ⟨hx, hw⟩ := hw
    cases e with
    | int e =>
      refine .step (.expectIdent ?_)
      rw [hx.1]
      have hvalue := e.reads (N := n) hw.2 (by simp only [Expr.tokens] at hn; omega)
      refine .accept ((fieldOf_reads hx).bind (.expect ?_) fun _ _ => trivial)
      exact hvalue.bind (.expect .refl) fun _ _ => past_newline _
    | bool e | str e | bits e => exact absurd hw.1 nofun

theorem sleep_reads {e : IntExpr} {unit : TimeUnit} {n : Nat} (hw : e.WellKinded T)
    (hn : 2 * e.tokens.length + 3 ≤ n) :
    Reads (sleep T n) (e.tokens ++ [.keyword unit.keyword, .newline])
      (pure (.sleep e unit)) fun _ => True := by
  have hunit : Past intOps (.keyword unit.keyword) := nofun
  refine .step ((e.reads hw hn).bind (.next ?_) fun _ _ => hunit)
  cases unit with
  | secs => exact .expect .refl
  | msecs => exact .expect .refl

theorem loopControl_reads {n : Nat} : ∀ control : LoopControl, control.WellKinded T →
    control.Expressible → 2 * control.tokens.length + 4 ≤ n →
      Reads (loopControl T n) control.tokens (pure control) (· = .newline)
  | .forever, _, _, _ => .peek_behind fun u hu => by
    subst hu
    exact .refl
  | .times e, hw, _, hn => by
    simp only [LoopControl.tokens, List.length_cons] at hn
    have he := (e.reads (N := n) hw (by omega)).weaken (F := (· = .newline))
      (by rintro _ rfl; exact past_newline _)
    exact .peek (.next (he.map fun _ _ => .refl))
  | .while e, hw, he, hn => by
    have he := (e.reads (N := n) hw he hn).weaken (F := (· = .newline))
      (by rintro _ rfl; exact past_newline _)
    obtain ⟨t, ts, heq, ht⟩ := e.tokens_eq_cons
    refine .peek_of heq ?_
    split
    · exact ht.elim
    · exact ht.elim
    · exact he.map fun _ _ => .refl

/-! ## Blocks -/

theorem ended_singleton (ts : List Token) : ended [ts] = ts ++ [.newline] := ended_cons ts []

theorem ended_branch (cond : BoolExpr) (body : List Stmt) (rest : Branches) :
    ended (Stmt.branch cond body rest).lines = .keyword .if ::
      (cond.tokens ++ .newline :: (ended (blockLines body) ++ ended rest.lines)) := by
  simp [Stmt.lines, ended_cons, ended_append]

theorem ended_loop (control : LoopControl) (body : List Stmt) :
    ended (Stmt.loop control body).lines = .keyword .loop :: (control.tokens ++
      .newline :: (ended (blockLines body) ++ [.keyword .endloop, .newline])) := by
  simp [Stmt.lines, ended_cons, ended_append]
  rfl

theorem ended_else (s : Stmt) (ss : List Stmt) :
    ended (Branches.otherwise (s :: ss)).lines = .keyword .else :: .newline ::
      (ended (blockLines (s :: ss)) ++ [.keyword .endif, .newline]) := by
  simp [Branches.lines, ended_cons, ended_append]
  rfl

theorem ended_elseif (cond : BoolExpr) (body : List Stmt) (rest : Branches) :
    ended (Branches.elseif cond body rest).lines = .keyword .elseif ::
      (cond.tokens ++ .newline :: (ended (blockLines body) ++ ended rest.lines)) := by
  simp [Branches.lines, ended_cons, ended_append]

theorem ended_block_cons (s : Stmt) (ss : List Stmt) :
    ended (blockLines (s :: ss)) = ended s.lines ++ ended (blockLines ss) := by
  rw [blockLines, ended_append]

/-- No statement begins with a token that closes a block. -/
theorem Stmt.lines_eq_cons (s : Stmt) :
    ∃ t ts, ended s.lines = t :: ts ∧ closesBlock t = false ∧ t ≠ .eof := by
  cases s with
  | assign target e => cases target <;> exact ⟨_, _, rfl, rfl, nofun⟩
  | print e | sleep e unit | exit => exact ⟨_, _, rfl, rfl, nofun⟩
  | branch cond body rest => exact ⟨_, _, ended_branch cond body rest, rfl, nofun⟩
  | loop control body => exact ⟨_, _, ended_loop control body, rfl, nofun⟩

/-- An arm of a branch is read behind its keyword, up to the keyword that closes its block. -/
theorem arm_reads {α : Type} {n : Nat} {place : String} {cond : BoolExpr} {body : List Stmt}
    {t : Token} {ts : List Token} {f : BoolExpr → List Stmt → Parse α} {q : Parse α}
    {F : Token → Prop} (hcond : Reads (boolExpr T n) cond.tokens (pure cond) (Past boolOps))
    (hbody : Reads (block T n) (ended (blockLines body)) (pure body) (closesBlock · = true))
    (ht : closesBlock t = true) (hrest : Reads (f cond body) (t :: ts) q F) :
    Reads (do
        let c ← boolExpr T n
        expect .newline place
        let b ← block T n
        f c b)
      (cond.tokens ++ .newline :: (ended (blockLines body) ++ t :: ts)) q F :=
  hcond.bind (.expect (hbody.bind hrest fun _ _ => ht)) fun _ _ => past_newline _

mutual

theorem Stmt.reads : ∀ (s : Stmt) {N : Nat}, s.WellKinded T → s.Expressible →
    2 * (ended s.lines).length ≤ N → Reads (statement T N) (ended s.lines) (pure s) fun _ => True
  | .assign target e, N, hw, he, hN => by
    rw [Stmt.lines, ended_singleton] at hN ⊢
    simp only [List.length_append, List.length_cons] at hN
    obtain ⟨n, rfl⟩ : ∃ n, N = n + 1 := ⟨N - 1, by omega⟩
    have htarget : 1 ≤ target.tokens.length := by cases target <;> simp [Target.tokens]
    have hassign : Reads (assignment T n) _ (pure (.assign target e)) _ :=
      assignment_reads hw he (by omega)
    cases target with
    | var x | field x f => exact .step (.peek hassign)
  | .print e, N, hw, he, hN => by
    rw [Stmt.lines, ended_singleton] at hN ⊢
    simp only [List.length_append, List.length_cons] at hN
    obtain ⟨n, rfl⟩ : ∃ n, N = n + 1 := ⟨N - 1, by omega⟩
    have htext := e.reads (N := n) hw he (by omega)
    exact .step (.peek (.next (htext.bind (.expect .refl) fun _ _ => past_newline _)))
  | .sleep e unit, N, hw, _, hN => by
    rw [Stmt.lines, ended_singleton] at hN ⊢
    simp only [List.length_append, List.length_cons] at hN
    obtain ⟨n, rfl⟩ : ∃ n, N = n + 1 := ⟨N - 1, by omega⟩
    have hsleep : Reads (sleep T n) _ (pure (.sleep e unit)) _ := sleep_reads hw (by omega)
    simp only [List.cons_append, List.append_assoc]
    exact .step (.peek (.next hsleep))
  | .exit, n + 1, _, _, _ => .step (.peek (.next (.expect .refl)))
  | .branch cond body rest, N, hw, he, hN => by
    obtain ⟨hwc, hwb, hwr⟩ := hw
    obtain ⟨hec, heb, her⟩ := he
    rw [ended_branch] at hN ⊢
    simp only [List.length_append, List.length_cons] at hN
    obtain ⟨n, rfl⟩ : ∃ n, N = n + 2 := ⟨N - 2, by omega⟩
    obtain ⟨t, ts, heq, hclose, hrest⟩ := rest.reads (N := n) hwr her (by omega)
    simp only [heq, List.length_append, List.length_cons] at hN
    have hcond := cond.reads (N := n) hwc hec (by omega)
    have hbody := block_reads body (N := n) hwb heb (by omega)
    rw [heq]
    refine .step (.peek (.next (.step (arm_reads hcond hbody hclose ?_))))
    exact hrest.bind (.expect .refl) fun _ _ => trivial
  | .loop control body, N, hw, he, hN => by
    rw [ended_loop] at hN ⊢
    simp only [List.length_append, List.length_cons] at hN
    obtain ⟨n, rfl⟩ : ∃ n, N = n + 2 := ⟨N - 2, by omega⟩
    have hcontrol := loopControl_reads (n := n) control hw.1 he.1 (by omega)
    have hbody := block_reads body (N := n) hw.2 he.2 (by omega)
    refine .step (.peek (.next (.step (hcontrol.bind (.expect ?_) fun _ _ => rfl))))
    exact hbody.bind (.expect (.expect .refl)) fun _ _ => rfl

theorem Branches.reads : ∀ (r : Branches) {N : Nat}, r.WellKinded T → r.Expressible →
    2 * (ended r.lines).length ≤ N → ∃ t ts, ended r.lines = t :: ts ++ [.newline] ∧
      closesBlock t = true ∧ Reads (branches T N) (t :: ts) (pure r) fun _ => True
  | .otherwise [], n + 1, _, _, _ => ⟨.keyword .endif, [], rfl, rfl, .step (.next .refl)⟩
  | .otherwise (s :: ss), N, hw, he, hN => by
    rw [ended_else] at hN ⊢
    simp only [List.length_append, List.length_cons] at hN
    obtain ⟨n, rfl⟩ : ∃ n, N = n + 1 := ⟨N - 1, by omega⟩
    have hbody := block_reads (s :: ss) (N := n) hw he (by omega)
    refine ⟨.keyword .else, .newline :: (ended (blockLines (s :: ss)) ++ [.keyword .endif]),
      by simp, rfl, ?_⟩
    exact .step (.next (.expect (hbody.bind (.expect .refl) fun _ _ => rfl)))
  | .elseif cond body rest, N, hw, he, hN => by
    obtain ⟨hwc, hwb, hwr⟩ := hw
    obtain ⟨hec, heb, her⟩ := he
    rw [ended_elseif] at hN ⊢
    simp only [List.length_append, List.length_cons] at hN
    obtain ⟨n, rfl⟩ : ∃ n, N = n + 1 := ⟨N - 1, by omega⟩
    obtain ⟨t, ts, heq, hclose, hrest⟩ := rest.reads (N := n) hwr her (by omega)
    simp only [heq, List.length_append, List.length_cons] at hN
    have hcond := cond.reads (N := n) hwc hec (by omega)
    have hbody := block_reads body (N := n) hwb heb (by omega)
    refine ⟨.keyword .elseif, cond.tokens ++ .newline :: (ended (blockLines body) ++ t :: ts),
      by simp [heq], rfl, ?_⟩
    exact .step (.next (arm_reads hcond hbody hclose (hrest.map fun _ _ => .refl)))

theorem block_reads : ∀ (body : List Stmt) {N : Nat}, BlockWellKinded T body →
    BlockExpressible body → 2 * (ended (blockLines body)).length + 1 ≤ N →
      Reads (block T N) (ended (blockLines body)) (pure body) (closesBlock · = true)
  | [], n + 1, _, _, _ => .step (.peek_behind fun u hu => by
    rw [if_pos hu]
    exact .refl)
  | s :: ss, n + 1, hw, he, hN => by
    obtain ⟨t, ts, heq, hopen, heof⟩ := s.lines_eq_cons
    rw [ended_block_cons] at hN ⊢
    have hlength := congrArg List.length heq
    simp only [List.length_append, List.length_cons] at hN hlength
    have hs := s.reads (N := n) hw.1 he.1 (by omega)
    have hss := block_reads ss (N := n) hw.2 he.2 (by omega)
    refine .step (.peek_of (congrArg (· ++ _) heq) ?_)
    rw [if_neg (by simp [hopen]), if_neg heof]
    exact hs.bind (hss.map fun _ _ => .refl) fun _ _ => trivial

end

end ScriptedAgent.Script
