import ScriptedAgent.Proofs.Run.Exact
import ScriptedAgent.Proofs.Script.Chain

/-!
# Chains come to their reference

The tree of a chain comes to what the reference says (`Chain.exact_expr`). The reference has one
step more, the sum of nothing and the first term, and this cannot be the first that fails: the term
has been worked out before it (`Chain.firstFailing_expr`). So the script of a chain prints the
reference or fails for the first step that does (`Chain.run_script`).
-/

namespace ScriptedAgent.Script

open Stateful

/-! ## What does not fail -/

theorem Step.not_fails_result {n : Int} (h : Number.Fits n) : ¬ (Step.result n).Fails :=
  fun hf => hf.elim id fun ho => ho h

namespace Tally

/-- The term is a number of a script, not below zero. -/
structure Bounded (t : Tally) : Prop where
  nonneg : 0 ≤ t.term
  fits : Number.Fits t.term

variable {t : Tally} {n : Int}

theorem Bounded.fits_quotient (h : t.Bounded) (hn : 0 ≤ n) :
    0 ≤ t.term.tdiv n ∧ Number.Fits (t.term.tdiv n) := by
  obtain ⟨hnonneg, hlow, hhigh⟩ := h
  have hle : t.term.tdiv n ≤ t.term := Int.tdiv_le_self n hnonneg
  have hquotient : 0 ≤ t.term.tdiv n := Int.tdiv_nonneg hnonneg hn
  exact ⟨hquotient, by omega, by omega⟩

theorem next_bounded (h : t.Bounded) (hn : 0 ≤ n) (hfits : Number.Fits n) :
    ∀ {o : Operator}, ¬ (t.step n o).Fails → (t.next n o).Bounded
  | .plus, _ | .minus, _ => ⟨hn, hfits⟩
  | .times, hstep => ⟨Int.mul_nonneg h.nonneg hn, Decidable.not_not.1 fun ho => hstep (.inr ho)⟩
  | .divide, _ => ⟨(h.fits_quotient hn).1, (h.fits_quotient hn).2⟩

end Tally

theorem Step.cause_of_fails {t : Tally} {n : Int} {o : Operator} (h : t.Bounded) (hn : 0 ≤ n)
    (hf : (t.step n o).Fails) :
    (t.step n o).ByZero ∨ ∃ v, t.step n o = .result v ∧ ¬ Number.Fits v := by
  cases o with
  | divide => exact .inl (hf.resolve_right fun ho => ho (h.fits_quotient hn).2)
  | plus | minus | times => exact hf.imp_right fun ho => ⟨_, rfl, ho⟩

/-- A chain fails for a division by zero or for a sum or a product that no script holds. -/
theorem Tally.cause_of_firstFailing {s : Step} : ∀ (links : List Link) (t : Tally), t.Bounded →
    firstFailing (t.steps links) = some s → s.ByZero ∨ ∃ v, s = .result v ∧ ¬ Number.Fits v
  | [], t, _, h => by
    rw [Tally.steps, firstFailing_singleton] at h
    split at h
    · rename_i hf
      cases h
      exact .inr ⟨t.total, rfl, hf.resolve_left id⟩
    · cases h
  | l :: ls, t, ht, h => by
    rw [Tally.steps, firstFailing_cons] at h
    split at h
    · rename_i hf
      cases h
      exact Step.cause_of_fails ht l.literal.value_nonneg hf
    · rename_i hf
      exact cause_of_firstFailing ls _
        (Tally.next_bounded ht l.literal.value_nonneg l.literal.fits hf) h

/-! ## The tree against the reference -/

namespace IntExpr

variable (ρ : Operands)

/-- The sum of an expression before its last term, and this term. -/
def tally : IntExpr → Tally
  | .term t => .start (t.exact ρ)
  | .add e t => ⟨e.exact ρ, 1, t.exact ρ⟩
  | .sub e t => ⟨e.exact ρ, -1, t.exact ρ⟩

/-- The steps of an expression before its last sum. -/
def pending : IntExpr → List Step
  | .term t => t.steps ρ
  | .add e t => e.steps ρ ++ t.steps ρ
  | .sub e t => e.steps ρ ++ t.steps ρ

theorem total_tally (e : IntExpr) : (e.tally ρ).total = e.exact ρ := by
  cases e <;> simp [tally, Tally.total, Tally.start, IntExpr.exact, Int.sub_eq_add_neg]

theorem tally_extend (e : IntExpr) (n : Number) (o : Operator) :
    (e.extend (.const n) o).tally ρ = (e.tally ρ).next n.toInt o := by
  cases o with
  | plus | minus => rw [Tally.next, total_tally]; rfl
  | times | divide => cases e <;> rfl

theorem tally_along : ∀ (links : List Link) (e : IntExpr),
    (e.along links).tally ρ = (e.tally ρ).along links
  | [], e => rfl
  | l :: ls, e => by
    show ((e.extend _ _).along ls).tally ρ = _
    rw [tally_along ls, tally_extend, l.literal.toInt_number]
    rfl

/-- The last sum of an expression is all that is left behind the pending steps. A term alone is no
sum, but it fits. -/
theorem firstFailing_steps {e : IntExpr}
    (h : firstFailing (e.pending ρ) = none → (e.tally ρ).Bounded) :
    firstFailing (e.steps ρ) =
      (firstFailing (e.pending ρ)).or (firstFailing [.result (e.tally ρ).total]) := by
  rw [total_tally]
  cases e with
  | add e t | sub e t => rw [IntExpr.steps, firstFailing_append]; rfl
  | term t =>
    cases hp : firstFailing ((IntExpr.term t).pending ρ) with
    | some s => exact hp
    | none =>
      have hfits : Number.Fits ((IntExpr.term t).exact ρ) := (h hp).fits
      rw [firstFailing_singleton, if_neg (Step.not_fails_result hfits)]
      exact hp

theorem firstFailing_extend {e : IntExpr} (n : Number) (o : Operator)
    (h : firstFailing (e.pending ρ) = none → (e.tally ρ).Bounded) :
    firstFailing ((e.extend (.const n) o).pending ρ) =
      (firstFailing (e.pending ρ)).or (firstFailing [(e.tally ρ).step n.toInt o]) := by
  rw [← firstFailing_append]
  cases o with
  | plus | minus =>
    rw [firstFailing_append, Tally.step, ← firstFailing_steps ρ h]
    exact congrArg firstFailing (List.append_nil _)
  | times | divide =>
    cases e <;> simp [extend, pending, tally, Tally.step, Tally.start, IntTerm.steps,
      IntFactor.steps, IntFactor.exact]

theorem firstFailing_along : ∀ (links : List Link) (e : IntExpr),
    (firstFailing (e.pending ρ) = none → (e.tally ρ).Bounded) →
    firstFailing ((e.along links).steps ρ) =
      (firstFailing (e.pending ρ)).or (firstFailing ((e.tally ρ).steps links))
  | [], _, h => firstFailing_steps ρ h
  | l :: ls, e, h => by
    have hextend := firstFailing_extend ρ l.literal.number l.operator h
    -- The operator keeps the bound, as long as its own step has not failed.
    have hbounded : firstFailing ((e.extend (.const l.literal.number) l.operator).pending ρ) =
        none → ((e.extend (.const l.literal.number) l.operator).tally ρ).Bounded := by
      rw [hextend, tally_extend, l.literal.toInt_number, Option.or_eq_none_iff,
        firstFailing_singleton]
      rintro ⟨hpending, hstep⟩
      have hpasses : ¬ ((e.tally ρ).step l.literal.value l.operator).Fails := by simpa using hstep
      exact Tally.next_bounded (h hpending) l.literal.value_nonneg l.literal.fits hpasses
    show firstFailing (((e.extend _ _).along ls).steps ρ) = _
    rw [firstFailing_along ls _ hbounded, hextend, tally_extend, l.literal.toInt_number,
      Option.or_assoc, ← firstFailing_append]
    rfl

end IntExpr

namespace Chain

variable (c : Chain) (ρ : Operands)

theorem start_bounded : (Tally.start c.first.value).Bounded :=
  ⟨c.first.value_nonneg, c.first.fits⟩

theorem tally_first : (IntExpr.constant c.first.number).tally ρ = .start c.first.value :=
  congrArg Tally.start c.first.toInt_number

theorem exact_expr : c.expr.exact ρ = c.reference := by
  rw [← IntExpr.total_tally, expr, IntExpr.tally_along, tally_first, reference]

theorem firstFailing_expr : firstFailing (c.expr.steps ρ) = firstFailing c.steps := by
  rw [expr, IntExpr.firstFailing_along ρ c.rest _ fun _ => tally_first c ρ ▸ c.start_bounded,
    tally_first]
  rfl

/-! ## The script of a chain -/

theorem eval_expr (T : TypeTable) (m : Machine) :
    Eval.Computes m (c.expr.eval T) c.steps c.reference := by
  have hhold : m.store.operands.Hold T m c.expr.mentions := c.expr_mentions ▸ ⟨nofun, nofun⟩
  have hcomputes := c.expr.eval_computes hhold
  rw [exact_expr] at hcomputes
  unfold Eval.Computes at hcomputes ⊢
  rwa [firstFailing_expr] at hcomputes

theorem run_body (T : TypeTable) (fuel : Nat) (m : Machine) :
    Program.run ⟨T, c.body⟩ fuel m = some (match firstFailing c.steps with
      | none => (.ok (), { m with printed := m.printed.push (toString c.reference) })
      | some s => (.error s.error, m)) := by
  have hcomputes := c.eval_expr T m
  unfold Eval.Computes at hcomputes
  cases hfirst : firstFailing c.steps with
  | none =>
    rw [hfirst] at hcomputes
    obtain ⟨n, hn, hval⟩ := hcomputes
    have hprint : print T (.term (.ofInt c.expr)) m =
        (.ok (), { m with printed := m.printed.push (toString c.reference) }) := by
      simp only [print, StrExpr.eval, StrTerm.eval, bind_apply, hn, pure_apply, modify_apply,
        Number.text, hval]
    simp only [Program.run, body, execBlock, Stmt.exec, settled, hprint]
    rfl
  | some s =>
    rw [hfirst] at hcomputes
    have hprint : print T (.term (.ofInt c.expr)) m = (.error s.error, m) := by
      simp only [print, StrExpr.eval, StrTerm.eval, bind_apply, hcomputes]
    simp only [Program.run, body, execBlock, Stmt.exec, settled, hprint]
    rfl

/-- The script of a chain prints the reference, or it prints nothing and fails: for a division by
zero, or for a sum or a product that does not fit. -/
theorem run_script (base : String) : ∃ p, Program.parse c.script base = .ok p ∧
    (∀ fuel m, p.run fuel m = some (match firstFailing c.steps with
      | none => (.ok (), { m with printed := m.printed.push (toString c.reference) })
      | some s => (.error s.error, m))) ∧
    ∀ s, firstFailing c.steps = some s → s.ByZero ∨ ∃ n, s = .result n ∧ ¬ Number.Fits n :=
  ⟨_, c.parse_script base, c.run_body .empty,
    fun _ => Tally.cause_of_firstFailing c.rest _ c.start_bounded⟩

/-- `10 - 4 * 003` -/
def sample : Chain where
  first := ⟨['1', '0'], ⟨nofun, List.all_eq_true.1 rfl⟩, by decide⟩
  rest := [⟨1, .minus, 1, ['4'], ⟨nofun, List.all_eq_true.1 rfl⟩, by decide⟩,
    ⟨1, .times, 1, ['0', '0', '3'], ⟨nofun, List.all_eq_true.1 rfl⟩, by decide⟩]

example : sample.script = "run\n print strInt(10 - 4 * 003)\nendrun\n" ∧
    sample.reference = -2 := by
  decide +kernel

end Chain

end ScriptedAgent.Script
