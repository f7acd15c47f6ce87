import ScriptedAgent.Proofs.Script.Octets
import ScriptedAgent.Proofs.Stateful
import ScriptedAgent.Script.Program

/-!
# The steps of a parse

A parse pays a credit for each step it takes, and each token brings it 16. There is no path through
the productions on which more credits are due between two tokens, so the steps are bounded by the
tokens (`read_costs`). A production that is given `n` calls and uses them up has taken `n` steps, so
with more calls than steps it comes to an end, and further calls make no difference to it.
-/

namespace ScriptedAgent.Script

/-- The steps taken and the credits that the tokens ahead will bring. -/
def Cursor.potential (c : Cursor) : Nat := c.steps + 16 * c.tokens.length

/-- This token is ahead, unless it marks the end. -/
def Cursor.Sees (c : Cursor) (t : Token) : Prop :=
  t ≠ .eof → ∃ l ls, c.tokens = l :: ls ∧ l.token = t

namespace Parse

open Stateful

variable {α β : Type}

/-- From `c`, `p` pays its steps from `k` credits and from the tokens it takes, and has `r` left if
it succeeds. Where it is not exhausted `q` does the same, and where it is it has taken `n` steps. -/
inductive Spends (n k r : Nat) (p q : Parse α) (c : Cursor) : Prop
  | ok {a : α} {c' : Cursor} (hp : p c = (.ok a, c')) (hq : q c = (.ok a, c'))
      (hsteps : c.steps ≤ c'.steps) (hcredits : c'.potential + r ≤ c.potential + k)
  | fault {e : ScriptError} {c' : Cursor} (hp : p c = (.error (.fault e), c'))
      (hq : q c = (.error (.fault e), c')) (hsteps : c.steps ≤ c'.steps)
      (hcredits : c'.potential ≤ c.potential + k)
  | exhausted {c' : Cursor} (hp : p c = (.error .exhausted, c')) (hsteps : c.steps + n ≤ c'.steps)
      (hcredits : c'.potential ≤ c.potential + k)

/-- Here `p` is a production that is given `n` calls, and `q` the same with more of them. -/
def Costs (n k r : Nat) (p q : Parse α) : Prop := ∀ c, Spends n k r p q c

variable {n j k r s : Nat} {p q : Parse α} {f g : α → Parse β} {c : Cursor} {t : Token}

namespace Spends

/-- What `p` has left is spent behind it. -/
theorem after {a : α} {c' : Cursor} (hp : p c = (.ok a, c')) (hq : q c = (.ok a, c'))
    (hsteps : c.steps ≤ c'.steps) (hcredits : c'.potential + s ≤ c.potential + k)
    (hf : Spends n s r (f a) (g a) c') : Spends n k r (p >>= f) (q >>= g) c := by
  have hbp : (p >>= f) c = f a c' := by rw [bind_apply, hp]
  have hbq : (q >>= g) c = g a c' := by rw [bind_apply, hq]
  cases hf with
  | ok hf hg hsteps' hcredits' =>
    exact .ok (hbp.trans hf) (hbq.trans hg) (by omega) (by omega)
  | fault hf hg hsteps' hcredits' =>
    exact .fault (hbp.trans hf) (hbq.trans hg) (by omega) (by omega)
  | exhausted hf hsteps' hcredits' => exact .exhausted (hbp.trans hf) (by omega) (by omega)

theorem bind (h : Spends n j s p q c) (hj : j ≤ k)
    (hf : ∀ a, Costs n (k - j + s) r (f a) (g a)) : Spends n k r (p >>= f) (q >>= g) c := by
  cases h with
  | @ok a c' hp hq hsteps hcredits => exact after hp hq hsteps (by omega) (hf a c')
  | fault hp hq hsteps hcredits =>
    exact .fault (by rw [bind_apply, hp]) (by rw [bind_apply, hq]) hsteps (by omega)
  | exhausted hp hsteps hcredits =>
    exact .exhausted (by rw [bind_apply, hp]) hsteps (by omega)

theorem mono (h : Spends n j s p q c) (hj : j ≤ k) (hr : r + j ≤ s + k) : Spends n k r p q c := by
  cases h with
  | ok hp hq hsteps hcredits => exact .ok hp hq hsteps (by omega)
  | fault hp hq hsteps hcredits => exact .fault hp hq hsteps (by omega)
  | exhausted hp hsteps hcredits => exact .exhausted hp hsteps (by omega)

/-- A token that has been seen is there to be taken. -/
theorem next {f g : Token → Parse β} (hc : c.Sees t) (ht : t ≠ .eof)
    (hf : Costs n (k + 15) r (f t) (g t)) :
    Spends n k r (Parse.next >>= f) (Parse.next >>= g) c := by
  obtain ⟨l, ls, htokens, rfl⟩ := hc ht
  obtain ⟨tokens, ending, line, previous, steps⟩ := c
  subst htokens
  refine after rfl rfl (Nat.le_succ _) ?_ (hf _)
  simp only [Cursor.potential, List.length_cons]
  omega

end Spends

namespace Costs

theorem pure {a : α} (h : r ≤ k) : Costs n k r (Pure.pure a) (Pure.pure a) :=
  fun _ => .ok rfl rfl (Nat.le_refl _) (Nat.add_le_add_left h _)

theorem throw : Costs 0 k r (MonadExcept.throw .exhausted : Parse α) q :=
  fun _ => .exhausted rfl (Nat.le_refl _) (Nat.le_add_right _ _)

theorem bind (hp : Costs n j s p q) (hj : j ≤ k) (hf : ∀ a, Costs n (k - j + s) r (f a) (g a)) :
    Costs n k r (p >>= f) (q >>= g) :=
  fun c => (hp c).bind hj hf

/-- What is not spent is left. -/
theorem mono (hp : Costs n j s p q) (hj : j ≤ k) (hr : r + j ≤ s + k) : Costs n k r p q :=
  fun c => (hp c).mono hj hr

/-- An operand and the loop behind it, whose last turn is a step and a look at the token ahead. -/
theorem chain (hp : Costs n j s p q) (hf : ∀ a, Costs n 2 0 (f a) (g a)) (hj : j ≤ k)
    (hr : r + j + 2 ≤ s + k) : Costs n k r (p >>= f) (q >>= g) :=
  .bind hp hj fun a => .mono (hf a) (by omega) (by omega)

theorem potential_step (c : Cursor) :
    ({ c with steps := c.steps + 1 } : Cursor).potential = c.potential + 1 := by
  simp only [Cursor.potential]
  omega

/-- A production that uses up one of its calls takes a step for it. -/
theorem step (h : Costs n k r p q) : Costs (n + 1) (k + 1) r (step p) (step q) := by
  intro c
  have hpotential := potential_step c
  cases h { c with steps := c.steps + 1 } with
  | ok hp hq hsteps hcredits =>
    exact .ok hp hq (by dsimp only at hsteps; omega) (by omega)
  | fault hp hq hsteps hcredits =>
    exact .fault hp hq (by dsimp only at hsteps; omega) (by omega)
  | exhausted hp hsteps hcredits =>
    exact .exhausted hp (by dsimp only at hsteps; omega) (by omega)

theorem of_succ (h : Costs (n + 1) k r p q) : Costs n k r p q := by
  intro c
  rcases h c with ⟨hp, hq, hsteps, hcredits⟩ | ⟨hp, hq, hsteps, hcredits⟩ | ⟨hp, hsteps, hcredits⟩
  · exact .ok hp hq hsteps hcredits
  · exact .fault hp hq hsteps hcredits
  · exact .exhausted hp (by omega) hcredits

/-- A step of a procedure that uses up no call. -/
theorem count (h : Costs n k r p q) : Costs n (k + 1) r (Parse.step p) (Parse.step q) :=
  h.step.of_succ

theorem error (e : ParseFault) : Costs n (k + 1) r (error e : Parse α) (Parse.error e) := fun c =>
  .fault rfl rfl (Nat.le_succ _) (by rw [potential_step]; omega)

theorem missing (e : ParseFault) : Costs n (k + 1) r (missing e : Parse α) (Parse.missing e) :=
  fun c => .fault rfl rfl (Nat.le_succ _) (by rw [potential_step]; omega)

/-- The end of the text can be taken any number of times, and brings nothing. -/
theorem next {f g : Token → Parse β} (hf : ∀ t, t ≠ .eof → Costs n (k + 16) r (f t) (g t))
    (heof : Costs n k r (f .eof) (g .eof)) : Costs n (k + 1) r (next >>= f) (Parse.next >>= g) := by
  have htaken : ∀ t, ∃ s ≤ k + 16, Costs n s r (f t) (g t) := fun t => by
    by_cases ht : t = .eof
    · exact ⟨k, Nat.le_add_right k 16, ht ▸ heof⟩
    · exact ⟨k + 16, Nat.le_refl _, hf t ht⟩
  rintro ⟨_ | ⟨l, ls⟩, ending | e, line, previous, steps⟩
  · refine .after rfl rfl (Nat.le_succ _) ?_ (heof _)
    simp only [Cursor.potential]
    omega
  · exact .fault rfl rfl (Nat.le_succ _) (by simp only [Cursor.potential]; omega)
  all_goals
    obtain ⟨s, hs, hrest⟩ := htaken l.token
    refine .after rfl rfl (Nat.le_succ _) ?_ (hrest _)
    simp only [Cursor.potential, List.length_cons]
    omega

theorem peek {f g : Token → Parse β} (hf : ∀ c t, c.Sees t → Spends n k r (f t) (g t) c) :
    Costs n (k + 1) r (peek >>= f) (Parse.peek >>= g) := by
  rintro ⟨_ | ⟨l, ls⟩, ending | e, line, previous, steps⟩
  · refine .after rfl rfl (Nat.le_succ _) ?_ (hf _ .eof fun h => absurd rfl h)
    simp only [Cursor.potential]
    omega
  · exact .fault rfl rfl (Nat.le_succ _) (by simp only [Cursor.potential]; omega)
  all_goals
    refine .after rfl rfl (Nat.le_succ _) ?_ (hf _ l.token fun _ => ⟨l, ls, rfl, rfl⟩)
    simp only [Cursor.potential]
    omega

theorem accept {f g : Bool → Parse β} (ht : t ≠ .eof)
    (htrue : Costs n (k + 15) r (f true) (g true)) (hfalse : Costs n k r (f false) (g false)) :
    Costs n (k + 1) r (accept t >>= f) (Parse.accept t >>= g) := by
  rw [Parse.accept, bind_assoc, bind_assoc]
  refine .peek fun c t' hc => ?_
  split
  · rename_i heq
    rw [bind_assoc, bind_assoc]
    exact .next hc (heq ▸ ht) htrue
  · exact hfalse c

/-- A token that may be there, and makes no difference to the steps. -/
theorem accept_either {f g : Bool → Parse β} (ht : t ≠ .eof)
    (hf : ∀ b, Costs n k r (f b) (g b)) :
    Costs n (k + 1) r (Parse.accept t >>= f) (Parse.accept t >>= g) :=
  .accept ht (.mono (hf true) (by omega) (by omega)) (hf false)

theorem expect_any (t : Token) (place : String) :
    Costs n 3 0 (expect t place) (Parse.expect t place) := by
  refine .count (.next (fun t' _ => ?_) ?_) <;> split
  · exact .pure (by omega)
  · exact .error _
  · exact .pure (by omega)
  · exact .error _

theorem expect {f g : Unit → Parse β} {place : String} (ht : t ≠ .eof)
    (hf : Costs n (k + 16) r (f ()) (g ())) :
    Costs n (k + 3) r (expect t place >>= f) (Parse.expect t place >>= g) := by
  have h : Costs n 3 16 (Parse.expect t place) (Parse.expect t place) := by
    refine .count (.next (fun t' _ => ?_) ?_)
    · split
      · exact .pure (by omega)
      · exact .error _
    · rw [if_neg ht.symm]
      exact .error _
  exact .bind h (by omega) fun _ => .mono hf (by omega) (by omega)

theorem expectIdent (what : String) : Costs n 3 16 (expectIdent what) (Parse.expectIdent what) := by
  refine .count (.next (fun t _ => ?_) (.error _))
  split
  · exact .pure (by omega)
  · exact .error _

theorem expectSize (what : String) : Costs n 3 16 (expectSize what) (Parse.expectSize what) := by
  refine .count (.next (fun t _ => ?_) (.error _))
  split
  · split
    · exact .pure (by omega)
    · exact .error _
  · exact .error _

/-- The steps are paid from the credits in hand and those of the tokens ahead. -/
theorem steps_le (h : Costs n k r p q) (c : Cursor) : (p c).2.steps ≤ c.potential + k := by
  have hsteps : ∀ c' : Cursor, c'.steps ≤ c'.potential := fun c' => Nat.le_add_right _ _
  cases h c with
  | @ok _ c' hp _ _ hcredits | @fault _ c' hp _ _ hcredits =>
    rw [hp]
    exact Nat.le_trans (hsteps c') (by omega)
  | @exhausted c' hp _ hcredits =>
    rw [hp]
    exact Nat.le_trans (hsteps c') hcredits

/-- A production that is given more calls than there are steps does not use them up. -/
theorem ends (h : Costs n k r p q) (hc : c.potential + k < c.steps + n) :
    (p c).1 ≠ .error .exhausted ∧ q c = p c := by
  have hle := h.steps_le c
  cases h c with
  | ok hp hq | fault hp hq => exact ⟨by simp [hp], hq.trans hp.symm⟩
  | exhausted hp hsteps =>
    rw [hp] at hle
    dsimp only at hle
    omega

end Costs

end Parse

open Parse

/-! ## Declarations

A production comes with the credits that it needs as far as the first token that it takes, and with
those that are left behind the last. -/

variable (more : Nat)

theorem aliases_costs : ∀ (n : Nat) (T : TypeTable),
    Costs n 5 0 (aliases n T) (aliases (more + n) T)
  | 0, _ => .throw
  | n + 1, T => by
    refine .step (.accept (by simp) (.pure (by omega)) ?_)
    refine .accept_either (by simp) fun negative => ?_
    refine .next (fun t _ => ?_) (.error _)
    split
    · refine .expect (by simp) (.next (fun t _ => ?_) (.error _))
      split
      · split
        · exact .error _
        · exact .accept_either (by simp) fun _ => .mono (aliases_costs n _) (by omega) (by omega)
      · exact .error _
    · exact .error _

theorem fieldList_costs : ∀ n, Costs n 5 0 (fieldList n) (fieldList (more + n))
  | 0 => .throw
  | n + 1 => by
    refine .step (.peek fun c t _ => ?_)
    split
    · exact Costs.pure (by omega) c
    · refine Spends.bind (Costs.expectIdent _ c) (by omega) fun name => .expect (by simp) ?_
      refine .bind (.expectSize _) (by omega) fun offset => ?_
      refine .bind (.expectSize _) (by omega) fun size => ?_
      refine .accept (by simp) ?_ (.pure (by omega))
      exact .bind (fieldList_costs n) (by omega) fun fs => .pure (by omega)

theorem layout_costs (n : Nat) : Costs n 4 0 (layout n) (layout (more + n)) := by
  refine .count (.expect (by simp) (.bind (fieldList_costs more n) (by omega) fun fields => ?_))
  refine .expect (by simp) ?_
  split
  · exact .pure (by omega)
  · exact .error _

theorem access_costs (n : Nat) : Costs n 1 0 access access := by
  refine .peek fun c t hc => ?_
  split
  · exact .next hc (by simp) (.pure (by omega))
  · exact Costs.pure (by omega) c

theorem aliasList_costs (n : Nat) (k : Kind) (T : TypeTable) :
    Costs n 1 0 (aliasList n k T) (aliasList (more + n) k T) := by
  unfold aliasList
  split
  · exact .accept (by simp) (.mono (aliases_costs more n T) (by omega) (by omega))
      (.pure (by omega))
  · exact .pure (by omega)

theorem typeOfKind_costs (n : Nat) (oid : Option String) (T : TypeTable) (t : Token) :
    Costs n 6 0 (typeOfKind n oid T t) (typeOfKind (more + n) oid T t) := by
  unfold typeOfKind
  split
  · refine .bind (aliasList_costs more n _ T) (by omega) fun T => ?_
    dsimp only
    split
    · have hlayout : Costs n 4 0 (some <$> layout n) (some <$> layout (more + n)) := by
        rw [map_eq_pure_bind, map_eq_pure_bind]
        exact .bind (layout_costs more n) (by omega) fun l => .pure (by omega)
      refine .bind hlayout (by omega) fun l => ?_
      exact .bind (access_costs n) (by omega) fun a => .pure (by omega)
    · rw [pure_bind]
      exact .bind (access_costs n) (by omega) fun a => .pure (by omega)
  · exact .error _

theorem varType_costs (base : String) (n : Nat) (T : TypeTable) :
    Costs n 9 0 (varType base n T) (varType base (more + n) T) := by
  have hkind : ∀ {k oid t}, 6 ≤ k →
      Costs n k 0 (typeOfKind n oid T t) (typeOfKind (more + n) oid T t) :=
    fun hk => .mono (typeOfKind_costs more n _ T _) hk (by omega)
  refine .count (.next (fun t _ => ?_) (hkind (by omega)))
  split
  · exact hkind (by omega)
  · exact .next (fun t _ => hkind (by omega)) (hkind (by omega))

theorem varLines_costs (base : String) : ∀ (n : Nat) (T : TypeTable),
    Costs n 3 0 (varLines base n T) (varLines base (more + n) T)
  | 0, _ => .throw
  | n + 1, T => by
    refine .step (.next (fun t _ => ?_) (.error _))
    split
    · exact .expect (by simp) (.pure (by omega))
    · refine .expect (by simp) (.bind (varType_costs more base n T) (by omega) fun type => ?_)
      dsimp only
      split
      · exact .error _
      · exact .expect (by simp) (.mono (varLines_costs base n _) (by omega) (by omega))
    · exact .error _
    · exact .error _

theorem declarations_costs (base : String) (n : Nat) :
    Costs n 2 0 (declarations base n) (declarations base (more + n)) :=
  .count (.accept (by simp) (.expect (by simp) (.mono (varLines_costs more base n _) (by omega)
    (by omega))) (.pure (by omega)))

/-! ## Expressions -/

variable (T : TypeTable)

theorem checkField_costs (n : Nat) (name field : String) :
    Costs n 2 0 (checkField T name field) (checkField T name field) := by
  refine .count ?_
  split
  · exact .error _
  split
  · exact .error _
  split
  · exact .pure (by omega)
  · exact .error _

theorem fieldOf_costs (n : Nat) (name : String) :
    Costs n 3 14 (fieldOf T name) (fieldOf T name) := by
  refine .bind (.expectIdent _) (by omega) fun field => ?_
  exact .bind (checkField_costs T n name field) (by omega) fun _ => .pure (by omega)

theorem intName_costs (n : Nat) (name : String) :
    Costs n 4 0 (intName T name) (intName T name) := by
  refine .count ?_
  split
  · exact .error _
  · exact .expect (by simp) (.bind (fieldOf_costs T n name) (by omega) fun f => .pure (by omega))
  · split
    · exact .pure (by omega)
    · exact .error _

mutual

theorem intExpr_costs : ∀ n, Costs n 5 8 (intExpr T n) (intExpr T (more + n))
  | 0 => .throw
  | n + 1 => .step (.chain (intTerm_costs n) (fun t => intTerms_costs n (.term t)) (by omega)
      (by omega))

theorem intTerms_costs : ∀ n e, Costs n 2 0 (intTerms T n e) (intTerms T (more + n) e)
  | 0, _ => .throw
  | n + 1, e => by
    refine .step (.peek fun c t hc => ?_)
    have hturn (f : IntTerm → IntExpr) :=
      Costs.chain (k := 15) (r := 0) (intTerm_costs n) (fun t => intTerms_costs n (f t))
        (by omega) (by omega)
    split
    · exact .next hc (by simp) (hturn _)
    · exact .next hc (by simp) (hturn _)
    · exact Costs.pure (by omega) c

theorem intTerm_costs : ∀ n, Costs n 4 10 (intTerm T n) (intTerm T (more + n))
  | 0 => .throw
  | n + 1 => .step (.chain (intFactor_costs n) (fun f => intFactors_costs n (.factor f)) (by omega)
      (by omega))

theorem intFactors_costs : ∀ n t, Costs n 2 0 (intFactors T n t) (intFactors T (more + n) t)
  | 0, _ => .throw
  | n + 1, t => by
    refine .step (.peek fun c t hc => ?_)
    have hturn (g : IntFactor → IntTerm) :=
      Costs.chain (k := 15) (r := 0) (intFactor_costs n) (fun f => intFactors_costs n (g f))
        (by omega) (by omega)
    split
    · exact .next hc (by simp) (hturn _)
    · exact .next hc (by simp) (hturn _)
    · exact Costs.pure (by omega) c

theorem intFactor_costs : ∀ n, Costs n 3 12 (intFactor T n) (intFactor T (more + n))
  | 0 => .throw
  | n + 1 => by
    refine .step (.next (fun t _ => ?_) (.missing _))
    cases t with
    | int v => exact .pure (by omega)
    | aliasName a =>
      dsimp only
      split
      · exact .pure (by omega)
      · exact .error _
    | ident name => exact .mono (intName_costs T n name) (by omega) (by omega)
    | symbol s =>
      cases s with
      | minus => exact .bind (intFactor_costs n) (by omega) fun f => .pure (by omega)
      | openParen =>
        exact .bind (intExpr_costs n) (by omega) fun e =>
          .expect (by simp) (.pure (by omega))
      | _ => exact .missing _
    | _ => exact .missing _

end

theorem comparison_costs (n : Nat) : Costs n 6 8 (comparison T n) (comparison T (more + n)) := by
  refine .count (.bind (intExpr_costs more T n) (by omega) fun l => ?_)
  refine .next (fun t _ => ?_) (.missing _)
  split
  · exact .missing _
  · exact .bind (intExpr_costs more T n) (by omega) fun r => .pure (by omega)

mutual

theorem boolExpr_costs : ∀ n, Costs n 10 4 (boolExpr T n) (boolExpr T (more + n))
  | 0 => .throw
  | n + 1 => .step (.chain (boolTerm_costs n) (fun t => boolTerms_costs n (.term t)) (by omega)
      (by omega))

theorem boolTerms_costs : ∀ n e, Costs n 2 0 (boolTerms T n e) (boolTerms T (more + n) e)
  | 0, _ => .throw
  | n + 1, e => by
    refine .step (.accept (by simp) ?_ (.pure (by omega)))
    exact .chain (boolTerm_costs n) (fun t => boolTerms_costs n (.or e t)) (by omega) (by omega)

theorem boolTerm_costs : ∀ n, Costs n 9 6 (boolTerm T n) (boolTerm T (more + n))
  | 0 => .throw
  | n + 1 => .step (.chain (boolFactor_costs n) (fun f => boolFactors_costs n (.factor f))
      (by omega) (by omega))

theorem boolFactors_costs : ∀ n t, Costs n 2 0 (boolFactors T n t) (boolFactors T (more + n) t)
  | 0, _ => .throw
  | n + 1, t => by
    refine .step (.accept (by simp) ?_ (.pure (by omega)))
    exact .chain (boolFactor_costs n) (fun f => boolFactors_costs n (.and t f)) (by omega)
      (by omega)

theorem boolFactor_costs : ∀ n, Costs n 8 8 (boolFactor T n) (boolFactor T (more + n))
  | 0 => .throw
  | n + 1 => by
    refine .step (.peek fun c t hc => ?_)
    split
    · exact .next hc (by simp) (.pure (by omega))
    · exact .next hc (by simp) (.pure (by omega))
    · exact .next hc (by simp) (.bind (boolFactor_costs n) (by omega) fun f => .pure (by omega))
    · exact .next hc (by simp) (.bind (boolExpr_costs n) (by omega) fun e =>
        .expect (by simp) (.pure (by omega)))
    · split
      · exact .next hc (by simp) (.pure (by omega))
      · exact comparison_costs more T n c
    · exact comparison_costs more T n c

end

theorem intList_costs : ∀ n, Costs n 7 0 (intList T n) (intList T (more + n))
  | 0 => .throw
  | n + 1 => by
    refine .step (.peek fun c t _ => ?_)
    split
    · exact Costs.pure (by omega) c
    · refine Spends.bind (intExpr_costs more T n c) (by omega) fun e => ?_
      refine .accept (by simp) ?_ (.pure (by omega))
      exact .bind (intList_costs n) (by omega) fun es => .pure (by omega)

mutual

theorem bitsExpr_costs : ∀ n, Costs n 4 10 (bitsExpr T n) (bitsExpr T (more + n))
  | 0 => .throw
  | n + 1 => .step (.chain (bitsTerm_costs n) (fun t => bitsTerms_costs n (.term t)) (by omega)
      (by omega))

theorem bitsTerms_costs : ∀ n e, Costs n 2 0 (bitsTerms T n e) (bitsTerms T (more + n) e)
  | 0, _ => .throw
  | n + 1, e => by
    refine .step (.accept (by simp) ?_ (.pure (by omega)))
    exact .chain (bitsTerm_costs n) (fun t => bitsTerms_costs n (.union e t)) (by omega)
      (by omega)

theorem bitsTerm_costs : ∀ n, Costs n 3 12 (bitsTerm T n) (bitsTerm T (more + n))
  | 0 => .throw
  | n + 1 => by
    refine .step (.next (fun t _ => ?_) (.missing _))
    split
    · exact .bind (intList_costs more T n) (by omega) fun es =>
        .expect (by simp) (.pure (by omega))
    · split
      · exact .error _
      · exact .pure (by omega)
      · exact .error _
    · exact .bind (bitsExpr_costs n) (by omega) fun e => .expect (by simp) (.pure (by omega))
    · exact .missing _

end

mutual

theorem strExpr_costs : ∀ n, Costs n 4 10 (strExpr T n) (strExpr T (more + n))
  | 0 => .throw
  | n + 1 => .step (.chain (strTerm_costs n) (fun t => strTerms_costs n (.term t)) (by omega)
      (by omega))

theorem strTerms_costs : ∀ n e, Costs n 2 0 (strTerms T n e) (strTerms T (more + n) e)
  | 0, _ => .throw
  | n + 1, e => by
    refine .step (.accept (by simp) ?_ (.pure (by omega)))
    exact .chain (strTerm_costs n) (fun t => strTerms_costs n (.append e t)) (by omega) (by omega)

theorem strTerm_costs : ∀ n, Costs n 3 12 (strTerm T n) (strTerm T (more + n))
  | 0 => .throw
  | n + 1 => by
    refine .step (.next (fun t _ => ?_) (.missing _))
    split
    · exact .pure (by omega)
    · split
      · exact .error _
      · split
        · exact .pure (by omega)
        · exact .error _
    · exact .bind (strExpr_costs n) (by omega) fun e => .expect (by simp) (.pure (by omega))
    · exact .expect (by simp) (.bind (intExpr_costs more T n) (by omega) fun e =>
        .expect (by simp) (.pure (by omega)))
    · exact .expect (by simp) (.bind (boolExpr_costs more T n) (by omega) fun e =>
        .expect (by simp) (.pure (by omega)))
    · exact .expect (by simp) (.bind (bitsExpr_costs more T n) (by omega) fun e =>
        .expect (by simp) (.pure (by omega)))
    · exact .missing _

end

/-! ## Statements -/

theorem assigned_costs (n : Nat) (name : String) (g : Grammar) :
    Costs n 10 0 (assigned T n name g) (assigned T (more + n) name g) := by
  cases g with
  | int => exact .bind (intExpr_costs more T n) (by omega) fun e => .pure (by omega)
  | bool => exact .bind (boolExpr_costs more T n) (by omega) fun e => .pure (by omega)
  | str => exact .bind (strExpr_costs more T n) (by omega) fun e => .pure (by omega)
  | bits => exact .bind (bitsExpr_costs more T n) (by omega) fun e => .pure (by omega)
  | fields => exact .error _

theorem assignment_costs (n : Nat) :
    Costs n 4 16 (assignment T n) (assignment T (more + n)) := by
  refine .count (.bind (.expectIdent _) (by omega) fun name => ?_)
  split
  · exact .error _
  · refine .accept (by simp) ?_ (.expect (by simp) ?_)
    · refine .bind (fieldOf_costs T n name) (by omega) fun field => .expect (by simp) ?_
      exact .bind (intExpr_costs more T n) (by omega) fun e =>
        .expect (by simp) (.pure (by omega))
    · exact .bind (assigned_costs more T n name _) (by omega) fun e =>
        .expect (by simp) (.pure (by omega))

theorem sleep_costs (n : Nat) : Costs n 6 16 (sleep T n) (sleep T (more + n)) := by
  refine .count (.bind (intExpr_costs more T n) (by omega) fun e => ?_)
  refine .next (fun t _ => ?_) (.error _)
  split
  · exact .expect (by simp) (.pure (by omega))
  · exact .expect (by simp) (.pure (by omega))
  · exact .error _

theorem loopControl_costs (n : Nat) :
    Costs n 11 3 (loopControl T n) (loopControl T (more + n)) := by
  refine .peek fun c t hc => ?_
  split
  · exact Costs.pure (by omega) c
  · exact .next hc (by simp) (.bind (intExpr_costs more T n) (by omega) fun e => .pure (by omega))
  · exact Spends.bind (boolExpr_costs more T n c) (by omega) fun e => .pure (by omega)

mutual

theorem block_costs : ∀ n, Costs n 8 0 (block T n) (block T (more + n))
  | 0 => .throw
  | n + 1 => by
    refine .step (.peek fun c t _ => ?_)
    split
    · exact Costs.pure (by omega) c
    split
    · exact Costs.error _ c
    · refine Spends.bind (statement_costs n c) (by omega) fun s => ?_
      exact .bind (block_costs n) (by omega) fun ss => .pure (by omega)

theorem statement_costs : ∀ n, Costs n 6 16 (statement T n) (statement T (more + n))
  | 0 => .throw
  | n + 1 => by
    refine .step (.peek fun c t hc => ?_)
    split
    · exact assignment_costs more T n c
    · exact .next hc (by simp) (.mono (branch_costs n) (by omega) (by omega))
    · exact .next hc (by simp) (.mono (loop_costs n) (by omega) (by omega))
    · exact .next hc (by simp) (.bind (strExpr_costs more T n) (by omega) fun e =>
        .expect (by simp) (.pure (by omega)))
    · exact .next hc (by simp) (.mono (sleep_costs more T n) (by omega) (by omega))
    · exact .next hc (by simp) (.expect (by simp) (.pure (by omega)))
    · exact Costs.next (fun t _ => .error _) (.error _) c

theorem branch_costs : ∀ n, Costs n 11 18 (branch T n) (branch T (more + n))
  | 0 => .throw
  | n + 1 => by
    refine .step (.bind (boolExpr_costs more T n) (by omega) fun cond => .expect (by simp) ?_)
    refine .bind (block_costs n) (by omega) fun body => ?_
    exact .bind (branches_costs n) (by omega) fun rest => .expect (by simp) (.pure (by omega))

theorem branches_costs : ∀ n, Costs n 3 3 (branches T n) (branches T (more + n))
  | 0 => .throw
  | n + 1 => by
    refine .step (.next (fun t _ => ?_) (.error _))
    split
    · refine .bind (boolExpr_costs more T n) (by omega) fun cond => .expect (by simp) ?_
      refine .bind (block_costs n) (by omega) fun body => ?_
      exact .bind (branches_costs n) (by omega) fun rest => .pure (by omega)
    · exact .expect (by simp) (.bind (block_costs n) (by omega) fun body =>
        .expect (by simp) (.pure (by omega)))
    · exact .pure (by omega)
    · exact .error _

theorem loop_costs : ∀ n, Costs n 12 16 (loop T n) (loop T (more + n))
  | 0 => .throw
  | n + 1 => by
    refine .step (.bind (loopControl_costs more T n) (by omega) fun control => ?_)
    refine .expect (by simp) ?_
    exact .bind (block_costs n) (by omega) fun body =>
      .expect (by simp) (.expect (by simp) (.pure (by omega)))

end

/-! ## Programs -/

namespace Program

open Lexer OctetLexer Text

theorem read_costs (base : String) (n : Nat) :
    Costs n 6 0 (read base n) (read base (more + n)) := by
  refine .count (.bind (declarations_costs more base n) (by omega) fun T => ?_)
  refine .expect (by simp) (.expect (by simp) ?_)
  refine .bind (block_costs more T n) (by omega) fun body => ?_
  refine .expect (by simp) (.accept_either (by simp) fun _ => ?_)
  exact .bind (.expect_any .eof "program") (by omega) fun _ => .pure (by omega)

theorem potential_ofStream (text : String) :
    (Cursor.ofStream (stream text)).potential ≤ 16 * (utf8 text).length := by
  have htokens : (stream text).tokens.length ≤ text.toList.length := length_take_le _ (start text)
  have hbytes := length_le_encoded text.toList
  rw [← utf8_eq] at hbytes
  simp only [Cursor.potential, Cursor.ofStream]
  omega

/-- A token that is not the end mark takes an octet or more from the text. -/
theorem of_next_octets {l : Lexer} {t : Located} {o : OctetLexer} (h : l.octets.next = .ok (t, o))
    (ht : t.token ≠ .eof) : ∃ front ≠ [], l.octets.rest = front ++ o.rest := by
  rw [next_octets] at h
  obtain ⟨⟨t, m⟩, hnext, ⟨⟩⟩ := exists_of_map_eq_ok h
  obtain ⟨front, hfront⟩ := next_suffix hnext
  refine ⟨encoded front, ?_, ?_⟩
  · have hlength := congrArg List.length hfront
    have hless := (Lexer.of_next hnext ht).2
    have hbytes := length_le_encoded front
    rw [List.length_append] at hlength
    exact List.ne_nil_of_length_pos (by omega)
  · show encoded l.rest = encoded front ++ encoded m.rest
    rw [← hfront, encoded, List.flatMap_append]
    rfl

/-- The steps of a parse are bounded by a multiple of the octets of its text. With as many calls it
comes to an end, as it does with those that it is given, and to the same end. Every token but the
end mark takes octets away. -/
theorem exists_reading_bound : ∃ k : Nat,
    (∀ (text base : String) (n : Nat),
      let parsed := (read (baseOid base) n).run (.ofStream (stream text))
      parsed.2.steps ≤ k * ((utf8 text).length + 1) ∧
      (k * ((utf8 text).length + 1) ≤ n → parsed.1 ≠ .error .exhausted ∧
        parsed = reading text base)) ∧
    (∀ text base, (reading text base).1 ≠ .error .exhausted) ∧
    ∀ (l : Lexer) (t : Located) (o : OctetLexer), l.octets.next = .ok (t, o) →
      t.token = .eof ∨ ∃ front ≠ [], l.octets.rest = front ++ o.rest := by
  have hreading (text base : String) (more : Nat) :
      let n := 16 * ((stream text).tokens.length + 1)
      (reading text base).1 ≠ .error .exhausted ∧
        (read (baseOid base) (more + n)).run (.ofStream (stream text)) = reading text base := by
    refine (read_costs more (baseOid base) _).ends ?_
    simp only [Cursor.potential, Cursor.ofStream]
    omega
  refine ⟨16, fun text base n => ⟨?_, fun hn => ?_⟩, fun text base => (hreading text base 0).1,
    fun l t o h => ?_⟩
  · have hsteps := (read_costs 0 (baseOid base) n).steps_le (.ofStream (stream text))
    have hpotential := potential_ofStream text
    exact Nat.le_trans hsteps (by omega)
  · have hpotential := potential_ofStream text
    simp only [Cursor.potential, Cursor.ofStream] at hpotential
    obtain ⟨more, rfl⟩ := Nat.exists_eq_add_of_le'
      (show 16 * ((stream text).tokens.length + 1) ≤ n by omega)
    obtain ⟨hends, hsame⟩ := hreading text base more
    exact ⟨by rw [hsame]; exact hends, hsame⟩
  · by_cases ht : t.token = .eof
    · exact .inl ht
    · exact .inr (of_next_octets h ht)

-- Two calls, three looks ahead, a turn of a block, and four tokens taken by two steps each.
example :
    let s : TokenStream := ⟨[⟨.keyword .run, 1⟩, ⟨.newline, 1⟩, ⟨.keyword .endrun, 2⟩], .eof 2⟩
    ((read "" 9).run (.ofStream s)).2.steps = 14 := rfl

end Program

end ScriptedAgent.Script
