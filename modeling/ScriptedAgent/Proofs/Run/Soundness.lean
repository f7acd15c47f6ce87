import ScriptedAgent.Proofs.Run.Sound

/-!
# Well-kinded scripts fail for dynamic reasons only

A well-kinded expression, evaluated in a sound machine, leaves a sound one and gives a value or
fails with an error that lies in the values of the run. So does a statement, by induction on its
syntax (`execBlock_safe`). A parsed script is well-kinded, and initial values and a feed made
against its types give a sound machine to start from.
-/

namespace ScriptedAgent.Script

open Eval

variable {T : TypeTable} {name : String} {fuel : Nat}

/-- What evaluations of well-kinded syntax have in common. -/
abbrev Safely {α : Type} (T : TypeTable) (p : Eval α) : Prop :=
  Triple (Machine.Sound T) RuntimeError.Dynamic p fun _ => True

/-! ## Expressions -/

theorem quotient_safe (a b : Number) : Safely T (quotient a b) := by
  unfold quotient
  split
  · exact .throw trivial
  · exact checked_triple _

theorem loadInt_safe (h : HasGrammar T name .int) : Safely T (loadInt T name) := by
  refine .bind (load_triple h (by decide)) fun s hs => ?_
  cases s <;> first | exact .pure trivial | cases hs

theorem loadBool_safe (h : HasGrammar T name .bool) : Safely T (loadBool T name) := by
  refine .bind (load_triple h (by decide)) fun s hs => ?_
  cases s <;> first | exact .pure trivial | cases hs

theorem loadStr_safe (h : HasGrammar T name .str) : Safely T (loadStr T name) := by
  refine .bind (load_triple h (by decide)) fun s hs => ?_
  cases s <;> first | exact .pure trivial | cases hs

theorem loadBits_safe (h : HasGrammar T name .bits) : Safely T (loadBits T name) := by
  refine .bind (load_triple h (by decide)) fun s hs => ?_
  cases s <;> first | exact .pure trivial | cases hs

mutual

theorem IntExpr.eval_safe : ∀ e : IntExpr, e.WellKinded T → Safely T (e.eval T)
  | .term t, h => t.eval_safe h
  | .add e t, h =>
    .bind (e.eval_safe h.1) fun _ _ => .bind (t.eval_safe h.2) fun _ _ => checked_triple _
  | .sub e t, h =>
    .bind (e.eval_safe h.1) fun _ _ => .bind (t.eval_safe h.2) fun _ _ => checked_triple _

theorem IntTerm.eval_safe : ∀ t : IntTerm, t.WellKinded T → Safely T (t.eval T)
  | .factor f, h => f.eval_safe h
  | .mul t f, h =>
    .bind (t.eval_safe h.1) fun _ _ => .bind (f.eval_safe h.2) fun _ _ => checked_triple _
  | .div t f, h =>
    .bind (t.eval_safe h.1) fun _ _ => .bind (f.eval_safe h.2) fun _ _ => quotient_safe _ _

theorem IntFactor.eval_safe : ∀ f : IntFactor, f.WellKinded T → Safely T (f.eval T)
  | .const _, _ => .pure trivial
  | .var _, h => loadInt_safe h
  | .field _ _, h => loadField_triple h
  | .neg f, h => .bind (f.eval_safe h) fun _ _ => checked_triple _
  | .group e, h => e.eval_safe h

end

mutual

theorem BoolExpr.eval_safe : ∀ e : BoolExpr, e.WellKinded T → Safely T (e.eval T)
  | .term t, h => t.eval_safe h
  | .or e t, h => .bind (e.eval_safe h.1) fun b _ => by
    cases b
    · exact t.eval_safe h.2
    · exact .pure trivial

theorem BoolTerm.eval_safe : ∀ t : BoolTerm, t.WellKinded T → Safely T (t.eval T)
  | .factor f, h => f.eval_safe h
  | .and t f, h => .bind (t.eval_safe h.1) fun b _ => by
    cases b
    · exact .pure trivial
    · exact f.eval_safe h.2

theorem BoolFactor.eval_safe : ∀ f : BoolFactor, f.WellKinded T → Safely T (f.eval T)
  | .const _, _ => .pure trivial
  | .var _, h => loadBool_safe h
  | .not f, h => .bind (f.eval_safe h) fun _ _ => .pure trivial
  | .group e, h => e.eval_safe h
  | .compare _ l r, h =>
    .bind (l.eval_safe h.1) fun _ _ => .bind (r.eval_safe h.2) fun _ _ => .pure trivial

end

theorem evalPositions_safe :
    ∀ es, (∀ e ∈ es, IntExpr.WellKinded T e) → Safely T (evalPositions T es)
  | [], _ => .pure trivial
  | e :: es, h => by
    obtain ⟨he, hes⟩ := List.forall_mem_cons.1 h
    refine .bind (e.eval_safe he) fun n _ => ?_
    split
    · exact .throw trivial
    · exact .bind (evalPositions_safe es hes) fun _ _ => .pure trivial

mutual

theorem BitsExpr.eval_safe : ∀ e : BitsExpr, e.WellKinded T → Safely T (e.eval T)
  | .term t, h => t.eval_safe h
  | .union e t, h =>
    .bind (e.eval_safe h.1) fun _ _ => .bind (t.eval_safe h.2) fun _ _ => .pure trivial

theorem BitsTerm.eval_safe : ∀ t : BitsTerm, t.WellKinded T → Safely T (t.eval T)
  | .set es, h => .bind (evalPositions_safe es h) fun _ _ => .pure trivial
  | .var _, h => loadBits_safe h
  | .group e, h => e.eval_safe h

end

mutual

theorem StrExpr.eval_safe : ∀ e : StrExpr, e.WellKinded T → Safely T (e.eval T)
  | .term t, h => t.eval_safe h
  | .append e t, h =>
    .bind (e.eval_safe h.1) fun _ _ => .bind (t.eval_safe h.2) fun _ _ => .pure trivial

theorem StrTerm.eval_safe : ∀ t : StrTerm, t.WellKinded T → Safely T (t.eval T)
  | .literal _, _ => .pure trivial
  | .var _, h => loadStr_safe h
  | .group e, h => e.eval_safe h
  | .ofInt e, h => .bind (e.eval_safe h) fun _ _ => .pure trivial
  | .ofBool e, h => .bind (e.eval_safe h) fun _ _ => .pure trivial
  | .ofBits e, h => .bind (e.eval_safe h) fun _ _ => .pure trivial

end

/-- An expression comes to a scalar of the grammar it was read with. -/
theorem Expr.eval_safe {g : Grammar} :
    ∀ e : Expr, e.WellKinded T g →
      Triple (Machine.Sound T) RuntimeError.Dynamic (e.eval T) (·.grammar = g)
  | int e, h => .bind (e.eval_safe h.2) fun _ _ => .pure h.1.symm
  | bool e, h => .bind (e.eval_safe h.2) fun _ _ => .pure h.1.symm
  | str e, h => .bind (e.eval_safe h.2) fun _ _ => .pure h.1.symm
  | bits e, h => .bind (e.eval_safe h.2) fun _ _ => .pure h.1.symm

/-! ## Statements -/

theorem assign_safe : ∀ (target : Target) (e : Expr), AssignmentWellKinded T target e →
    Safely T (assign T target e)
  | .var x, e, ⟨g, hx, he⟩ => by
    obtain ⟨k, hk, rfl⟩ := Option.map_eq_some_iff.1 hx
    simp only [assign, hk]
    exact .bind (e.eval_safe he) fun s hs => assignVar_triple hk hs
  | .field x f, .int e, ⟨hf, he⟩ => by
    obtain ⟨fd, hfd⟩ := Option.isSome_iff_exists.1 hf.2
    simp only [assign, hf.1, fieldDef, hfd]
    exact .bind (e.eval_safe he.2) fun n _ => assignField_triple hf.1 hfd n
  | .field _ _, .bool _, h => by cases h.2.1
  | .field _ _, .str _, h => by cases h.2.1
  | .field _ _, .bits _, h => by cases h.2.1

theorem print_safe {e : StrExpr} (h : e.WellKinded T) : Safely T (print T e) :=
  .bind (e.eval_safe h) fun _ _ _ hm => ⟨⟨hm.types, hm.store, hm.feed⟩, trivial⟩

theorem pause_safe {e : IntExpr} (h : e.WellKinded T) : Safely T (pause T e) := by
  refine .bind (e.eval_safe h) fun n _ => ?_
  split
  · exact .throw trivial
  · exact .pure trivial

mutual

theorem Stmt.exec_safe : ∀ s : Stmt, s.WellKinded T →
    Safe (Machine.Sound T) RuntimeError.Dynamic (s.exec T fuel)
  | .assign t e, h => .settled (assign_safe t e h)
  | .print _, h => .settled (print_safe h)
  | .sleep _ _, h => .settled (pause_safe h)
  | .exit, _ => by
    rintro m o hm ⟨⟩
    exact ⟨hm, trivial⟩
  | .branch cond body rest, h => by
    intro m o hm ho
    unfold Stmt.exec at ho
    split at ho <;> rename_i m₁ h₁ <;> obtain ⟨hI, hr⟩ := (cond.eval_safe h.1).run hm h₁
    · cases ho
      exact ⟨hI, hr⟩
    · exact execBlock_safe body h.2.1 m₁ o hI ho
    · exact rest.exec_safe h.2.2 m₁ o hI ho
  | .loop .forever body, h => .forever (execBlock_safe body h.2) fuel
  | .loop (.times count) body, h => by
    intro m o hm ho
    unfold Stmt.exec at ho
    split at ho <;> rename_i m₁ h₁ <;> obtain ⟨hI, hr⟩ := (count.eval_safe h.1).run hm h₁
    · cases ho
      exact ⟨hI, hr⟩
    · exact Safe.repeated (execBlock_safe body h.2) _ m₁ o hI ho
  | .loop (.while cond) body, h =>
    .whileHolds (execBlock_safe body h.2) (cond.eval_safe h.1) fuel

theorem Branches.exec_safe : ∀ b : Branches, b.WellKinded T →
    Safe (Machine.Sound T) RuntimeError.Dynamic (b.exec T fuel)
  | .otherwise body, h => execBlock_safe body h
  | .elseif cond body rest, h => by
    intro m o hm ho
    unfold Branches.exec at ho
    split at ho <;> rename_i m₁ h₁ <;> obtain ⟨hI, hr⟩ := (cond.eval_safe h.1).run hm h₁
    · cases ho
      exact ⟨hI, hr⟩
    · exact execBlock_safe body h.2.1 m₁ o hI ho
    · exact rest.exec_safe h.2.2 m₁ o hI ho

theorem execBlock_safe : ∀ ss : List Stmt, BlockWellKinded T ss →
    Safe (Machine.Sound T) RuntimeError.Dynamic (execBlock T fuel ss)
  | [], _ => by
    rintro m o hm ⟨⟩
    exact ⟨hm, trivial⟩
  | s :: ss, h => .andThen (s.exec_safe h.1) (execBlock_safe ss h.2)

end

/-! ## Programs -/

theorem sound_start {p : Program} {inits : List Initializer} {s : Store} {feed : Feed}
    (hi : Initializer.applyAll (.load p.types) inits = (s, .ok ()))
    (hf : feed.store.types = p.types) (hc : feed.current = none) :
    (Machine.start s feed).Sound p.types := by
  have hs := Initializer.applyAll_keeps inits (.load p.types)
  rw [hi] at hs
  exact ⟨hs.1, hs.2 (Store.load_sound p.types), hf, by simp [Machine.start, hc]⟩

/-- A parsed script that runs over its own store, with any initial values and any feed made against
its types, fails for no other than a dynamic reason. -/
theorem Program.error_dynamic {text base : String} {p : Program} {inits : List Initializer}
    {s : Store} {feed : Feed} {e : RuntimeError} {m : Machine}
    (hp : Program.parse text base = .ok p)
    (hi : Initializer.applyAll (.load p.types) inits = (s, .ok ()))
    (hf : feed.store.types = p.types) (hc : feed.current = none)
    (hr : p.run fuel (.start s feed) = some (.error e, m)) : e.Dynamic := by
  obtain ⟨⟨r, m'⟩, ho, hm⟩ := Option.map_eq_some_iff.1 hr
  have hsafe :=
    execBlock_safe p.body (Program.parse_wellKinded hp).body _ _ (sound_start hi hf hc) ho
  cases r with
  | ok flow => cases hm
  | error e' =>
    cases hm
    exact hsafe.2

/-- An initial value is divided by what a manager hands over. -/
theorem Program.error_dynamic_of_quotient :
    let text := "var\n x: 1 integer blocking\n y: integer\nendvar\nrun\nprint strInt(y/x)\nendrun\n"
    let items := [FeedItem.set ".1.3.6.1.2.1.1" (.integer 0)]
    ∃ p s m, Program.parse text Oid.mib2 = .ok p ∧
      Initializer.applyAll (.load p.types) [⟨"y", "5"⟩] = (s, .ok ()) ∧
      s.read? "y" = some (.integer 5) ∧
      p.run 1 (.start s (.ofItems p.types items)) = some (.error .divisionByZero, m) ∧
      m.received.toList = [("x", .integer 0)] ∧ RuntimeError.divisionByZero.Dynamic := by
  intro text items
  obtain ⟨p, hp, h⟩ := Program.exists_parse text Oid.mib2
    (fun p =>
      let r := Initializer.applyAll (.load p.types) [⟨"y", "5"⟩]
      r.2 = .ok () ∧ r.1.read? "y" = some (.integer 5) ∧
        (p.run 1 (.start r.1 (.ofItems p.types items))).any fun (r, m) =>
          r = .error .divisionByZero ∧ m.received.toList = [("x", .integer 0)])
    (by decide +kernel)
  obtain ⟨hi, hy, hr⟩ := of_decide_eq_true h
  obtain ⟨⟨r, m⟩, hr, hm⟩ := (Option.any_eq_true _ _).1 hr
  obtain ⟨rfl, hreceived⟩ := of_decide_eq_true hm
  have hi : Initializer.applyAll (.load p.types) [⟨"y", "5"⟩] = (_, .ok ()) := Prod.ext rfl hi
  exact ⟨p, _, m, hp, hi, hy, hr, hreceived, Program.error_dynamic hp hi rfl rfl hr⟩

end ScriptedAgent.Script
