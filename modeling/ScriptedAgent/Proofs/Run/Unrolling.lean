import ScriptedAgent.Proofs.Script.WellKinded
import ScriptedAgent.Run.Exec

/-!
# Counted loops unrolled

A counted loop finds its count once and then does what as many copies of its body do, one after
another (`loop_times_unrolled`). The fuel makes no difference to that: what has an outcome keeps it
with more fuel (`execBlock_extends`).
-/

namespace ScriptedAgent.Script

variable {T : TypeTable} {turn turn' next next' : Machine → Option Outcome} {fuel fuel' : Nat}

/-! ## One part after another -/

theorem Outcome.andThen_bind (f g : Machine → Option Outcome) (o : Outcome) :
    (o.andThen f).bind (andThen g) = o.andThen fun m => (f m).bind (andThen g) := by
  obtain ⟨_ | _ | _, m⟩ := o <;> rfl

theorem execBlock_append (ys : List Stmt) : ∀ (xs : List Stmt) (m : Machine),
    execBlock T fuel (xs ++ ys) m =
      (execBlock T fuel xs m).bind (Outcome.andThen (execBlock T fuel ys))
  | [], _ => rfl
  | s :: xs, m => by
    simp only [List.cons_append, execBlock, Option.bind_assoc]
    refine Option.bind_congr fun o _ => ?_
    rw [Outcome.andThen_bind]
    exact congrArg (Outcome.andThen · o) (funext fun m => execBlock_append ys xs m)

theorem repeated_succ (turn : Machine → Option Outcome) (n : Nat) (m : Machine) :
    repeated turn (n + 1) m = (turn m).bind (Outcome.andThen (repeated turn n)) := by
  rw [repeated]
  rcases turn m with _ | ⟨_ | _ | _, _⟩ <;> rfl

theorem forever_succ (turn : Machine → Option Outcome) (n : Nat) (m : Machine) :
    forever turn (n + 1) m = (turn m).bind (Outcome.andThen (forever turn n)) := by
  rw [forever]
  rcases turn m with _ | ⟨_ | _ | _, _⟩ <;> rfl

theorem whileHolds_succ (turn : Machine → Option Outcome) (cond : Eval Bool) (n : Nat)
    (m : Machine) : whileHolds turn cond (n + 1) m = match cond m with
      | (.error e, m) => some (.error e, m)
      | (.ok false, m) => some (.ok .proceed, m)
      | (.ok true, m) => (turn m).bind (Outcome.andThen (whileHolds turn cond n)) := by
  rw [whileHolds]
  rcases cond m with ⟨_ | _ | _, m₁⟩
  · rfl
  · rfl
  · dsimp only
    rcases turn m₁ with _ | ⟨_ | _ | _, _⟩ <;> rfl

/-- Copies of a block one after another. -/
def copies (n : Nat) (body : List Stmt) : List Stmt := (List.replicate n body).flatten

theorem repeated_eq_copies (body : List Stmt) : ∀ (n : Nat) (m : Machine),
    repeated (execBlock T fuel body) n m = execBlock T fuel (copies n body) m
  | 0, _ => rfl
  | n + 1, m => by
    have hrest : repeated (execBlock T fuel body) n = execBlock T fuel (copies n body) :=
      funext (repeated_eq_copies body n)
    rw [repeated_succ, hrest, ← execBlock_append]
    rfl

/-! ## More fuel -/

/-- `turn'` has every outcome that `turn` has. -/
def Extends (turn' turn : Machine → Option Outcome) : Prop :=
  ∀ m o, turn m = some o → turn' m = some o

namespace Extends

theorem andThen (ht : Extends turn' turn) (hn : Extends next' next) :
    Extends (fun m => (turn' m).bind (Outcome.andThen next'))
      fun m => (turn m).bind (Outcome.andThen next) := by
  intro m o ho
  obtain ⟨o₁, h₁, ho⟩ := Option.bind_eq_some_iff.1 ho
  simp only [ht m o₁ h₁, Option.bind_some]
  obtain ⟨_ | _ | _, m₁⟩ := o₁
  · exact ho
  · exact hn m₁ o ho
  · exact ho

theorem forever (ht : Extends turn' turn) :
    ∀ {n k : Nat}, n ≤ k → Extends (forever turn' k) (forever turn n)
  | 0, _, _ => fun m o ho => by cases ho
  | n + 1, k + 1, hk => fun m o ho => by
    rw [forever_succ] at ho ⊢
    exact ht.andThen (forever ht (Nat.le_of_succ_le_succ hk)) m o ho

theorem repeated (ht : Extends turn' turn) (n : Nat) :
    Extends (repeated turn' n) (repeated turn n) := by
  induction n with
  | zero => exact fun _ _ ho => ho
  | succ n ih =>
    intro m o ho
    rw [repeated_succ] at ho ⊢
    exact ht.andThen ih m o ho

theorem whileHolds (ht : Extends turn' turn) (cond : Eval Bool) :
    ∀ {n k : Nat}, n ≤ k → Extends (whileHolds turn' cond k) (whileHolds turn cond n)
  | 0, _, _ => fun m o ho => by cases ho
  | n + 1, k + 1, hk => fun m o ho => by
    rw [whileHolds_succ] at ho ⊢
    generalize cond m = found at ho ⊢
    obtain ⟨_ | _ | _, m₁⟩ := found
    · exact ho
    · exact ho
    · exact ht.andThen (whileHolds ht cond (Nat.le_of_succ_le_succ hk)) m₁ o ho

end Extends

mutual

theorem Stmt.exec_extends (hfuel : fuel ≤ fuel') :
    ∀ s : Stmt, Extends (s.exec T fuel') (s.exec T fuel)
  | .assign _ _, _, _, ho => ho
  | .print _, _, _, ho => ho
  | .sleep _ _, _, _, ho => ho
  | .exit, _, _, ho => ho
  | .branch cond body rest, m, o, ho => by
    unfold Stmt.exec at ho ⊢
    generalize cond.eval T m = found at ho ⊢
    obtain ⟨_ | _ | _, m₁⟩ := found
    · exact ho
    · exact rest.exec_extends hfuel m₁ o ho
    · exact execBlock_extends hfuel body m₁ o ho
  | .loop .forever body, m, o, ho => (execBlock_extends hfuel body).forever hfuel m o ho
  | .loop (.times count) body, m, o, ho => by
    unfold Stmt.exec at ho ⊢
    generalize count.eval T m = found at ho ⊢
    obtain ⟨_ | n, m₁⟩ := found
    · exact ho
    · exact (execBlock_extends hfuel body).repeated n.toInt.toNat m₁ o ho
  | .loop (.while cond) body, m, o, ho =>
    (execBlock_extends hfuel body).whileHolds (cond.eval T) hfuel m o ho

theorem Branches.exec_extends (hfuel : fuel ≤ fuel') :
    ∀ b : Branches, Extends (b.exec T fuel') (b.exec T fuel)
  | .otherwise body, m, o, ho => execBlock_extends hfuel body m o ho
  | .elseif cond body rest, m, o, ho => by
    unfold Branches.exec at ho ⊢
    generalize cond.eval T m = found at ho ⊢
    obtain ⟨_ | _ | _, m₁⟩ := found
    · exact ho
    · exact rest.exec_extends hfuel m₁ o ho
    · exact execBlock_extends hfuel body m₁ o ho

/-- What a block comes to it comes to with more fuel. -/
theorem execBlock_extends (hfuel : fuel ≤ fuel') :
    ∀ ss : List Stmt, Extends (execBlock T fuel' ss) (execBlock T fuel ss)
  | [], _, _, ho => ho
  | s :: ss, m, o, ho => (s.exec_extends hfuel).andThen (execBlock_extends hfuel ss) m o ho

end

/-- The outcome of a block does not depend on the fuel. -/
theorem execBlock_unique {ss : List Stmt} {m : Machine} {o o' : Outcome}
    (ho : execBlock T fuel ss m = some o) (ho' : execBlock T fuel' ss m = some o') : o = o' := by
  have h := execBlock_extends (Nat.le_max_left fuel fuel') ss m o ho
  have h' := execBlock_extends (Nat.le_max_right fuel fuel') ss m o' ho'
  exact Option.some.inj (h.symm.trans h')

/-! ## Counted loops -/

/-- Where the count comes to `n`, the loop does what `n` copies of its body do from there, none if
`n` is negative: with any fuel it has an outcome if they have, and it is the same one. -/
theorem loop_times_unrolled {count : IntExpr} {n : Number} {m m' : Machine}
    (hcount : count.eval T m = (.ok n, m')) (body : List Stmt) :
    (∀ fuel, (Stmt.loop (.times count) body).exec T fuel m =
      execBlock T fuel (copies n.toInt.toNat body) m') ∧
    (∀ fuel fuel' o o', (Stmt.loop (.times count) body).exec T fuel m = some o →
      execBlock T fuel' (copies n.toInt.toNat body) m' = some o' → o = o') ∧
    ((∃ fuel o, (Stmt.loop (.times count) body).exec T fuel m = some o) ↔
      ∃ fuel o, execBlock T fuel (copies n.toInt.toNat body) m' = some o) := by
  have hexec : ∀ fuel, (Stmt.loop (.times count) body).exec T fuel m =
      execBlock T fuel (copies n.toInt.toNat body) m' := fun fuel => by
    rw [Stmt.exec, hcount]
    exact repeated_eq_copies body n.toInt.toNat m'
  refine ⟨hexec, fun fuel fuel' o o' ho ho' => ?_, ?_⟩
  · rw [hexec] at ho
    exact execBlock_unique ho ho'
  · simp only [hexec]

/-- `n + 1` -/
def sampleCount : IntExpr := .add (.term (.factor (.var "n"))) (.factor (.const 1))

/-- `n = n * 10 + w` and `print strInt(n)` -/
def sampleBody : List Stmt :=
  [.assign (.var "n") (.int (.add (.term (.mul (.factor (.var "n")) (.const 10)))
    (.factor (.var "w")))),
   .print (.term (.ofInt (.term (.factor (.var "n")))))]

/-- The body changes the variable of the count and takes a value in each turn; for the third there
is none. -/
theorem loop_times_unrolled_closed : ∃ p m,
    Program.parse "var\n n: integer\n w: 1 integer blocking\nendvar\nrun\nendrun\n" Oid.mib2 =
      .ok p ∧
    let m₀ := Machine.start ((Store.load p.types).put "n" (.integer 2))
      (.ofItems p.types [.set ".1.3.6.1.2.1.1" (.integer 1), .set ".1.3.6.1.2.1.1" (.integer 3)])
    sampleCount.eval p.types m₀ = (.ok 3, m₀) ∧ m.printed = #["21", "213"] ∧
      (Stmt.loop (.times sampleCount) sampleBody).exec p.types 0 m₀ =
        some (.error (.rendezvousClosed "w"), m) ∧
      execBlock p.types 0 (sampleBody ++ sampleBody ++ sampleBody) m₀ =
        some (.error (.rendezvousClosed "w"), m) := by
  obtain ⟨p, hp, h⟩ := Program.exists_parse
    "var\n n: integer\n w: 1 integer blocking\nendvar\nrun\nendrun\n" Oid.mib2
    (fun p =>
      let m₀ := Machine.start ((Store.load p.types).put "n" (.integer 2))
        (.ofItems p.types [.set ".1.3.6.1.2.1.1" (.integer 1), .set ".1.3.6.1.2.1.1" (.integer 3)])
      (sampleCount.eval p.types m₀).1 = .ok 3 ∧ (sampleCount.eval p.types m₀).2 = m₀ ∧
        (execBlock p.types 0 (sampleBody ++ sampleBody ++ sampleBody) m₀).any
          fun o => o.1 = .error (.rendezvousClosed "w") ∧ o.2.printed = #["21", "213"])
    (by decide +kernel)
  obtain ⟨hthree, hsame, hblock⟩ := of_decide_eq_true h
  obtain ⟨⟨r, m⟩, hblock, hm⟩ := (Option.any_eq_true _ _).1 hblock
  obtain ⟨rfl, hprinted⟩ := of_decide_eq_true hm
  have hcount : sampleCount.eval p.types _ = (.ok 3, _) := Prod.ext hthree hsame
  have hloop := (loop_times_unrolled hcount sampleBody).1 0
  exact ⟨p, m, hp, hcount, hprinted, hloop.trans hblock, hblock⟩

end ScriptedAgent.Script
