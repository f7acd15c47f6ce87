import ScriptedAgent.Proofs.Stateful
import ScriptedAgent.Run.Exec

/-!
# Triples for evaluations and executions

`Eval.Leads I F p Q` says that from a machine with `I`, `p` ends in a result with `Q` and a machine
with `I`, or in an error and a machine that go together by `F`. `Script.Leads I F turn` says the same
of an execution that has an outcome, and a loop leads where its turns lead. `Eval.Triple` and
`Script.Safe` are the cases in which `F` asks for `I` of the machine and something of the error.
-/

namespace ScriptedAgent

variable {α β : Type} {I : Machine → Prop} {F : RuntimeError → Machine → Prop}
  {E : RuntimeError → Prop}

/-- A result with `Q` and a machine with `I`, or an error and a machine with `F`. -/
def Ends (I : Machine → Prop) (F : RuntimeError → Machine → Prop) (Q : α → Prop) :
    Except RuntimeError α × Machine → Prop
  | (.ok a, m) => I m ∧ Q a
  | (.error e, m) => F e m

/-- A result with `Q` or an error with `E`. -/
def Answers (E : RuntimeError → Prop) (Q : α → Prop) : Except RuntimeError α → Prop
  | .ok a => Q a
  | .error e => E e

theorem ends_iff_answers {Q : α → Prop} {o : Except RuntimeError α × Machine} :
    Ends I (fun e m => I m ∧ E e) Q o ↔ I o.2 ∧ Answers E Q o.1 := by
  obtain ⟨_ | _, _⟩ := o <;> exact Iff.rfl

namespace Eval

open Stateful

/-- From a machine with `I`, `p` leaves one with `I` and gives a result with `Q`, or it fails with
an error and a machine that go together by `F`. -/
def Leads (I : Machine → Prop) (F : RuntimeError → Machine → Prop) (p : Eval α) (Q : α → Prop) :
    Prop := ∀ m, I m → Ends I F Q (p m)

namespace Leads

variable {p : Eval α} {f : α → Eval β} {Q : α → Prop} {R : β → Prop}

theorem pure {a : α} (h : Q a) : Leads I F (Pure.pure a) Q := fun _ hm => ⟨hm, h⟩

theorem throw {e : RuntimeError} (h : ∀ m, I m → F e m) :
    Leads I F (MonadExcept.throw e : Eval α) Q :=
  fun m hm => h m hm

theorem run {m : Machine} {o : Except RuntimeError α × Machine} (hp : Leads I F p Q) (hm : I m)
    (h : p m = o) : Ends I F Q o :=
  h ▸ hp m hm

theorem mono {Q' : α → Prop} (hp : Leads I F p Q) (h : ∀ a, Q a → Q' a) : Leads I F p Q' := by
  intro m hm
  rcases hpm : p m with ⟨e | a, m₁⟩ <;> have hend := hp.run hm hpm
  · exact hend
  · exact ⟨hend.1, h a hend.2⟩

theorem bind (hp : Leads I F p Q) (hf : ∀ a, Q a → Leads I F (f a) R) : Leads I F (p >>= f) R := by
  intro m hm
  rw [bind_apply]
  rcases hpm : p m with ⟨e | a, m₁⟩ <;> have hend := hp.run hm hpm
  · exact hend
  · exact hf a hend.2 m₁ hend.1

end Leads

/-- From a machine with `I`, `p` leaves one with `I` and gives a result with `Q` or an error with
`E`. -/
def Triple (I : Machine → Prop) (E : RuntimeError → Prop) (p : Eval α) (Q : α → Prop) : Prop :=
  ∀ m, I m → I (p m).2 ∧ Answers E Q (p m).1

namespace Triple

variable {p : Eval α} {f : α → Eval β} {Q : α → Prop} {R : β → Prop}

theorem iff_leads : Triple I E p Q ↔ Leads I (fun e m => I m ∧ E e) p Q :=
  forall₂_congr fun _ _ => ends_iff_answers.symm

theorem pure {a : α} (h : Q a) : Triple I E (Pure.pure a) Q := iff_leads.2 (.pure h)

theorem throw {e : RuntimeError} (h : E e) : Triple I E (MonadExcept.throw e : Eval α) Q :=
  iff_leads.2 (.throw fun _ hm => ⟨hm, h⟩)

theorem run {m m' : Machine} {r : Except RuntimeError α} (hp : Triple I E p Q) (hm : I m)
    (h : p m = (r, m')) : I m' ∧ Answers E Q r :=
  ends_iff_answers.1 ((iff_leads.1 hp).run hm h)

theorem bind (hp : Triple I E p Q) (hf : ∀ a, Q a → Triple I E (f a) R) :
    Triple I E (p >>= f) R :=
  iff_leads.2 ((iff_leads.1 hp).bind fun a ha => iff_leads.1 (hf a ha))

end Triple

end Eval

namespace Script

variable {turn : Machine → Option Outcome}

/-- From a machine with `I`, an execution with an outcome leaves one with `I`, or it fails with an
error and a machine that go together by `F`. -/
def Leads (I : Machine → Prop) (F : RuntimeError → Machine → Prop)
    (turn : Machine → Option Outcome) : Prop :=
  ∀ m o, I m → turn m = some o → Ends I F (fun _ => True) o

namespace Leads

theorem settled {p : Eval Unit} (hp : Eval.Leads I F p fun _ => True) :
    Leads I F fun m => some (settled p m) := by
  rintro m o hm ⟨⟩
  unfold Script.settled
  split <;> rename_i h <;> exact hp.run hm h

theorem andThen {next : Machine → Option Outcome} (ht : Leads I F turn) (hn : Leads I F next) :
    Leads I F fun m => (turn m).bind (Outcome.andThen next) := by
  intro m o hm ho
  obtain ⟨o₁, h₁, ho⟩ := Option.bind_eq_some_iff.1 ho
  have hend := ht m o₁ hm h₁
  unfold Outcome.andThen at ho
  split at ho
  · exact hn _ o hend.1 ho
  · cases ho
    exact hend

theorem forever (ht : Leads I F turn) : ∀ n, Leads I F (forever turn n)
  | 0, m, o, _, ho => by simp [Script.forever] at ho
  | n + 1, m, o, hm, ho => by
    unfold Script.forever at ho
    split at ho
    · rename_i m₁ h₁
      exact forever ht n m₁ o (ht m _ hm h₁).1 ho
    · exact ht m o hm ho

theorem repeated (ht : Leads I F turn) : ∀ n, Leads I F (repeated turn n)
  | 0, m, o, hm, ho => by
    cases ho
    exact ⟨hm, trivial⟩
  | n + 1, m, o, hm, ho => by
    unfold Script.repeated at ho
    split at ho
    · rename_i m₁ h₁
      exact repeated ht n m₁ o (ht m _ hm h₁).1 ho
    · exact ht m o hm ho

theorem whileHolds {cond : Eval Bool} (ht : Leads I F turn)
    (hc : Eval.Leads I F cond fun _ => True) : ∀ n, Leads I F (whileHolds turn cond n)
  | 0, m, o, _, ho => by simp [Script.whileHolds] at ho
  | n + 1, m, o, hm, ho => by
    unfold Script.whileHolds at ho
    split at ho <;> rename_i m₁ h₁ <;> have hend := hc.run hm h₁
    · cases ho
      exact hend
    · cases ho
      exact hend
    · split at ho
      · rename_i m₂ h₂
        exact whileHolds ht hc n m₂ o (ht m₁ _ hend.1 h₂).1 ho
      · exact ht m₁ o hend.1 ho

end Leads

/-- From a machine with `I`, an execution with an outcome leaves one with `I`, and it ends in no
other error than those with `E`. -/
def Safe (I : Machine → Prop) (E : RuntimeError → Prop) (turn : Machine → Option Outcome) : Prop :=
  ∀ m o, I m → turn m = some o → I o.2 ∧ Answers E (fun _ => True) o.1

namespace Safe

theorem iff_leads : Safe I E turn ↔ Leads I (fun e m => I m ∧ E e) turn :=
  forall₂_congr fun _ _ => forall₂_congr fun _ _ => ends_iff_answers.symm

theorem settled {p : Eval Unit} (hp : Eval.Triple I E p fun _ => True) :
    Safe I E fun m => some (settled p m) :=
  iff_leads.2 (.settled (Eval.Triple.iff_leads.1 hp))

theorem andThen {next : Machine → Option Outcome} (ht : Safe I E turn) (hn : Safe I E next) :
    Safe I E fun m => (turn m).bind (Outcome.andThen next) :=
  iff_leads.2 ((iff_leads.1 ht).andThen (iff_leads.1 hn))

theorem forever (ht : Safe I E turn) (n : Nat) : Safe I E (forever turn n) :=
  iff_leads.2 ((iff_leads.1 ht).forever n)

theorem repeated (ht : Safe I E turn) (n : Nat) : Safe I E (repeated turn n) :=
  iff_leads.2 ((iff_leads.1 ht).repeated n)

theorem whileHolds {cond : Eval Bool} (ht : Safe I E turn)
    (hc : Eval.Triple I E cond fun _ => True) (n : Nat) : Safe I E (whileHolds turn cond n) :=
  iff_leads.2 ((iff_leads.1 ht).whileHolds (Eval.Triple.iff_leads.1 hc) n)

end Safe

end Script

end ScriptedAgent
