import ScriptedAgent.Proofs.Run.Machine
import ScriptedAgent.Proofs.Run.Triple
import ScriptedAgent.Script.Mention

/-!
# What a running script keeps

A script moves its machine in four ways only: it takes a value handed over, it assigns a variable or
a field, and it prints. A block that keeps something wherever it does one of these (`KeptAt`) keeps
it from its start to its end, whatever its kinds (`execBlock_keepsAt`). Where it matters which value
is assigned, the block has to keep it by its assignments as they are (`StepsAt`,
`execBlock_stepsAt`). What is kept at every variable is kept by every statement, as long as nothing
fails (`KeptOr`, `Stmt.exec_keepsOr`) or in any case (`Kept`, `Stmt.exec_keeps`).
-/

namespace ScriptedAgent

/-- The variable for which no value came, if that is the error. -/
def RuntimeError.awaited : RuntimeError → List String
  | rendezvousClosed x => [x]
  | _ => []

variable {α β : Type} {T : TypeTable} {I : Machine → Prop} {F : RuntimeError → Machine → Prop}

namespace Eval

open Stateful

/-- `p` keeps `I` or fails, with an error and a machine that go together by `F`. -/
def KeepsOr (I : Machine → Prop) (F : RuntimeError → Machine → Prop) (p : Eval α) : Prop :=
  Leads I F p fun _ => True

namespace KeepsOr

theorem pure (a : α) : KeepsOr I F (Pure.pure a) := Leads.pure trivial

theorem bind {p : Eval α} {f : α → Eval β} (hp : KeepsOr I F p) (hf : ∀ a, KeepsOr I F (f a)) :
    KeepsOr I F (p >>= f) :=
  Leads.bind hp fun a _ => hf a

theorem get {f : Machine → Eval β} (hf : ∀ m, KeepsOr I F (f m)) :
    KeepsOr I F ((MonadState.get : Eval Machine) >>= f) :=
  bind (fun _ hm => ⟨hm, trivial⟩) hf

/-- What is kept in any case. -/
theorem of_state {p : Eval α} (h : ∀ m, I m → I (p m).2) :
    KeepsOr I (fun _ m => I m ∧ True) p := by
  refine fun m hm => ends_iff_answers.2 ⟨h m hm, ?_⟩
  cases (p m).1 <;> trivial

end KeepsOr

end Eval

open Eval Stateful

/-- `I` is kept by every way in which a script with these types moves its machine, or else `F` holds
of the error and the machine. The errors that a script has of itself leave the machine as it is. -/
structure KeptOr (T : TypeTable) (I : Machine → Prop) (F : RuntimeError → Machine → Prop) :
    Prop where
  takes : ∀ name, KeepsOr I F (takeHandover T name)
  assignsVar : ∀ {name k}, T.kindOf? name = some k → ∀ s, KeepsOr I F (assignVar name k s)
  assignsField : ∀ {name field f}, T.field? name field = some f →
    ∀ n, KeepsOr I F (assignField name f n)
  prints : ∀ line m, I m → I { m with printed := m.printed.push line }
  fails : ∀ {e}, e.awaited = [] → ∀ m, I m → F e m

/-- `I` is kept wherever a value is taken for one of these mentions, or else `F` holds of the error
and the machine. -/
structure ReadAt (T : TypeTable) (ms : List Script.Mention) (I : Machine → Prop)
    (F : RuntimeError → Machine → Prop) : Prop where
  takes : ∀ {name}, name ∈ Script.sources ms → KeepsOr I F (takeHandover T name)
  fails : ∀ {e}, e.awaited = [] → ∀ m, I m → F e m

/-- `I` is kept wherever one of these mentions moves the machine, or else `F` holds of the error and
the machine. -/
structure KeptAt (T : TypeTable) (ms : List Script.Mention) (I : Machine → Prop)
    (F : RuntimeError → Machine → Prop) : Prop extends ReadAt T ms I F where
  assignsVar : ∀ {name k}, .var name ∈ Script.targets ms → T.kindOf? name = some k →
    ∀ s, KeepsOr I F (assignVar name k s)
  assignsField : ∀ {name field f}, .field name field ∈ Script.targets ms →
    T.field? name field = some f → ∀ n, KeepsOr I F (assignField name f n)
  prints : ∀ line m, I m → I { m with printed := m.printed.push line }

/-- `I` is kept by the assignments among these mentions, and wherever one of them is read, or else
`F` holds of the error and the machine. What an assignment stores may depend on what it evaluates. -/
structure StepsAt (T : TypeTable) (ms : List Script.Mention) (I : Machine → Prop)
    (F : RuntimeError → Machine → Prop) : Prop extends ReadAt T ms I F where
  assigns : ∀ {t e}, .assign t e ∈ ms → e.mentions ⊆ ms → KeepsOr I F (Script.assign T t e)
  prints : ∀ line m, I m → I { m with printed := m.printed.push line }

/-- `I` is kept by every way in which a script with these types moves its machine. -/
structure Kept (T : TypeTable) (I : Machine → Prop) : Prop where
  takes : ∀ name m, I m → I (takeHandover T name m).2
  assignsVar : ∀ {name k}, T.kindOf? name = some k →
    ∀ s m, I m → I (assignVar name k s m).2
  assignsField : ∀ {name field f}, T.field? name field = some f →
    ∀ n m, I m → I (assignField name f n m).2
  prints : ∀ line m, I m → I { m with printed := m.printed.push line }

theorem Kept.keptOr (h : Kept T I) : KeptOr T I fun _ m => I m ∧ True where
  takes name := .of_state (h.takes name)
  assignsVar hk s := .of_state (h.assignsVar hk s)
  assignsField hf n := .of_state (h.assignsField hf n)
  prints := h.prints
  fails _ _ hm := ⟨hm, trivial⟩

namespace ReadAt

variable {ms ms' : List Script.Mention} {name : String}

theorem mono (h : ReadAt T ms I F) (hsub : ms' ⊆ ms) : ReadAt T ms' I F where
  takes hx := h.takes (List.filterMap_subset _ hsub hx)
  fails := h.fails

theorem left (h : ReadAt T (ms ++ ms') I F) : ReadAt T ms I F :=
  h.mono (List.subset_append_left _ _)

theorem right (h : ReadAt T (ms ++ ms') I F) : ReadAt T ms' I F :=
  h.mono (List.subset_append_right _ _)

variable (h : ReadAt T ms I F)
include h

theorem throws {e : RuntimeError} (he : e.awaited = []) :
    KeepsOr I F (throw e : Eval α) :=
  Leads.throw (h.fails he)

theorem checks : ∀ r, KeepsOr I F (checked r)
  | none => h.throws rfl
  | some n => .pure n

theorem current (hx : name ∈ Script.sources ms) : KeepsOr I F (current T name) := by
  refine .bind (h.takes hx) fun v => ?_
  rcases v with _ | v
  · refine .get fun m => ?_
    split
    · exact .pure _
    · exact h.throws rfl
  · exact .pure v

theorem load (hx : name ∈ Script.sources ms) : KeepsOr I F (load T name) := by
  unfold Eval.load
  split
  · exact h.throws rfl
  · refine .bind (h.current hx) fun v => ?_
    split
    · exact .pure _
    · exact h.throws rfl

theorem fieldDef (field : String) : KeepsOr I F (fieldDef T name field) := by
  unfold Eval.fieldDef
  split
  · exact .pure _
  · exact h.throws rfl

theorem loadField (hx : name ∈ Script.sources ms) (field : String) :
    KeepsOr I F (loadField T name field) := by
  refine .bind (h.takes hx) fun _ => .bind (h.fieldDef field) fun _ => .get fun m => ?_
  split
  · exact h.throws rfl
  · exact h.checks _

end ReadAt

namespace KeptAt

variable {ms ms' : List Script.Mention}

theorem of_keptOr (h : KeptOr T I F) : KeptAt T ms I F where
  takes _ := h.takes _
  assignsVar _ := h.assignsVar
  assignsField _ := h.assignsField
  prints := h.prints
  fails := h.fails

theorem mono (h : KeptAt T ms I F) (hsub : ms' ⊆ ms) : KeptAt T ms' I F where
  toReadAt := h.toReadAt.mono hsub
  assignsVar hx := h.assignsVar (List.filterMap_subset _ hsub hx)
  assignsField hx := h.assignsField (List.filterMap_subset _ hsub hx)
  prints := h.prints

theorem tail {c : Script.Mention} (h : KeptAt T (c :: ms) I F) : KeptAt T ms I F :=
  h.mono (List.subset_cons_self _ _)

end KeptAt

namespace StepsAt

variable {ms ms' : List Script.Mention}

theorem mono (h : StepsAt T ms I F) (hsub : ms' ⊆ ms) : StepsAt T ms' I F where
  toReadAt := h.toReadAt.mono hsub
  assigns ht he := h.assigns (hsub ht) (List.Subset.trans he hsub)
  prints := h.prints

theorem left (h : StepsAt T (ms ++ ms') I F) : StepsAt T ms I F :=
  h.mono (List.subset_append_left _ _)

theorem right (h : StepsAt T (ms ++ ms') I F) : StepsAt T ms' I F :=
  h.mono (List.subset_append_right _ _)

end StepsAt

/-! ## Expressions -/

namespace Script

variable {ms : List Mention} {name : String}

theorem quotient_keepsAt (h : ReadAt T ms I F) (a b : Number) : KeepsOr I F (quotient a b) := by
  unfold quotient
  split
  · exact h.throws rfl
  · exact h.checks _

theorem loadInt_keepsAt (h : ReadAt T ms I F) (hx : name ∈ sources ms) :
    KeepsOr I F (loadInt T name) := by
  refine .bind (h.load hx) fun s => ?_
  split
  · exact .pure _
  · exact h.throws rfl

theorem loadBool_keepsAt (h : ReadAt T ms I F) (hx : name ∈ sources ms) :
    KeepsOr I F (loadBool T name) := by
  refine .bind (h.load hx) fun s => ?_
  split
  · exact .pure _
  · exact h.throws rfl

theorem loadStr_keepsAt (h : ReadAt T ms I F) (hx : name ∈ sources ms) :
    KeepsOr I F (loadStr T name) := by
  refine .bind (h.load hx) fun s => ?_
  split
  · exact .pure _
  · exact h.throws rfl

theorem loadBits_keepsAt (h : ReadAt T ms I F) (hx : name ∈ sources ms) :
    KeepsOr I F (loadBits T name) := by
  refine .bind (h.load hx) fun s => ?_
  split
  · exact .pure _
  · exact h.throws rfl

theorem mem_sources_read (g : Grammar) (x : String) : x ∈ sources [.read g x] := List.mem_cons_self

theorem mem_sources_readField (x f : String) : x ∈ sources [.readField x f] := List.mem_cons_self

theorem mem_targets_assign {t : Target} {e : Expr} : t ∈ targets (.assign t e :: ms) :=
  List.mem_cons_self

mutual

theorem IntExpr.eval_keepsAt : ∀ e : IntExpr, ReadAt T e.mentions I F → KeepsOr I F (e.eval T)
  | .term t, h => t.eval_keepsAt h
  | .add e t, h =>
    .bind (e.eval_keepsAt h.left) fun _ => .bind (t.eval_keepsAt h.right) fun _ => h.checks _
  | .sub e t, h =>
    .bind (e.eval_keepsAt h.left) fun _ => .bind (t.eval_keepsAt h.right) fun _ => h.checks _

theorem IntTerm.eval_keepsAt : ∀ t : IntTerm, ReadAt T t.mentions I F → KeepsOr I F (t.eval T)
  | .factor f, h => f.eval_keepsAt h
  | .mul t f, h =>
    .bind (t.eval_keepsAt h.left) fun _ => .bind (f.eval_keepsAt h.right) fun _ => h.checks _
  | .div t f, h =>
    .bind (t.eval_keepsAt h.left) fun _ => .bind (f.eval_keepsAt h.right) fun _ =>
      quotient_keepsAt h _ _

theorem IntFactor.eval_keepsAt : ∀ f : IntFactor,
    ReadAt T f.mentions I F → KeepsOr I F (f.eval T)
  | .const n, _ => .pure n
  | .var x, h => loadInt_keepsAt h (mem_sources_read _ x)
  | .field x f, h => h.loadField (mem_sources_readField x f) f
  | .neg f, h => .bind (f.eval_keepsAt h) fun _ => h.checks _
  | .group e, h => e.eval_keepsAt h

end

mutual

theorem BoolExpr.eval_keepsAt : ∀ e : BoolExpr, ReadAt T e.mentions I F → KeepsOr I F (e.eval T)
  | .term t, h => t.eval_keepsAt h
  | .or e t, h => .bind (e.eval_keepsAt h.left) fun b => by
    cases b
    · exact t.eval_keepsAt h.right
    · exact .pure true

theorem BoolTerm.eval_keepsAt : ∀ t : BoolTerm, ReadAt T t.mentions I F → KeepsOr I F (t.eval T)
  | .factor f, h => f.eval_keepsAt h
  | .and t f, h => .bind (t.eval_keepsAt h.left) fun b => by
    cases b
    · exact .pure false
    · exact f.eval_keepsAt h.right

theorem BoolFactor.eval_keepsAt : ∀ f : BoolFactor,
    ReadAt T f.mentions I F → KeepsOr I F (f.eval T)
  | .const b, _ => .pure b
  | .var x, h => loadBool_keepsAt h (mem_sources_read _ x)
  | .not f, h => .bind (f.eval_keepsAt h) fun _ => .pure _
  | .group e, h => e.eval_keepsAt h
  | .compare _ l r, h =>
    .bind (l.eval_keepsAt h.left) fun _ => .bind (r.eval_keepsAt h.right) fun _ => .pure _

end

theorem evalPositions_keepsAt : ∀ es : List IntExpr,
    ReadAt T (es.flatMap IntExpr.mentions) I F → KeepsOr I F (evalPositions T es)
  | [], _ => .pure []
  | e :: es, h => by
    rw [List.flatMap_cons] at h
    refine .bind (e.eval_keepsAt h.left) fun n => ?_
    split
    · exact h.throws rfl
    · exact .bind (evalPositions_keepsAt es h.right) fun _ => .pure _

mutual

theorem BitsExpr.eval_keepsAt : ∀ e : BitsExpr, ReadAt T e.mentions I F → KeepsOr I F (e.eval T)
  | .term t, h => t.eval_keepsAt h
  | .union e t, h =>
    .bind (e.eval_keepsAt h.left) fun _ => .bind (t.eval_keepsAt h.right) fun _ => .pure _

theorem BitsTerm.eval_keepsAt : ∀ t : BitsTerm, ReadAt T t.mentions I F → KeepsOr I F (t.eval T)
  | .set es, h => .bind (evalPositions_keepsAt es h) fun _ => .pure _
  | .var x, h => loadBits_keepsAt h (mem_sources_read _ x)
  | .group e, h => e.eval_keepsAt h

end

mutual

theorem StrExpr.eval_keepsAt : ∀ e : StrExpr, ReadAt T e.mentions I F → KeepsOr I F (e.eval T)
  | .term t, h => t.eval_keepsAt h
  | .append e t, h =>
    .bind (e.eval_keepsAt h.left) fun _ => .bind (t.eval_keepsAt h.right) fun _ => .pure _

theorem StrTerm.eval_keepsAt : ∀ t : StrTerm, ReadAt T t.mentions I F → KeepsOr I F (t.eval T)
  | .literal s, _ => .pure s
  | .var x, h => loadStr_keepsAt h (mem_sources_read _ x)
  | .group e, h => e.eval_keepsAt h
  | .ofInt e, h => .bind (e.eval_keepsAt h) fun _ => .pure _
  | .ofBool e, h => .bind (e.eval_keepsAt h) fun _ => .pure _
  | .ofBits e, h => .bind (e.eval_keepsAt h) fun _ => .pure _

end

theorem Expr.eval_keepsAt : ∀ e : Expr, ReadAt T e.mentions I F → KeepsOr I F (e.eval T)
  | int e, h => .bind (e.eval_keepsAt h) fun _ => .pure _
  | bool e, h => .bind (e.eval_keepsAt h) fun _ => .pure _
  | str e, h => .bind (e.eval_keepsAt h) fun _ => .pure _
  | bits e, h => .bind (e.eval_keepsAt h) fun _ => .pure _

/-! ## Statements -/

variable {fuel : Nat}

theorem assign_keepsAt : ∀ (t : Target) (e : Expr),
    KeptAt T (.assign t e :: e.mentions) I F → KeepsOr I F (assign T t e)
  | .var x, e, h => by
    simp only [assign]
    split
    · exact h.throws rfl
    · rename_i k hk
      exact .bind (e.eval_keepsAt h.tail.toReadAt) (h.assignsVar mem_targets_assign hk)
  | .field x f, .int e, h => by
    simp only [assign]
    split
    · exact h.throws rfl
    · refine .bind (e.eval_keepsAt h.tail.toReadAt) fun n => ?_
      unfold fieldDef
      split
      · rename_i fd hf
        exact h.assignsField mem_targets_assign hf n
      · exact h.throws rfl
  | .field x f, .bool _, h | .field x f, .str _, h | .field x f, .bits _, h => by
    simp only [assign]
    split
    · exact h.throws rfl
    · exact h.throws rfl

theorem stepsAt_of_keptAt (h : KeptAt T ms I F) : StepsAt T ms I F where
  toReadAt := h.toReadAt
  assigns ht he := assign_keepsAt _ _ (h.mono (List.cons_subset.2 ⟨ht, he⟩))
  prints := h.prints

theorem print_stepsAt (e : StrExpr) (h : StepsAt T e.mentions I F) : KeepsOr I F (print T e) :=
  .bind (e.eval_keepsAt h.toReadAt) fun line m hm => ⟨h.prints line m hm, trivial⟩

theorem pause_readAt (e : IntExpr) (h : ReadAt T e.mentions I F) : KeepsOr I F (pause T e) := by
  refine .bind (e.eval_keepsAt h) fun n => ?_
  split
  · exact h.throws rfl
  · exact .pure _

mutual

theorem Stmt.exec_stepsAt : ∀ s : Stmt, StepsAt T s.mentions I F → Leads I F (s.exec T fuel)
  | .assign _ _, h => .settled (h.assigns List.mem_cons_self (List.subset_cons_self _ _))
  | .print e, h => .settled (print_stepsAt e h)
  | .sleep e _, h => .settled (pause_readAt e h.toReadAt)
  | .exit, _ => by
    rintro m o hm ⟨⟩
    exact ⟨hm, trivial⟩
  | .branch cond body rest, h => by
    intro m o hm ho
    unfold Stmt.exec at ho
    split at ho <;> rename_i m₁ h₁ <;>
      have hend := (cond.eval_keepsAt h.left.left.toReadAt).run hm h₁
    · cases ho
      exact hend
    · exact execBlock_stepsAt body h.left.right m₁ o hend.1 ho
    · exact rest.exec_stepsAt h.right m₁ o hend.1 ho
  | .loop .forever body, h => .forever (execBlock_stepsAt body h.right) fuel
  | .loop (.times count) body, h => by
    intro m o hm ho
    unfold Stmt.exec at ho
    split at ho <;> rename_i m₁ h₁ <;> have hend := (count.eval_keepsAt h.left.toReadAt).run hm h₁
    · cases ho
      exact hend
    · exact Leads.repeated (execBlock_stepsAt body h.right) _ m₁ o hend.1 ho
  | .loop (.while cond) body, h =>
    .whileHolds (execBlock_stepsAt body h.right) (cond.eval_keepsAt h.left.toReadAt) fuel

theorem Branches.exec_stepsAt : ∀ b : Branches, StepsAt T b.mentions I F → Leads I F (b.exec T fuel)
  | .otherwise body, h => execBlock_stepsAt body h
  | .elseif cond body rest, h => by
    intro m o hm ho
    unfold Branches.exec at ho
    split at ho <;> rename_i m₁ h₁ <;>
      have hend := (cond.eval_keepsAt h.left.left.toReadAt).run hm h₁
    · cases ho
      exact hend
    · exact execBlock_stepsAt body h.left.right m₁ o hend.1 ho
    · exact rest.exec_stepsAt h.right m₁ o hend.1 ho

/-- A block that has an outcome leaves a machine with what its assignments keep, unless it fails. -/
theorem execBlock_stepsAt : ∀ ss : List Stmt,
    StepsAt T (blockMentions ss) I F → Leads I F (execBlock T fuel ss)
  | [], _ => by
    rintro m o hm ⟨⟩
    exact ⟨hm, trivial⟩
  | s :: ss, h => .andThen (s.exec_stepsAt h.left) (execBlock_stepsAt ss h.right)

end

theorem Stmt.exec_keepsAt (s : Stmt) (h : KeptAt T s.mentions I F) : Leads I F (s.exec T fuel) :=
  s.exec_stepsAt (stepsAt_of_keptAt h)

/-- A block that has an outcome leaves a machine with what is kept where it moves it, unless it
fails. -/
theorem execBlock_keepsAt (ss : List Stmt) (h : KeptAt T (blockMentions ss) I F) :
    Leads I F (execBlock T fuel ss) :=
  execBlock_stepsAt ss (stepsAt_of_keptAt h)

/-- A statement that has an outcome leaves a machine with what its steps keep, unless it fails. -/
theorem Stmt.exec_keepsOr (h : KeptOr T I F) (s : Stmt) : Leads I F (s.exec T fuel) :=
  s.exec_keepsAt (.of_keptOr h)

theorem execBlock_keepsOr (h : KeptOr T I F) (ss : List Stmt) : Leads I F (execBlock T fuel ss) :=
  execBlock_keepsAt ss (.of_keptOr h)

/-- A statement that has an outcome leaves a machine with what its steps keep. -/
theorem Stmt.exec_keeps (h : Kept T I) (s : Stmt) : Safe I (fun _ => True) (s.exec T fuel) :=
  Safe.iff_leads.2 (s.exec_keepsOr h.keptOr)

end Script

end ScriptedAgent
