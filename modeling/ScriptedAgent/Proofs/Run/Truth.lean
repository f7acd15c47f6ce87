import ScriptedAgent.Proofs.Run.Exact
import ScriptedAgent.Proofs.Run.Triple
import ScriptedAgent.Run.Truth

/-!
# Conditions come to their truth

A condition whose atoms all have a result by themselves comes to its truth, although an evaluation
need not come to all of them (`BoolExpr.eval_truth`). The operands it does not come to make no
difference to the result or to the machine (`BoolExpr.Agrees.eval_eq`).
-/

namespace ScriptedAgent

variable {α β : Type} {T : TypeTable} {m : Machine}

/-- A value that is read as a boolean is the TruthValue of it. -/
theorem Value.eq_of_toScalar_bool {k : Kind} {v : Value} {b : Bool}
    (h : v.toScalar k = .ok (.bool b)) : v = .integer (truthValue b) := by
  unfold toScalar at h
  split at h
  · split at h
    · rename_i hb
      cases h
      rw [ofTruthValue?_eq_some_iff.1 hb]
    · cases h
  all_goals cases h

theorem Field.eq_value_of_read {f : Field} {b : List UInt8} {n : Nat} (h : f.read b = .ok n) :
    n = f.value b := by
  unfold read at h
  split at h
  · cases h
  · cases h
    rfl

theorem Store.of_readField {s : Store} {name : String} {f : Field} {n : Nat}
    (h : s.readField name f = .ok n) :
    ∃ b, s.read? name = some (.block b) ∧ n = f.value b := by
  unfold readField at h
  split at h
  · cases h
  · rename_i b hb
    split at h
    · cases h
    · rename_i v hv
      cases h
      exact ⟨b, of_block hb, Field.eq_value_of_read hv⟩

namespace Eval

open Script Stateful

/-- Where `p` has a result from `m`, it leaves `m` as it is and the result has `Q`. -/
def Finds (m : Machine) (p : Eval α) (Q : α → Prop) : Prop := Leads (· = m) (fun _ _ => True) p Q

namespace Finds

variable {p : Eval α} {f : α → Eval β} {Q : α → Prop} {R : β → Prop}

theorem pure {a : α} (h : Q a) : Finds m (Pure.pure a) Q := Leads.pure h

theorem throw (e : RuntimeError) : Finds m (MonadExcept.throw e : Eval α) Q :=
  Leads.throw fun _ _ => trivial

theorem bind (hp : Finds m p Q) (hf : ∀ a, Q a → Finds m (f a) R) : Finds m (p >>= f) R :=
  Leads.bind hp hf

theorem of_computes {p : Eval Number} {xs : List Step} {a : Int} (h : Computes m p xs a) :
    Finds m p (·.toInt = a) := by
  rintro _ rfl
  unfold Computes at h
  split at h
  · obtain ⟨n, hn, hval⟩ := h
    rw [hn]
    exact ⟨rfl, hval⟩
  · rw [h]
    trivial

/-- An operation on two operands. -/
theorem operation {p q : Eval Number} {g : Number → Number → Eval Number} {a b : Int}
    (op : Int → Int → Int) (hp : Finds m p (·.toInt = a)) (hq : Finds m q (·.toInt = b))
    (hg : ∀ n k : Number, Finds m (g n k) (·.toInt = op n.toInt k.toInt)) :
    Finds m (p >>= fun n => q >>= g n) (·.toInt = op a b) := by
  refine hp.bind fun n hn => hq.bind fun k hk => ?_
  rw [← hn, ← hk]
  exact hg n k

theorem eq_ok {a : α} (h : Finds m p (· = a)) (hok : ∃ b, (p m).1 = .ok b) : p m = (.ok a, m) := by
  obtain ⟨b, hb⟩ := hok
  rcases hpm : p m with ⟨r, m'⟩
  rw [hpm] at hb
  obtain rfl : r = .ok b := hb
  obtain ⟨rfl, rfl⟩ := Leads.run h rfl hpm
  rfl

end Finds

/-! ## Operands -/

section

variable {name field : String}

theorem current_finds (hb : isBlocking T name = false) :
    Finds m (current T name) (m.store.read? name = some ·) := by
  rintro m rfl
  simp only [current, bind_apply, takeHandover_of_not_blocking hb, get_apply]
  cases m.store.read? name with
  | none => trivial
  | some v => exact ⟨rfl, rfl⟩

theorem load_finds (hb : isBlocking T name = false) : Finds m (load T name) fun s =>
    ∃ k v, m.store.read? name = some v ∧ v.toScalar k = .ok s := by
  unfold load
  split
  · exact .throw _
  · rename_i k _
    refine (current_finds hb).bind fun v hv => ?_
    split
    · rename_i hs
      exact .pure ⟨k, v, hv, hs⟩
    · exact .throw _

theorem loadInt_finds (hb : isBlocking T name = false) :
    Finds m (loadInt T name) (·.toInt = m.store.operands.var name) := by
  refine (load_finds hb).bind fun s hs => ?_
  obtain ⟨k, v, hv, hs⟩ := hs
  cases s with
  | int n =>
    refine .pure ?_
    simp only [Store.operands, hv, Option.map_some, Option.getD_some]
    exact Value.toInt_of_toScalar hs
  | bool _ | str _ | bits _ => exact .throw _

theorem loadBool_finds (hb : isBlocking T name = false) :
    Finds m (loadBool T name) (· = m.store.facts.holds name) := by
  refine (load_finds hb).bind fun s hs => ?_
  obtain ⟨k, v, hv, hs⟩ := hs
  cases s with
  | bool b =>
    refine .pure ?_
    simp only [Store.facts, hv, Value.eq_of_toScalar_bool hs]
    cases b <;> rfl
  | int _ | str _ | bits _ => exact .throw _

theorem loadField_finds (hb : isBlocking T name = false) :
    Finds m (loadField T name field) (·.toInt = (m.store.seenBy T).operands.field name field) := by
  rintro m rfl
  rw [loadField_apply, takeHandover_of_not_blocking hb]
  dsimp only
  cases hf : T.field? name field with
  | none => trivial
  | some f =>
    cases hread : m.store.readField name f with
    | error e =>
      simp only [hread]
      trivial
    | ok v =>
      obtain ⟨b, hblock, rfl⟩ := Store.of_readField hread
      have hvalue : (m.store.seenBy T).operands.field name field = f.value b := by
        have hblock' : (m.store.seenBy T).read? name = some (.block b) := hblock
        have hf' : (m.store.seenBy T).types.field? name field = some f := hf
        simp only [Store.operands, Store.fieldValue, hblock', hf']
      simp only [hread, hvalue]
      exact Finds.of_computes (.result _) m rfl

end

end Eval

namespace Script

open Eval Stateful

namespace Unawaited

variable {ms ms' : List Mention}

theorem left (h : Unawaited T (ms ++ ms')) : Unawaited T ms := fun x hx =>
  h x (List.filterMap_subset _ (List.subset_append_left ms ms') hx)

theorem right (h : Unawaited T (ms ++ ms')) : Unawaited T ms' := fun x hx =>
  h x (List.filterMap_subset _ (List.subset_append_right ms ms') hx)

end Unawaited

/-! ## Integer expressions -/

theorem Comparison.holds_eq_exact (op : Comparison) (a b : Number) :
    op.holds a b = op.exact a.toInt b.toInt := by
  cases op <;> rfl

mutual

theorem IntExpr.eval_finds : ∀ e : IntExpr, Unawaited T e.mentions →
    Finds m (e.eval T) (·.toInt = e.exact (m.store.seenBy T).operands)
  | .term t, h => t.eval_finds h
  | .add e t, h => by
    rw [IntExpr.eval, IntExpr.exact]
    exact .operation (· + ·) (e.eval_finds h.left) (t.eval_finds h.right) fun _ _ =>
      .of_computes (.result _)
  | .sub e t, h => by
    rw [IntExpr.eval, IntExpr.exact]
    exact .operation (· - ·) (e.eval_finds h.left) (t.eval_finds h.right) fun _ _ =>
      .of_computes (.result _)

theorem IntTerm.eval_finds : ∀ t : IntTerm, Unawaited T t.mentions →
    Finds m (t.eval T) (·.toInt = t.exact (m.store.seenBy T).operands)
  | .factor f, h => f.eval_finds h
  | .mul t f, h => by
    rw [IntTerm.eval, IntTerm.exact]
    exact .operation (· * ·) (t.eval_finds h.left) (f.eval_finds h.right) fun _ _ =>
      .of_computes (.result _)
  | .div t f, h => by
    rw [IntTerm.eval, IntTerm.exact]
    exact .operation Int.tdiv (t.eval_finds h.left) (f.eval_finds h.right) fun _ _ =>
      .of_computes (.quotient _ _)

theorem IntFactor.eval_finds : ∀ f : IntFactor, Unawaited T f.mentions →
    Finds m (f.eval T) (·.toInt = f.exact (m.store.seenBy T).operands)
  | .const n, _ => .pure rfl
  | .var x, h => loadInt_finds (h x (List.mem_cons_self))
  | .field x f, h => loadField_finds (h x (List.mem_cons_self))
  | .neg f, h => by
    rw [IntFactor.eval, IntFactor.exact]
    refine (f.eval_finds h).bind fun a ha => ?_
    rw [← ha]
    exact .of_computes (.result _)
  | .group e, h => e.eval_finds h

end

/-! ## Conditions -/

/-- By itself it has a result in `m`, and it reads no blocking variable. -/
def BoolFactor.Succeeds (f : BoolFactor) (T : TypeTable) (m : Machine) : Prop :=
  Unawaited T f.mentions ∧ ∃ b, (f.eval T m).1 = .ok b

theorem BoolFactor.eval_var {x : String} (h : (BoolFactor.var x).Succeeds T m) :
    (BoolFactor.var x).eval T m = (.ok (m.store.facts.holds x), m) :=
  (loadBool_finds (h.1 x List.mem_cons_self)).eq_ok h.2

theorem BoolFactor.eval_compare {op : Comparison} {l r : IntExpr}
    (h : (BoolFactor.compare op l r).Succeeds T m) :
    (BoolFactor.compare op l r).eval T m =
      (.ok (op.exact (l.exact (m.store.seenBy T).operands) (r.exact (m.store.seenBy T).operands)),
        m) := by
  refine Finds.eq_ok ?_ h.2
  refine (l.eval_finds h.1.left).bind fun a ha => (r.eval_finds h.1.right).bind fun b hb => ?_
  rw [← ha, ← hb, ← Comparison.holds_eq_exact]
  exact .pure rfl

theorem BoolExpr.or_apply (e : BoolExpr) (t : BoolTerm) (m : Machine) :
    (BoolExpr.or e t).eval T m = match e.eval T m with
      | (.ok false, m') => t.eval T m'
      | o => o := by
  rw [BoolExpr.eval, bind_apply]
  rcases e.eval T m with ⟨_ | _ | _, m'⟩ <;> rfl

theorem BoolTerm.and_apply (t : BoolTerm) (f : BoolFactor) (m : Machine) :
    (BoolTerm.and t f).eval T m = match t.eval T m with
      | (.ok true, m') => f.eval T m'
      | o => o := by
  rw [BoolTerm.eval, bind_apply]
  rcases t.eval T m with ⟨_ | _ | _, m'⟩ <;> rfl

theorem BoolFactor.not_apply (f : BoolFactor) (m : Machine) :
    (BoolFactor.not f).eval T m = match f.eval T m with
      | (.ok b, m') => (.ok !b, m')
      | (.error e, m') => (.error e, m') := by
  rw [BoolFactor.eval, bind_apply]
  rcases f.eval T m with ⟨_ | _, m'⟩ <;> rfl

mutual

theorem BoolExpr.eval_truth : ∀ e : BoolExpr, (∀ f ∈ e.atoms, f.Succeeds T m) →
    e.eval T m = (.ok (e.truth (m.store.seenBy T).facts), m)
  | .term t, h => t.eval_truth h
  | .or e t, h => by
    have he := e.eval_truth fun f hf => h f (List.mem_append_left _ hf)
    have ht := t.eval_truth fun f hf => h f (List.mem_append_right _ hf)
    rw [BoolExpr.or_apply, he, BoolExpr.truth]
    cases e.truth (m.store.seenBy T).facts with
    | true => rfl
    | false => exact ht

theorem BoolTerm.eval_truth : ∀ t : BoolTerm, (∀ f ∈ t.atoms, f.Succeeds T m) →
    t.eval T m = (.ok (t.truth (m.store.seenBy T).facts), m)
  | .factor f, h => f.eval_truth h
  | .and t f, h => by
    have ht := t.eval_truth fun g hg => h g (List.mem_append_left _ hg)
    have hf := f.eval_truth fun g hg => h g (List.mem_append_right _ hg)
    rw [BoolTerm.and_apply, ht, BoolTerm.truth]
    cases t.truth (m.store.seenBy T).facts with
    | true => exact hf
    | false => rfl

theorem BoolFactor.eval_truth : ∀ f : BoolFactor, (∀ g ∈ f.atoms, g.Succeeds T m) →
    f.eval T m = (.ok (f.truth (m.store.seenBy T).facts), m)
  | .const _, _ => rfl
  | .var _, h => BoolFactor.eval_var (h _ List.mem_cons_self)
  | .not f, h => by
    rw [BoolFactor.not_apply, f.eval_truth h, BoolFactor.truth]
  | .group e, h => e.eval_truth h
  | .compare _ _ _, h => BoolFactor.eval_compare (h _ List.mem_cons_self)

end

/-! ## Operands that are skipped -/

theorem BoolExpr.or_decided {e : BoolExpr} (h : (e.eval T m).1 ≠ .ok false) (t : BoolTerm) :
    (BoolExpr.or e t).eval T m = e.eval T m := by
  rw [or_apply]
  split
  · rename_i heval
    exact absurd (congrArg Prod.fst heval) h
  · rfl

theorem BoolTerm.and_decided {t : BoolTerm} (h : (t.eval T m).1 ≠ .ok true) (f : BoolFactor) :
    (BoolTerm.and t f).eval T m = t.eval T m := by
  rw [and_apply]
  split
  · rename_i heval
    exact absurd (congrArg Prod.fst heval) h
  · rfl

theorem BoolExpr.orAll_decided {e : BoolExpr} (h : (e.eval T m).1 ≠ .ok false)
    (ts : List BoolTerm) : (e.orAll ts).eval T m = e.eval T m := by
  refine List.foldlRecOn (motive := fun c : BoolExpr => c.eval T m = e.eval T m) ts .or rfl ?_
  intro c hc t _
  rw [or_decided (by rwa [hc]), hc]

theorem BoolTerm.andAll_decided {t : BoolTerm} (h : (t.eval T m).1 ≠ .ok true)
    (fs : List BoolFactor) : (t.andAll fs).eval T m = t.eval T m := by
  refine List.foldlRecOn (motive := fun c : BoolTerm => c.eval T m = t.eval T m) fs .and rfl ?_
  intro c hc f _
  rw [and_decided (by rwa [hc]), hc]

mutual

theorem BoolExpr.Agrees.eval_eq {m : Machine} {e e' : BoolExpr} :
    BoolExpr.Agrees T m e e' → e'.eval T m = e.eval T m
  | .refl _ _ => rfl
  | .term ht => ht.eval_eq
  | .or he heval ht => by
    rw [BoolExpr.or_apply, BoolExpr.or_apply, he.eval_eq, heval]
    exact ht.eval_eq
  | .decided he hd _ _ => by
    rw [BoolExpr.orAll_decided hd, BoolExpr.orAll_decided (by rwa [he.eval_eq]), he.eval_eq]

theorem BoolTerm.Agrees.eval_eq {m : Machine} {t t' : BoolTerm} :
    BoolTerm.Agrees T m t t' → t'.eval T m = t.eval T m
  | .refl _ _ => rfl
  | .factor hf => hf.eval_eq
  | .and ht heval hf => by
    rw [BoolTerm.and_apply, BoolTerm.and_apply, ht.eval_eq, heval]
    exact hf.eval_eq
  | .decided ht hd _ _ => by
    rw [BoolTerm.andAll_decided hd, BoolTerm.andAll_decided (by rwa [ht.eval_eq]), ht.eval_eq]

theorem BoolFactor.Agrees.eval_eq {m : Machine} {f f' : BoolFactor} :
    BoolFactor.Agrees T m f f' → f'.eval T m = f.eval T m
  | .refl _ _ => rfl
  | .not hf => by rw [BoolFactor.not_apply, BoolFactor.not_apply, hf.eval_eq]
  | .group he => he.eval_eq

end

/-- Stopping early gives the truth of a condition, and what it leaves out may be anything. -/
theorem BoolExpr.eval_shortCircuit (T : TypeTable) (m : Machine) (e : BoolExpr) :
    ((∀ f ∈ e.atoms, f.Succeeds T m) →
      e.eval T m = (.ok (e.truth (m.store.seenBy T).facts), m)) ∧
    ∀ e', BoolExpr.Agrees T m e e' → e'.eval T m = e.eval T m :=
  ⟨e.eval_truth, fun _ h => h.eval_eq⟩

/-- `n = 0` -/
def sampleZero : BoolFactor :=
  .compare .equal (.term (.factor (.var "n"))) (.constant 0)

/-- `1 / n = 1` -/
def sampleInverse : BoolFactor :=
  .compare .equal (.term (.div (.factor (.const 1)) (.var "n"))) (.constant 1)

/-- `n = 0 | b` -/
def sampleChoice : BoolExpr := .or (.term (.factor sampleZero)) (.factor (.var "b"))

/-- `n = 0 | 1 / n = 1 & w | w` -/
def sampleDecided : BoolExpr :=
  .or (.or (.term (.factor sampleZero)) (.and (.factor sampleInverse) (.var "w")))
    (.factor (.var "w"))

/-- The variables as they are loaded, and nothing to hand over. -/
def unfedMachine (T : TypeTable) : Machine := .start (Store.load T) (.ofItems T [])

/-- The division would fail and no value is handed over for `w`. -/
theorem BoolExpr.eval_shortCircuit_divisionByZero : ∃ p,
    Program.parse ("var\n n: integer\n b: boolean\n w: 1 boolean blocking\nendvar\nrun\n" ++
      "b = n = 0 | b\nb = n = 0 | 1 / n = 1 & w | w\nendrun\n") Oid.mib2 = .ok p ∧
    let m := unfedMachine p.types
    blockMentions p.body = (Stmt.assign (.var "b") (.bool sampleChoice)).mentions ++
      (Stmt.assign (.var "b") (.bool sampleDecided)).mentions ∧
    (sampleInverse.eval p.types m).1 = .error .divisionByZero ∧
    ((BoolFactor.var "w").eval p.types m).1 = .error (.rendezvousClosed "w") ∧
    sampleChoice.truth (m.store.seenBy p.types).facts = true ∧
    sampleChoice.eval p.types m = (.ok true, m) ∧ sampleDecided.eval p.types m = (.ok true, m) := by
  obtain ⟨p, hp, h⟩ := Program.exists_parse
    ("var\n n: integer\n b: boolean\n w: 1 boolean blocking\nendvar\nrun\n" ++
      "b = n = 0 | b\nb = n = 0 | 1 / n = 1 & w | w\nendrun\n") Oid.mib2
    (fun p =>
      let m := unfedMachine p.types
      blockMentions p.body = (Stmt.assign (.var "b") (.bool sampleChoice)).mentions ++
          (Stmt.assign (.var "b") (.bool sampleDecided)).mentions ∧
        (sampleInverse.eval p.types m).1 = .error .divisionByZero ∧
        ((BoolFactor.var "w").eval p.types m).1 = .error (.rendezvousClosed "w") ∧
        (Unawaited p.types sampleZero.mentions ∧ (sampleZero.eval p.types m).1 = .ok true) ∧
        (Unawaited p.types (BoolFactor.var "b").mentions ∧
          ((BoolFactor.var "b").eval p.types m).1 = .ok false) ∧
        sampleChoice.truth (m.store.seenBy p.types).facts = true)
    (by decide +kernel)
  obtain ⟨hbody, hinverse, hw, ⟨hzero, hzero'⟩, ⟨hb, hb'⟩, htruth⟩ := of_decide_eq_true h
  have hshort := BoolExpr.eval_shortCircuit p.types (unfedMachine p.types) sampleChoice
  have hatoms : ∀ f ∈ sampleChoice.atoms, f.Succeeds p.types (unfedMachine p.types) := by
    intro f hf
    obtain rfl | rfl : f = sampleZero ∨ f = .var "b" := by
      simpa [sampleChoice, BoolExpr.atoms, BoolTerm.atoms, BoolFactor.atoms, sampleZero] using hf
    · exact ⟨hzero, true, hzero'⟩
    · exact ⟨hb, false, hb'⟩
  have heval := hshort.1 hatoms
  rw [htruth] at heval
  have hagrees : BoolExpr.Agrees p.types (unfedMachine p.types) sampleChoice sampleDecided := by
    refine .decided (e := .term (.factor sampleZero)) (.refl _ _) ?_ [.factor (.var "b")]
      [.and (.factor sampleInverse) (.var "w"), .factor (.var "w")]
    intro hfalse
    exact absurd (hzero'.symm.trans hfalse) (by decide)
  exact ⟨p, hp, hbody, hinverse, hw, htruth, heval, (hshort.2 _ hagrees).trans heval⟩

end Script

end ScriptedAgent
