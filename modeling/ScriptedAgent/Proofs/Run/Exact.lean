import ScriptedAgent.Proofs.Run.Machine
import ScriptedAgent.Proofs.Script.Mentions
import ScriptedAgent.Proofs.Store.Reachable
import ScriptedAgent.Run.Eval
import ScriptedAgent.Run.Exact

/-!
# Integer expressions are exact or fail

An integer expression that reads no blocking variable leaves the machine as it is. It comes to its
exact value if none of its steps fails, and else to the error of the first that does
(`IntExpr.eval_exact`). `Eval.Computes` says this of any evaluation, and `Eval.Computes.bind` puts
two of them together.
-/

namespace ScriptedAgent

theorem Number.ofInt?_of_fits {n : Int} (h : Fits n) : ∃ a, ofInt? n = some a ∧ a.toInt = n := by
  cases ha : ofInt? n with
  | none =>
    obtain ⟨hlow, hhigh⟩ := h
    rcases ofInt?_eq_none_iff.1 ha with h | h <;> omega
  | some a => exact ⟨a, rfl, ofInt?_eq_some_iff.1 ha⟩

theorem Number.ofInt?_of_not_fits {n : Int} (h : ¬ Fits n) : ofInt? n = none := by
  rw [ofInt?_eq_none_iff]
  unfold Fits at h
  omega

namespace Script.Step

theorem not_overflows_of_byZero : ∀ {s : Step}, s.ByZero → ¬ s.Overflows
  | quotient a b, h, ho => by
    replace h : b = 0 := h
    subst h
    simp [Overflows, exact, Number.Fits] at ho

theorem error_eq_overflow_iff {s : Step} (h : s.Fails) : s.error = .overflow ↔ s.Overflows := by
  unfold error
  split
  · rename_i hz
    exact ⟨nofun, fun ho => absurd ho (not_overflows_of_byZero hz)⟩
  · rename_i hz
    exact ⟨fun _ => h.resolve_left hz, fun _ => rfl⟩

theorem error_eq_divisionByZero_iff {s : Step} : s.error = .divisionByZero ↔ s.ByZero := by
  unfold error
  split <;> simp_all

end Script.Step

namespace Script

theorem firstFailing_cons (s : Step) (xs : List Step) :
    firstFailing (s :: xs) = if s.Fails then some s else firstFailing xs := by
  unfold firstFailing
  rw [List.find?_cons]
  split <;> simp_all

theorem firstFailing_append (xs ys : List Step) :
    firstFailing (xs ++ ys) = (firstFailing xs).or (firstFailing ys) :=
  List.find?_append

theorem firstFailing_singleton (s : Step) :
    firstFailing [s] = if s.Fails then some s else none :=
  firstFailing_cons s []

theorem fails_of_firstFailing {xs : List Step} {s : Step} (h : firstFailing xs = some s) :
    s.Fails := by
  unfold firstFailing at h
  simpa using List.find?_some h

end Script

namespace Eval

open Script Stateful

variable {m : Machine} {p : Eval Number} {f : Number → Eval Number} {xs ys : List Step} {a b : Int}

/-- From `m`, which it leaves as it is, `p` comes to `a` if none of the steps `xs` fails, and else to
the error of the first that does. -/
def Computes (m : Machine) (p : Eval Number) (xs : List Step) (a : Int) : Prop :=
  match firstFailing xs with
  | none => ∃ n, p m = (.ok n, m) ∧ n.toInt = a
  | some s => p m = (.error s.error, m)

namespace Computes

theorem pure (n : Number) : Computes m (Pure.pure n) [] n.toInt := ⟨n, rfl, rfl⟩

theorem congr {q : Eval Number} (h : p m = q m) (hq : Computes m q xs a) : Computes m p xs a := by
  unfold Computes at *
  rwa [h]

theorem bind (hp : Computes m p xs a) (hf : ∀ n, n.toInt = a → Computes m (f n) ys b) :
    Computes m (p >>= f) (xs ++ ys) b := by
  unfold Computes at *
  rw [firstFailing_append]
  -- `f` is not run if `p` fails, so the steps `ys` count only where none of `xs` fails.
  cases hx : firstFailing xs with
  | none =>
    rw [hx] at hp
    obtain ⟨n, hn, hval⟩ := hp
    simpa only [Option.none_or, bind_apply, hn] using hf n hval
  | some s =>
    rw [hx] at hp
    simp only [Option.some_or, bind_apply, hp]

theorem checked {s : Step} (hz : ¬ s.ByZero) :
    Computes m (checked (Number.ofInt? s.exact)) [s] s.exact := by
  unfold Computes
  rw [firstFailing_singleton]
  by_cases ho : s.Overflows
  · have herror : s.error = .overflow := if_neg hz
    rw [if_pos (.inr ho), Number.ofInt?_of_not_fits ho]
    show Eval.checked none m = (Except.error s.error, m)
    rw [herror]
    rfl
  · obtain ⟨n, hn, hval⟩ := Number.ofInt?_of_fits (Decidable.not_not.1 ho)
    rw [if_neg fun h => h.elim hz ho, hn]
    exact ⟨n, rfl, hval⟩

theorem result (v : Int) : Computes m (Eval.checked (Number.ofInt? v)) [.result v] v :=
  checked (s := .result v) id

theorem quotient (a b : Number) :
    Computes m (quotient a b) [.quotient a.toInt b.toInt] (a.toInt.tdiv b.toInt) := by
  unfold Script.quotient
  split
  · rename_i hb
    subst hb
    exact rfl
  · rename_i hb
    exact checked (s := .quotient a.toInt b.toInt) fun hz => hb (Int64.toInt_inj.1 hz)

/-- An operation on two operands, of which it is the last step. -/
theorem operation {q : Eval Number} {g : Number → Number → Eval Number} (s : Int → Int → Step)
    (hp : Computes m p xs a) (hq : Computes m q ys b)
    (hg : ∀ n k : Number, Computes m (g n k) [s n.toInt k.toInt] (s n.toInt k.toInt).exact) :
    Computes m (p >>= fun n => q >>= g n) (xs ++ ys ++ [s a b]) (s a b).exact := by
  rw [List.append_assoc]
  refine hp.bind fun n hn => hq.bind fun k hk => ?_
  rw [← hn, ← hk]
  exact hg n k

end Computes

/-! ## Operands -/

section

variable {T : TypeTable} {name field : String}

theorem takeHandover_of_not_blocking (hb : isBlocking T name = false) :
    takeHandover T name m = (.ok none, m) := by
  rw [takeHandover_apply, hb]
  rfl

theorem load_of_not_blocking {k : Kind} {v : Value} {s : Scalar} (hk : T.kindOf? name = some k)
    (hb : isBlocking T name = false) (hv : m.store.read? name = some v)
    (hs : v.toScalar k = .ok s) : load T name m = (.ok s, m) := by
  simp only [load, hk, current, bind_apply, takeHandover_of_not_blocking hb, get_apply, hv,
    pure_apply, hs]

end

end Eval

/-- A value that is read as a number is read as its own. -/
theorem Value.toInt_of_toScalar {k : Kind} {v : Value} {n : Number}
    (h : v.toScalar k = .ok (.int n)) : n.toInt = v.number := by
  unfold toScalar at h
  split at h
  · split at h <;> cases h
  · cases h
    rfl
  · cases h
    exact Number.toInt_ofNat _
  · cases h
    exact Number.toInt_ofNat _
  · cases h
    exact Number.toInt_ofNat _
  all_goals cases h

/-- A value of an integer kind is read as its number. -/
theorem Value.toScalar_number {t : VarType} {v : Value} (h : t.Admits v)
    (hg : t.kind.grammar = .int) : ∃ n, v.toScalar t.kind = .ok (.int n) ∧ n.toInt = v.number := by
  have hk : t.kind ≠ .bytes := fun hk => by
    rw [hk] at hg
    cases hg
  obtain ⟨s, hs, hs'⟩ := exists_toScalar h hk
  rw [hg] at hs'
  cases s with
  | int n => exact ⟨n, hs, toInt_of_toScalar hs⟩
  | bool _ | str _ | bits _ => cases hs'

namespace Script

open Eval

variable {m : Machine} {T : TypeTable}

/-- What stands for a variable or a field that is read here is what it comes to. -/
structure Operands.Hold (ρ : Operands) (T : TypeTable) (m : Machine) (ms : List Mention) :
    Prop where
  var : ∀ {x}, .read .int x ∈ ms → Computes m (loadInt T x) [] (ρ.var x)
  field : ∀ {x f}, .readField x f ∈ ms →
    Computes m (loadField T x f) [.result (ρ.field x f)] (ρ.field x f)

namespace Operands.Hold

variable {ρ : Operands} {ms ms' : List Mention}

theorem left (h : ρ.Hold T m (ms ++ ms')) : ρ.Hold T m ms where
  var hx := h.var (List.mem_append_left _ hx)
  field hx := h.field (List.mem_append_left _ hx)

theorem right (h : ρ.Hold T m (ms ++ ms')) : ρ.Hold T m ms' where
  var hx := h.var (List.mem_append_right _ hx)
  field hx := h.field (List.mem_append_right _ hx)

end Operands.Hold

/-! ## Expressions -/

section

variable {ρ : Operands}

mutual

theorem IntExpr.eval_computes : ∀ e : IntExpr, ρ.Hold T m e.mentions →
    Computes m (e.eval T) (e.steps ρ) (e.exact ρ)
  | .term t, h => t.eval_computes h
  | .add e t, h => by
    rw [IntExpr.eval, IntExpr.steps, IntExpr.exact]
    exact .operation (fun a b => .result (a + b)) (e.eval_computes h.left)
      (t.eval_computes h.right) fun _ _ => .result _
  | .sub e t, h => by
    rw [IntExpr.eval, IntExpr.steps, IntExpr.exact]
    exact .operation (fun a b => .result (a - b)) (e.eval_computes h.left)
      (t.eval_computes h.right) fun _ _ => .result _

theorem IntTerm.eval_computes : ∀ t : IntTerm, ρ.Hold T m t.mentions →
    Computes m (t.eval T) (t.steps ρ) (t.exact ρ)
  | .factor f, h => f.eval_computes h
  | .mul t f, h => by
    rw [IntTerm.eval, IntTerm.steps, IntTerm.exact]
    exact .operation (fun a b => .result (a * b)) (t.eval_computes h.left)
      (f.eval_computes h.right) fun _ _ => .result _
  | .div t f, h => by
    rw [IntTerm.eval, IntTerm.steps, IntTerm.exact]
    exact .operation .quotient (t.eval_computes h.left) (f.eval_computes h.right) .quotient

theorem IntFactor.eval_computes : ∀ f : IntFactor, ρ.Hold T m f.mentions →
    Computes m (f.eval T) (f.steps ρ) (f.exact ρ)
  | .const n, _ => .pure n
  | .var _, h => h.var List.mem_cons_self
  | .field _ _, h => h.field List.mem_cons_self
  | .neg f, h => by
    rw [IntFactor.eval, IntFactor.steps, IntFactor.exact]
    refine (f.eval_computes h).bind fun a ha => ?_
    rw [← ha]
    exact .result _
  | .group e, h => e.eval_computes h

end

end

/-! ## Over a store -/

/-- None of the variables that are read is blocking. -/
def Unawaited (T : TypeTable) (ms : List Mention) : Prop :=
  ∀ x ∈ sources ms, isBlocking T x = false

instance (T : TypeTable) (ms : List Mention) : Decidable (Unawaited T ms) :=
  inferInstanceAs (Decidable (∀ _ ∈ _, _))

theorem loadInt_computes {name : String} (ht : m.store.types = T) (hs : m.store.Sound)
    (hname : HasGrammar T name .int) (hb : isBlocking T name = false) :
    Computes m (loadInt T name) [] (m.store.operands.var name) := by
  obtain ⟨k, hk, hg⟩ := Option.map_eq_some_iff.1 hname
  obtain ⟨t, hget, rfl⟩ := Option.map_eq_some_iff.1 hk
  obtain ⟨v, hv, ha⟩ := hs.exists_read? (ht ▸ hget)
  obtain ⟨n, hn, hval⟩ := Value.toScalar_number ha hg
  refine ⟨n, ?_, ?_⟩
  · rw [loadInt, Stateful.bind_apply, load_of_not_blocking hk hb hv hn]
    rfl
  · simp only [hval, Store.operands, hv, Option.map_some, Option.getD_some]

theorem loadField_computes {name field : String} (ht : m.store.types = T) (hs : m.store.Sound)
    (hname : HasField T name field) (hb : isBlocking T name = false) :
    Computes m (loadField T name field) [.result (m.store.operands.field name field)]
      (m.store.operands.field name field) := by
  obtain ⟨hk, hf⟩ := hname
  obtain ⟨f, hf⟩ := Option.isSome_iff_exists.1 hf
  obtain ⟨b, hblock, hlen⟩ := hs.exists_block (ht ▸ hk) (ht ▸ hf)
  have hvalue : m.store.fieldValue name field = f.value b := by
    simp only [Store.fieldValue, Store.of_block hblock, ht, hf]
  have hread : m.store.readField name f = .ok (f.value b) := by
    simp only [Store.readField, hblock, Field.read, if_neg (Nat.not_lt.2 hlen), Field.value]
  refine .congr ?_ (.result _)
  rw [loadField_apply, takeHandover_of_not_blocking hb]
  simp only [hf, hread, Store.operands, hvalue]

theorem operands_hold {ms : List Mention} (ht : m.store.types = T) (hs : m.store.Sound)
    (hw : ∀ c ∈ ms, c.Fits T) (hb : Unawaited T ms) : m.store.operands.Hold T m ms where
  var hx := loadInt_computes ht hs (hw _ hx) (hb _ (List.mem_filterMap.2 ⟨_, hx, rfl⟩))
  field hx := loadField_computes ht hs (hw _ hx) (hb _ (List.mem_filterMap.2 ⟨_, hx, rfl⟩))

/-- What comes of an expression, for what it is over all integers. -/
structure IntExpr.Exact (e : IntExpr) (T : TypeTable) (m : Machine) : Prop where
  kept : (e.eval T m).2 = m
  value : ∀ n, (e.eval T m).1 = .ok n → n.toInt = e.exact m.store.operands
  answers : (∃ n, (e.eval T m).1 = .ok n) ↔ firstFailing (e.steps m.store.operands) = none
  overflow : (e.eval T m).1 = .error .overflow ↔
    ∃ s, firstFailing (e.steps m.store.operands) = some s ∧ s.Overflows
  divisionByZero : (e.eval T m).1 = .error .divisionByZero ↔
    ∃ s, firstFailing (e.steps m.store.operands) = some s ∧ s.ByZero

theorem IntExpr.eval_exact (ht : m.store.types = T) (hs : m.store.Sound) {e : IntExpr}
    (hw : e.WellKinded T) (hb : Unawaited T e.mentions) : e.Exact T m := by
  have hcomputes := e.eval_computes (operands_hold ht hs (e.wellKinded_iff.1 hw) hb)
  unfold Computes at hcomputes
  cases hfirst : firstFailing (e.steps m.store.operands) with
  | none =>
    rw [hfirst] at hcomputes
    obtain ⟨n, hn, hval⟩ := hcomputes
    refine ⟨by rw [hn], fun k hk => ?_, ?_, ?_, ?_⟩
    · rw [hn] at hk
      cases hk
      exact hval
    · simp [hn, hfirst]
    · simp [hn, hfirst]
    · simp [hn, hfirst]
  | some s =>
    rw [hfirst] at hcomputes
    refine ⟨by rw [hcomputes], fun k hk => ?_, ?_, ?_, ?_⟩
    · rw [hcomputes] at hk
      cases hk
    · simp [hcomputes, hfirst]
    · simp [hcomputes, hfirst, Step.error_eq_overflow_iff (fails_of_firstFailing hfirst)]
    · simp [hcomputes, hfirst, Step.error_eq_divisionByZero_iff]

/-- The store of the types with 5 in `x` and all bits set in the field `a` of `d`. -/
def sampleStore (T : TypeTable) : Store :=
  let s := (Store.load T).after ((Store.load T).write "x" (.integer 5))
  s.after (s.writeField "d" ⟨"a", 0, 8⟩ 0xffffffffffffffff)

theorem sampleStore_reachable (T : TypeTable) : Store.Reachable T (sampleStore T) :=
  .next (.next .loaded (.write "x" (.integer 5))) (.writeField "d" ⟨"a", 0, 8⟩ _)

/-- `7 / (x - 5) - d:a` -/
def sampleDifference : IntExpr :=
  .sub (.term (.div (.factor (.const 7))
    (.group (.sub (.term (.factor (.var "x"))) (.factor (.const 5))))))
    (.factor (.field "d" "a"))

/-- The division fails before the field is read, whose value does not fit. -/
theorem eval_exact_firstOfTwo : ∃ p,
    Program.parse ("var\n x: integer\n d: bytes \x7b a: 0 8 \x7d\nendvar\nrun\n" ++
      "x = 7 / (x - 5) - d:a\nendrun\n") Oid.mib2 = .ok p ∧
    blockMentions p.body = (Stmt.assign (.var "x") (.int sampleDifference)).mentions ∧
    let m := Machine.start (sampleStore p.types) (.ofItems p.types [])
    sampleDifference.steps m.store.operands = [.result 0, .quotient 7 0,
      .result 0xffffffffffffffff, .result (-0xffffffffffffffff)] ∧
    (sampleDifference.eval p.types m).1 = .error .divisionByZero ∧
    sampleDifference.Exact p.types m := by
  obtain ⟨p, hp, h⟩ := Program.exists_parse
    ("var\n x: integer\n d: bytes \x7b a: 0 8 \x7d\nendvar\nrun\n" ++
      "x = 7 / (x - 5) - d:a\nendrun\n") Oid.mib2
    (fun p =>
      blockMentions p.body = (Stmt.assign (.var "x") (.int sampleDifference)).mentions ∧
        HasGrammar p.types "x" .int ∧ HasField p.types "d" "a" ∧
        Unawaited p.types sampleDifference.mentions ∧
        sampleDifference.steps (sampleStore p.types).operands = [.result 0, .quotient 7 0,
          .result 0xffffffffffffffff, .result (-0xffffffffffffffff)])
    (by decide +kernel)
  obtain ⟨hbody, hx, hd, hun, hsteps⟩ := of_decide_eq_true h
  have hs := sampleStore_reachable p.types
  have hw : sampleDifference.WellKinded p.types := ⟨⟨trivial, hx, trivial⟩, hd⟩
  have hexact := IntExpr.eval_exact (m := .start (sampleStore p.types) (.ofItems p.types []))
    hs.types_eq hs.sound hw hun
  refine ⟨p, hp, hbody, hsteps, hexact.divisionByZero.2 ⟨.quotient 7 0, ?_, rfl⟩, hexact⟩
  exact (congrArg firstFailing hsteps).trans (by decide)

end Script

end ScriptedAgent
