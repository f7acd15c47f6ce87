import ScriptedAgent.Proofs.Run.Feed
import ScriptedAgent.Proofs.Run.Frame

/-!
# What a statement does besides taking values

Evaluation moves a machine in one way only: it takes values that are handed over, and stores them
(`Machine.Took`). An assignment, a print and a sleep evaluate first and act once, at their end, so
one that fails has done nothing else, and one that succeeds has assigned its target or printed its
line (`Stmt.exec_traceless`).
-/

namespace ScriptedAgent

variable {T : TypeTable} {s s' : Store} {vs : List (String × Value)} {name x : String} {v : Value}

/-! ## Values handed over -/

/-- The last of the values that is for `name`. -/
def lastFor (name : String) (vs : List (String × Value)) : Option Value :=
  (vs.findRev? (·.1 = name)).map (·.2)

theorem lastFor_cons (name : String) (h : String × Value) (vs : List (String × Value)) :
    lastFor name (h :: vs) = (lastFor name vs).or (if h.1 = name then some h.2 else none) := by
  simp only [lastFor, List.findRev?]
  cases vs.findRev? (·.1 = name) with
  | none => by_cases hn : h.1 = name <;> simp [hn]
  | some w => rfl

theorem mem_of_lastFor (h : lastFor name vs = some v) : (name, v) ∈ vs := by
  obtain ⟨⟨x, w⟩, hfind, rfl⟩ := Option.map_eq_some_iff.1 h
  rw [List.findRev?_eq_find?_reverse] at hfind
  obtain rfl : x = name := by simpa using List.find?_some hfind
  exact List.mem_reverse.1 (List.mem_of_find?_eq_some hfind)

namespace Store

/-- Whether the store takes a value for a variable. -/
def admits (s : Store) (h : String × Value) : Bool := (s.write h.1 h.2).isOk

/-- The store with the values that it takes. -/
def taking (s : Store) (vs : List (String × Value)) : Store :=
  vs.foldl (fun s h => s.after (s.write h.1 h.2)) s

theorem after_write_types (s : Store) (name : String) (v : Value) :
    (s.after (s.write name v)).types = s.types :=
  (after_keeps fun _ h => write_keeps h).1

theorem admits_eq (h : s'.types = s.types) : s'.admits = s.admits := by
  funext ⟨x, v⟩
  simp only [admits, write, h]
  cases s.types.get? x with
  | none => rfl
  | some t => cases hc : t.check v <;> simp [hc, Except.isOk, Except.toBool]

theorem taking_append (s : Store) (vs : List (String × Value)) (h : String × Value) :
    s.taking (vs ++ [h]) = (s.taking vs).after ((s.taking vs).write h.1 h.2) :=
  List.foldl_append

theorem read?_after_write (s : Store) (h : String × Value) (x : String) :
    (s.after (s.write h.1 h.2)).read? x =
      if s.admits h ∧ h.1 = x then some h.2 else s.read? x := by
  unfold admits
  cases hw : s.write h.1 h.2 with
  | error e => simp [after, Except.isOk, Except.toBool]
  | ok s' =>
    obtain ⟨-, -, -, rfl⟩ := of_write hw
    simp [after, Except.isOk, Except.toBool, read?_put, eq_comm]

/-- A variable holds the last value that the store takes for it, or else what it held. -/
theorem read?_taking (x : String) : ∀ (vs : List (String × Value)) (s : Store),
    (s.taking vs).read? x = (lastFor x (vs.filter s.admits)).or (s.read? x)
  | [], s => rfl
  | h :: vs, s => by
    show ((s.after (s.write h.1 h.2)).taking vs).read? x = _
    rw [read?_taking x vs, admits_eq (s.after_write_types h.1 h.2), read?_after_write,
      List.filter_cons]
    cases ha : s.admits h with
    | false => simp
    | true =>
      rw [if_pos rfl, lastFor_cons, Option.or_assoc]
      by_cases hx : h.1 = x <;> simp [hx]

end Store

/-! ## Evaluation -/

/-- From `m` to `m'` nothing has happened but that the values were taken. -/
structure Machine.Took (T : TypeTable) (m : Machine) (vs : List (String × Value)) (m' : Machine) :
    Prop where
  blocking : ∀ h ∈ vs, Eval.isBlocking T h.1 = true
  received : m'.received.toList = m.received.toList ++ vs
  store : m'.store = m.store.taking vs
  printed : m'.printed = m.printed
  sound : m.feed.Sound m.store.types →
    m'.feed.Sound m.store.types ∧ ∀ h ∈ vs, m.store.admits h = true

namespace Machine.Took

variable {m m' : Machine} {feed : Feed}

theorem refl (T : TypeTable) (m : Machine) : m.Took T [] m where
  blocking := nofun
  received := (List.append_nil _).symm
  store := rfl
  printed := rfl
  sound h := ⟨h, nofun⟩

theorem ask (h : m.Took T vs m') (name : String) : m.Took T vs (m'.ask name) :=
  ⟨h.blocking, h.received, h.store, h.printed, h.sound⟩

theorem take (h : m.Took T vs m') (hb : Eval.isBlocking T name = true)
    (hv : m'.feed.take? name = some (v, feed)) : m.Took T (vs ++ [(name, v)])
      { m'.take name v feed with store := m'.store.after (m'.store.write name v) } where
  blocking := List.forall_mem_append.2 ⟨h.blocking, List.forall_mem_singleton.2 hb⟩
  received := by
    show (m'.received.push (name, v)).toList = _
    rw [Array.toList_push, h.received, List.append_assoc]
  store := by rw [Store.taking_append, ← h.store]
  printed := h.printed
  sound hf := by
    obtain ⟨hfeed, hvs⟩ := h.sound hf
    obtain ⟨⟨t, ht, ha⟩, hnext⟩ := hfeed.admits_of_take? hv
    refine ⟨hnext, List.forall_mem_append.2 ⟨hvs, List.forall_mem_singleton.2 ?_⟩⟩
    rw [Store.admits, Store.write_of_admits ht ha]
    rfl

end Machine.Took

def Machine.OnlyTook (T : TypeTable) (m m' : Machine) : Prop := ∃ vs, m.Took T vs m'

namespace Eval

open Stateful

theorem takeHandover_took {m : Machine} (name : String) :
    KeepsOr (m.OnlyTook T) (fun _ => m.OnlyTook T) (takeHandover T name) := by
  rintro m₁ ⟨vs, h⟩
  rw [takeHandover_apply]
  split
  · rename_i hb
    split
    · exact ⟨vs, h.ask name⟩
    · rename_i v feed hv
      have hnext := h.take hb hv
      -- A value that the store refuses has been taken as well.
      split <;> rename_i hw <;> rw [hw] at hnext
      · exact ⟨⟨_, hnext⟩, trivial⟩
      · exact ⟨_, hnext⟩
  · exact ⟨⟨vs, h⟩, trivial⟩

theorem readAt_took (T : TypeTable) (ms : List Script.Mention) (m : Machine) :
    ReadAt T ms (m.OnlyTook T) fun _ => m.OnlyTook T where
  takes _ := takeHandover_took _
  fails _ _ h := h

theorem KeepsOr.took {α : Type} {p : Eval α} {m m' : Machine} {r : Except RuntimeError α}
    (hp : KeepsOr (m.OnlyTook T) (fun _ => m.OnlyTook T) p) (h : p m = (r, m')) :
    m.OnlyTook T m' := by
  have hend := Leads.run hp ⟨[], .refl T m⟩ h
  cases r with
  | ok a => exact hend.1
  | error e => exact hend

end Eval

/-- The variable held `v` before, or `v` is the last value taken for it, which is blocking. -/
def Machine.Retains (T : TypeTable) (m : Machine) (vs : List (String × Value)) (x : String)
    (v : Option Value) : Prop :=
  v = m.store.read? x ∨
    Eval.isBlocking T x = true ∧ ∃ w, lastFor x (vs.filter m.store.admits) = some w ∧ v = some w

theorem Machine.Took.retains {m m' : Machine} (h : m.Took T vs m') (x : String) :
    m.Retains T vs x (m'.store.read? x) := by
  rw [h.store, Store.read?_taking]
  cases hl : lastFor x (vs.filter m.store.admits) with
  | none => exact .inl rfl
  | some v => exact .inr ⟨h.blocking _ (List.mem_filter.1 (mem_of_lastFor hl)).1, v, hl, rfl⟩

/-! ## Statements -/

namespace Script

open Eval Stateful

/-- Nothing but the target has changed: of a block, the octets of the field. -/
def Target.Alone (T : TypeTable) (m : Machine) (vs : List (String × Value)) (m' : Machine) :
    Target → Prop
  | .var x => ∀ y, y ≠ x → m.Retains T vs y (m'.store.read? y)
  | .field x f => (∀ y, y ≠ x → m.Retains T vs y (m'.store.read? y)) ∧
    ∃ fd b b', T.field? x f = some fd ∧ m.Retains T vs x (some (.block b)) ∧
      m'.store.read? x = some (.block b') ∧ b'.length = b.length ∧
      ∀ i, ¬ (fd.offset ≤ i ∧ i < fd.stop) → b'[i]? = b[i]?

namespace Stmt

/-- An assignment, a print or a sleep. -/
def IsSimple : Stmt → Prop
  | .assign _ _ | .print _ | .sleep _ _ => True
  | _ => False

/-- All that a simple statement has done when it succeeds, besides taking the values. -/
def Done (T : TypeTable) (m : Machine) (vs : List (String × Value)) (m' : Machine) : Stmt → Prop
  | .assign target _ => m'.printed = m.printed ∧ target.Alone T m vs m'
  | .print e => (∃ line, (e.eval T m).1 = .ok line ∧ m'.printed = m.printed.push line) ∧
    ∀ x, m.Retains T vs x (m'.store.read? x)
  | _ => m'.printed = m.printed ∧ ∀ x, m.Retains T vs x (m'.store.read? x)

/-- The values have been taken. Apart from them, a statement that fails has done nothing. -/
structure Traceless (T : TypeTable) (s : Stmt) (m : Machine) (vs : List (String × Value))
    (o : Outcome) : Prop where
  blocking : ∀ h ∈ vs, isBlocking T h.1 = true
  received : o.2.received.toList = m.received.toList ++ vs
  /-- The store takes all of them, if the feed checks them against the same types. -/
  admitted : m.feed.Sound m.store.types → vs.filter m.store.admits = vs
  failed : ∀ e, o.1 = .error e →
    o.2.printed = m.printed ∧ ∀ x, m.Retains T vs x (o.2.store.read? x)
  done : ∀ flow, o.1 = .ok flow → s.Done T m vs o.2

/-- An action that fails, and leaves the machine as it is, or does all that is to be done. -/
def Acts (Done : Machine → Prop) (m : Machine) (o : Except RuntimeError Unit × Machine) : Prop :=
  (∃ e, o = (.error e, m)) ∨ ∃ m', o = (.ok (), m') ∧ m'.received = m.received ∧ Done m'

variable {s : Stmt} {m m' : Machine}

theorem traceless_of_error {e : RuntimeError} (h : m.Took T vs m') :
    s.Traceless T m vs (.error e, m') where
  blocking := h.blocking
  received := h.received
  admitted hf := List.filter_eq_self.2 (h.sound hf).2
  failed _ _ := ⟨h.printed, h.retains⟩
  done := nofun

theorem traceless_of_done {m₁ : Machine} {flow : Flow} (h : m.Took T vs m₁)
    (hr : m'.received = m₁.received) (hd : s.Done T m vs m') :
    s.Traceless T m vs (.ok flow, m') where
  blocking := h.blocking
  received := hr ▸ h.received
  admitted hf := List.filter_eq_self.2 (h.sound hf).2
  failed := nofun
  done _ _ := hd

/-- A statement that evaluates and then acts is without a trace if the action is. -/
theorem traceless_of_acts {α : Type} {p : Eval α} {f : α → Eval Unit}
    (hp : KeepsOr (m.OnlyTook T) (fun _ => m.OnlyTook T) p)
    (hf : ∀ a vs m₁, p m = (.ok a, m₁) → m.Took T vs m₁ →
      Acts (s.Done T m vs) m₁ (f a m₁)) :
    ∃ vs, s.Traceless T m vs (settled (p >>= f) m) := by
  unfold settled
  rw [bind_apply]
  rcases hpm : p m with ⟨e | a, m₁⟩ <;> obtain ⟨vs, h⟩ := hp.took hpm
  · exact ⟨vs, traceless_of_error h⟩
  · obtain ⟨e, he⟩ | ⟨m', hm', hr, hd⟩ := hf a vs m₁ hpm h
    · exact ⟨vs, by simpa only [he] using traceless_of_error h⟩
    · exact ⟨vs, by simpa only [hm'] using traceless_of_done h hr hd⟩

theorem traceless_of_throw {e : RuntimeError} :
    ∃ vs, s.Traceless T m vs (settled (throw e) m) :=
  ⟨[], traceless_of_error (.refl T m)⟩

theorem assignVar_acts {name : String} {k : Kind} {v : Scalar} {e : Expr} {m₁ : Machine}
    (h : m.Took T vs m₁) :
    Acts ((Stmt.assign (.var name) e).Done T m vs) m₁ (assignVar name k v m₁) := by
  rw [assignVar_apply]
  split
  · exact .inl ⟨_, rfl⟩
  split
  · rename_i hw
    refine .inr ⟨_, rfl, rfl, h.printed, fun y hy => ?_⟩
    rw [Store.read?_of_write hw hy]
    exact h.retains y
  · exact .inl ⟨_, rfl⟩

theorem assignField_acts {name field : String} {f : Field} {n : Number} {e : Expr} {m₁ : Machine}
    (hf : T.field? name field = some f) (h : m.Took T vs m₁) :
    Acts ((Stmt.assign (.field name field) e).Done T m vs) m₁ (assignField name f n m₁) := by
  rw [assignField_apply]
  split
  · exact .inl ⟨_, rfl⟩
  split
  · rename_i hw
    obtain ⟨b, b', hb, hwrite, rfl⟩ := Store.of_writeField hw
    refine .inr ⟨_, rfl, rfl, h.printed, fun y hy => ?_, f, b, b', hf, ?_, ?_,
      Field.length_of_write hwrite, fun i => Field.getElem?_of_write hwrite⟩
    · show m.Retains T vs y ((m₁.store.put name (.block b')).read? y)
      rw [Store.read?_put, if_neg hy]
      exact h.retains y
    · exact hb ▸ h.retains name
    · exact (Store.read?_put _ _ _ _).trans (if_pos rfl)
  · exact .inl ⟨_, rfl⟩
  · exact .inl ⟨_, rfl⟩

theorem assign_traceless (target : Target) (e : Expr) (m : Machine) :
    ∃ vs, (Stmt.assign target e).Traceless T m vs (settled (Script.assign T target e) m) := by
  cases target with
  | var x =>
    simp only [Script.assign]
    split
    · exact traceless_of_throw
    · exact traceless_of_acts (e.eval_keepsAt (readAt_took T _ m)) fun _ _ _ _ h => assignVar_acts h
  | field x f =>
    cases e with
    | int e =>
      simp only [Script.assign]
      split
      · exact traceless_of_throw
      · refine traceless_of_acts (e.eval_keepsAt (readAt_took T _ m)) fun n vs m₁ _ h => ?_
        unfold fieldDef
        split
        · rename_i fd hf
          exact assignField_acts hf h
        · exact .inl ⟨_, rfl⟩
    | bool e | str e | bits e =>
      simp only [Script.assign]
      split <;> exact traceless_of_throw

theorem print_traceless (e : StrExpr) (m : Machine) :
    ∃ vs, (Stmt.print e).Traceless T m vs (settled (Script.print T e) m) := by
  refine traceless_of_acts (e.eval_keepsAt (readAt_took T _ m)) fun line vs m₁ hline h => ?_
  refine .inr ⟨_, rfl, rfl, ⟨line, by rw [hline], ?_⟩, h.retains⟩
  exact congrArg (Array.push · line) h.printed

theorem pause_traceless (e : IntExpr) (unit : TimeUnit) (m : Machine) :
    ∃ vs, (Stmt.sleep e unit).Traceless T m vs (settled (pause T e) m) := by
  refine traceless_of_acts (e.eval_keepsAt (readAt_took T _ m)) fun n vs m₁ _ h => ?_
  split
  · exact .inl ⟨_, rfl⟩
  · exact .inr ⟨m₁, rfl, rfl, h.printed, h.retains⟩

/-- A statement fails before it acts: what has changed by then are values that were taken. -/
theorem exec_traceless {fuel : Nat} {o : Outcome} (hs : s.IsSimple)
    (h : s.exec T fuel m = some o) : ∃ vs, s.Traceless T m vs o := by
  cases s with
  | assign target e =>
    cases h
    exact assign_traceless target e m
  | print e =>
    cases h
    exact print_traceless e m
  | sleep e unit =>
    cases h
    exact pause_traceless e unit m
  | exit | branch _ _ _ | loop _ _ => exact hs.elim

/-- A store that holds 5 in the second octet of `d`, and two values for `w`. -/
def sampleMachine (T : TypeTable) : Machine :=
  .start ((Store.load T).put "d" (.block [0, 5])) (.ofItems T
    [.set ".1.3.6.1.2.1.1" (.integer 3), .set ".1.3.6.1.2.1.1" (.integer 7)])

/-- `d:a = w + 100 * w` -/
def sampleAssignment : Stmt :=
  .assign (.field "d" "a") (.int (.add (.term (.factor (.var "w")))
    (.mul (.factor (.const 100)) (.var "w"))))

/-- The sum is too wide for the field. Both values have been taken by then. -/
theorem exec_traceless_tooWide : ∃ p m,
    Program.parse ("var\n d: bytes \x7b a: 0 1, b: 1 1 \x7d\n w: 1 integer blocking\nendvar\n" ++
      "run\nd:a = w + 100 * w\nendrun\n") Oid.mib2 = .ok p ∧
    blockMentions p.body = sampleAssignment.mentions ∧ sampleAssignment.IsSimple ∧
    sampleAssignment.exec p.types 0 (sampleMachine p.types) =
      some (.error (.fieldOverflow "d" "a" 703 1), m) ∧
    m.store.read? "d" = some (.block [0, 5]) ∧ m.store.read? "w" = some (.integer 7) ∧
    ∃ vs, sampleAssignment.Traceless p.types (sampleMachine p.types) vs
      (.error (.fieldOverflow "d" "a" 703 1), m) := by
  obtain ⟨p, hp, h⟩ := Program.exists_parse
    ("var\n d: bytes \x7b a: 0 1, b: 1 1 \x7d\n w: 1 integer blocking\nendvar\n" ++
      "run\nd:a = w + 100 * w\nendrun\n") Oid.mib2
    (fun p => blockMentions p.body = sampleAssignment.mentions ∧
      (sampleAssignment.exec p.types 0 (sampleMachine p.types)).any fun o =>
        o.1 = .error (.fieldOverflow "d" "a" 703 1) ∧
          o.2.store.read? "d" = some (.block [0, 5]) ∧ o.2.store.read? "w" = some (.integer 7))
    (by decide +kernel)
  obtain ⟨hbody, hexec⟩ := of_decide_eq_true h
  obtain ⟨⟨r, m⟩, hexec, hm⟩ := (Option.any_eq_true _ _).1 hexec
  obtain ⟨rfl, hd, hw⟩ := of_decide_eq_true hm
  exact ⟨p, m, hp, hbody, trivial, hexec, hd, hw, exec_traceless trivial hexec⟩

end Stmt

end Script

end ScriptedAgent
