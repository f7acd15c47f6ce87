import ScriptedAgent.Proofs.Run.Kept
import ScriptedAgent.Proofs.Store.Positions

/-!
# Positions through a run

A script computes with the bitsets of its store and with those handed over by its feed. It adds no
position but those it may name, so every position that the store holds at the end is such a one, or
the store or the feed carried it at the start (`Script.Stmt.of_carries_exec`).
-/

namespace ScriptedAgent

variable {q : Nat}

/-! ## Feeds -/

def FeedItem.Carries : FeedItem → Nat → Prop
  | set _ v, q => v.Carries q
  | message m, q => m.Carries q

namespace Feed

variable {f : Feed} {name : String}

/-- An item to come carries the position, or what the item under way has not yet set does. What the
feed's own store holds is handed to no script. -/
def Carries (f : Feed) (q : Nat) : Prop :=
  (∃ item ∈ f.items, item.Carries q) ∨ ∃ item o, f.current = some (item, o) ∧ o.Carries q

theorem items_record (f : Feed) (item : FeedItem) (p : Store.Progress) :
    (f.record item p).items = f.items := by
  cases p <;> rfl

/-- A set that waits comes from the sets that were applied. -/
theorem of_current_record {item item' : FeedItem} {o : Store.Offer} {s : Store} {i : Nat}
    {sets : List (String × Value)}
    (h : (f.record item (s.setAll i sets)).current = some (item', o)) (hq : o.Carries q) :
    Store.SetsCarry sets q := by
  cases hp : s.setAll i sets with
  | ended s' failure =>
    rw [hp] at h
    cases h
  | waiting s' o' =>
    rw [hp] at h
    cases h
    exact Store.of_carries_offer hp hq

theorem of_current_start {item' : FeedItem} {o : Store.Offer} (hq : o.Carries q) :
    ∀ {item : FeedItem}, (f.start item).current = some (item', o) → item.Carries q
  | .set oid v, h => by
    obtain ⟨e, he, hq⟩ := of_current_record h hq
    rwa [List.mem_singleton.1 he] at hq
  | .message m, h => by
    unfold start at h
    simp only at h
    split at h
    · split at h
      · cases h
      · rename_i sets hsets
        exact Store.of_carries_stage hsets (of_current_record h hq)
    · cases h

theorem of_carries_advance : ∀ {items : List FeedItem} {f : Feed},
    (f.advance items).Carries q → (∃ item ∈ items, item.Carries q) ∨
      ∃ item o, f.current = some (item, o) ∧ o.Carries q
  | [], f, hq => by
    rcases hq with ⟨item, hitem, -⟩ | hq
    · cases hitem
    · exact .inr hq
  | item :: rest, f, hq => by
    unfold advance at hq
    simp only at hq
    split at hq
    · rcases hq with ⟨item', hitem', hq⟩ | ⟨item', o, ho, hq⟩
      · exact .inl ⟨item', List.mem_cons_of_mem _ hitem', hq⟩
      · exact .inl ⟨item, List.mem_cons_self, of_current_start hq ho⟩
    · -- the item has been answered, so nothing of it waits
      rename_i hnone
      rcases of_carries_advance hq with ⟨item', hitem', hq⟩ | ⟨_, _, ho, -⟩
      · exact .inl ⟨item', List.mem_cons_of_mem _ hitem', hq⟩
      · rw [hnone] at ho
        cases ho

theorem of_carries_ready (hq : f.ready.Carries q) : f.Carries q := by
  unfold ready at hq
  split at hq
  · exact hq
  · exact of_carries_advance hq

/-- What is handed over, and what the feed goes on with, the feed carried before. -/
theorem of_carries_take? {v : Value} {f' : Feed} (h : f.take? name = some (v, f'))
    (hq : v.Carries q ∨ f'.Carries q) : f.Carries q := by
  refine of_carries_ready ?_
  unfold take? at h
  simp only at h
  split at h
  · cases h
  · rename_i item o ho
    split at h
    · cases h
      rcases hq with hq | ⟨item', hitem', hq⟩ | ⟨item', o', ho', hq⟩
      · exact .inr ⟨item, o, ho, .inl hq⟩
      · rw [items_record] at hitem'
        exact .inl ⟨item', hitem', hq⟩
      · exact .inr ⟨item, o, ho, .inr (of_current_record ho' hq)⟩
    · cases h

end Feed

/-! ## Evaluation -/

/-- The store or what is handed over carries the position. -/
def Machine.Carries (m : Machine) (q : Nat) : Prop := m.store.Carries q ∨ m.feed.Carries q

/-- Every position of the machine has `P`. -/
def Machine.Within (P : Nat → Prop) (m : Machine) : Prop := ∀ q, m.Carries q → P q

variable {P : Nat → Prop} {T : TypeTable} {m : Machine}

theorem Machine.Within.withStore {s : Store} (h : m.Within P)
    (hs : ∀ q, s.Carries q → P q) : ({ m with store := s } : Machine).Within P :=
  fun q hq => hq.elim (hs q) fun hq => h q (.inr hq)

namespace Eval

open Stateful

/-- From a machine with no other positions than those with `P`, the evaluation leaves such a one
whether it fails or not, and its result has `Q`. -/
abbrev Stays (P : Nat → Prop) {α : Type} (p : Eval α) (Q : α → Prop) : Prop :=
  Leads (Machine.Within P) (fun _ m => m.Within P) p Q

theorem takeHandover_stays (T : TypeTable) (name : String) :
    Stays P (takeHandover T name) fun r => ∀ v, r = some v → ∀ q, v.Carries q → P q := by
  intro m hm
  rw [takeHandover_apply]
  split
  · split
    · exact hm
    · rename_i v feed htake
      have hfeed : ∀ q, v.Carries q ∨ feed.Carries q → P q := fun q hq =>
        hm q (.inr (Feed.of_carries_take? htake hq))
      have htaken : (m.take name v feed).Within P := fun q hq =>
        hq.elim (fun hq => hm q (.inl hq)) fun hq => hfeed q (.inr hq)
      split
      · rename_i s hw
        refine ⟨htaken.withStore fun q hq => ?_, fun w hw q hq => ?_⟩
        · exact (Store.of_carries_write hw hq).elim (fun hq => hm q (.inl hq))
            fun hq => hfeed q (.inl hq)
        · cases hw
          exact hfeed q (.inl hq)
      · exact htaken
  · exact ⟨hm, nofun⟩

theorem readAt_within (T : TypeTable) (ms : List Script.Mention) :
    ReadAt T ms (Machine.Within P) fun _ m => m.Within P where
  takes _ := (takeHandover_stays T _).mono fun _ _ => trivial
  fails _ _ hm := hm

theorem current_stays (T : TypeTable) (name : String) :
    Stays P (current T name) fun v => ∀ q, v.Carries q → P q := by
  refine .bind (takeHandover_stays T name) fun r hr => ?_
  rcases r with _ | v
  · intro m hm
    simp only [bind_apply, get_apply]
    cases hv : m.store.read? name with
    | none => exact hm
    | some v => exact ⟨hm, fun q hq => hm q (.inl ⟨name, v, hv, hq⟩)⟩
  · exact .pure (hr v rfl)

theorem load_stays (T : TypeTable) (name : String) :
    Stays P (load T name) fun s => ∀ q, s.Carries q → P q := by
  unfold load
  split
  · exact .throw fun _ hm => hm
  · refine .bind (current_stays T name) fun v hv => ?_
    split
    · rename_i s hs
      exact .pure fun q hq => hv q (Value.of_carries_toScalar hs hq)
    · exact .throw fun _ hm => hm

theorem assignVar_stays {name : String} {k : Kind} {s : Scalar} (hs : ∀ q, s.Carries q → P q) :
    Stays P (assignVar name k s) fun _ => True := by
  intro m hm
  rw [assignVar_apply]
  split
  · exact hm
  · rename_i v hv
    split
    · rename_i s' hw
      refine ⟨hm.withStore fun q hq => ?_, trivial⟩
      exact (Store.of_carries_write hw hq).elim (fun hq => hm q (.inl hq))
        fun hq => hs q (Value.of_carries_ofScalar hv hq)
    · exact hm

theorem assignField_stays (name : String) (f : Field) (n : Number) :
    Stays P (assignField name f n) fun _ => True := by
  intro m hm
  rw [assignField_apply]
  split
  · exact hm
  · split
    · rename_i s' hw
      exact ⟨hm.withStore fun q hq => hm q (.inl (Store.of_carries_writeField hw hq)), trivial⟩
    · exact hm
    · exact hm

end Eval

namespace Script

open Eval

theorem loadBits_stays (T : TypeTable) (name : String) :
    Stays P (loadBits T name) fun b => ∀ q ∈ b, P q := by
  refine .bind (load_stays T name) fun s hs => ?_
  split
  · exact .pure fun q hq => hs q ⟨_, rfl, hq⟩
  · exact .throw fun _ hm => hm

theorem evalPositions_stays (hP : ∀ q ≤ Bitset.maxPosition, P q) (T : TypeTable) :
    ∀ es : List IntExpr, Stays P (evalPositions T es) fun ps => ∀ q ∈ ps, P q
  | [] => .pure (by simp)
  | e :: es => by
    refine .bind (e.eval_keepsAt (readAt_within T _)) fun n _ => ?_
    split
    · exact .throw fun _ hm => hm
    · rename_i p hp
      refine .bind (evalPositions_stays hP T es) fun ps hps => .pure ?_
      exact List.forall_mem_cons.2 ⟨hP p (Bitset.le_maxPosition_of_position? hp), hps⟩

mutual

theorem BitsExpr.eval_stays (hP : ∀ q ≤ Bitset.maxPosition, P q) (T : TypeTable) :
    ∀ e : BitsExpr, Stays P (e.eval T) fun b => ∀ q ∈ b, P q
  | .term t => t.eval_stays hP T
  | .union e t => .bind (e.eval_stays hP T) fun _ ha => .bind (t.eval_stays hP T) fun _ hb =>
    .pure fun q hq => (Bitset.mem_union.1 hq).elim (ha q) (hb q)

theorem BitsTerm.eval_stays (hP : ∀ q ≤ Bitset.maxPosition, P q) (T : TypeTable) :
    ∀ t : BitsTerm, Stays P (t.eval T) fun b => ∀ q ∈ b, P q
  | .set es => .bind (evalPositions_stays hP T es) fun _ hps =>
    .pure fun q hq => hps q (Bitset.mem_ofList.1 hq)
  | .var x => loadBits_stays T x
  | .group e => e.eval_stays hP T

end

theorem Expr.eval_stays (hP : ∀ q ≤ Bitset.maxPosition, P q) (T : TypeTable) :
    ∀ e : Expr, Stays P (e.eval T) fun s => ∀ q, s.Carries q → P q
  | int e => .bind (e.eval_keepsAt (readAt_within T _)) fun _ _ => .pure nofun
  | bool e => .bind (e.eval_keepsAt (readAt_within T _)) fun _ _ => .pure nofun
  | str e => .bind (e.eval_keepsAt (readAt_within T _)) fun _ _ => .pure nofun
  | bits e => .bind (e.eval_stays hP T) fun b hb => .pure fun q hq => by
    obtain ⟨_, heq, hq⟩ := hq
    cases heq
    exact hb q hq

/-! ## Statements -/

theorem assign_stays (hP : ∀ q ≤ Bitset.maxPosition, P q) (T : TypeTable) :
    ∀ (t : Target) (e : Expr), Stays P (assign T t e) fun _ => True
  | .var x, e => by
    simp only [assign]
    split
    · exact .throw fun _ hm => hm
    · exact .bind (e.eval_stays hP T) fun s hs => assignVar_stays hs
  | .field x f, .int e => by
    simp only [assign]
    split
    · exact .throw fun _ hm => hm
    · exact .bind (e.eval_keepsAt (readAt_within T _)) fun n _ =>
        .bind ((readAt_within T []).fieldDef f) fun fd _ => assignField_stays x fd n
  | .field x f, .bool _ | .field x f, .str _ | .field x f, .bits _ => by
    simp only [assign]
    split
    · exact .throw fun _ hm => hm
    · exact .throw fun _ hm => hm

theorem stepsAt_within (hP : ∀ q ≤ Bitset.maxPosition, P q) (T : TypeTable) (ms : List Mention) :
    StepsAt T ms (Machine.Within P) fun _ m => m.Within P where
  toReadAt := readAt_within T ms
  assigns _ _ := assign_stays hP T _ _
  prints _ _ hm := hm

/-- A position that the store holds after a statement was in the store or came with the feed, or it
is one that a script may name. -/
theorem Stmt.of_carries_exec {stmt : Stmt} {fuel : Nat} {o : Outcome}
    (h : stmt.exec T fuel m = some o) (hq : o.2.store.Carries q) :
    m.Carries q ∨ q ≤ Bitset.maxPosition := by
  have hsteps := stepsAt_within (P := fun q => m.Carries q ∨ q ≤ Bitset.maxPosition)
    (fun _ => .inr) T stmt.mentions
  have hend := stmt.exec_stepsAt hsteps m o (fun _ => .inl) h
  obtain ⟨_ | _, m'⟩ := o
  · exact hend q (.inl hq)
  · exact hend.1 q (.inl hq)

end Script

end ScriptedAgent
