import Mathlib.Data.List.Basic
import ScriptedAgent.Proofs.Run.Feed

/-!
# Feeds for the script alone

The items of such a feed each set one value, and each of them fails the store's checks or is for a
blocking variable (`FeedItem.ForScript`), so the feed's store never changes. Then the values are
handed over in the order of the items, those that fail passed by (`Feed.take?_between`), and the
answers are known from what has been taken (`Feed.close_between`). When the sender gets to its next
item makes no difference (`Feed.take?_of_step`, `Feed.close_of_step`), and neither do the values in
the store that it is checked in (`FeedItem.Single.checks_congr`).
-/

namespace ScriptedAgent

namespace FeedItem

variable {a : Agent} {s s' : Store} {item : FeedItem}

/-- How far the sets of an item come. -/
def sent (s : Store) : FeedItem → Store.Progress
  | set oid v => s.setAll 0 [(oid, v)]
  | message m => match s.stage 0 m.bindings with
    | .error failure => .ended s (some failure)
    | .ok sets => s.setAll 0 sets

/-- Why the store's checks fail the item, if they do. -/
def fault? (s : Store) (item : FeedItem) : Option StoreError :=
  match item.sent s with
  | .ended _ failure => failure.map (·.2)
  | .waiting _ _ => none

/-- The value that a valid set of a blocking variable has for the script. -/
def offer? (s : Store) (item : FeedItem) : Option (String × Value) :=
  match item.sent s with
  | .ended _ _ => none
  | .waiting _ o => some (o.name, o.value)

/-- What items have for the script, in their order. -/
def offers (s : Store) (items : List FeedItem) : List (String × Value) :=
  items.filterMap (·.offer? s)

/-- A set of one value, plain or in a message that the agent takes as a Set. -/
def Single (a : Agent) : FeedItem → Prop
  | set _ _ => True
  | message m => a.admits m = true ∧ m.kind = .set ∧ m.bindings.length = 1

instance (a : Agent) : DecidablePred (Single a)
  | set _ _ => inferInstanceAs (Decidable True)
  | message m => inferInstanceAs
      (Decidable (a.admits m = true ∧ m.kind = .set ∧ m.bindings.length = 1))

/-- A set of one value that fails the store's checks or is a valid one of a blocking variable. -/
structure ForScript (a : Agent) (s : Store) (item : FeedItem) : Prop where
  single : item.Single a
  checked : (item.fault? s).isSome ∨ (item.offer? s).isSome

instance (a : Agent) (s : Store) (item : FeedItem) : Decidable (item.ForScript a s) :=
  decidable_of_iff (item.Single a ∧ ((item.fault? s).isSome ∨ (item.offer? s).isSome))
    ⟨fun h => ⟨h.1, h.2⟩, fun h => ⟨h.1, h.2⟩⟩

/-- The answer to a set of one value that nobody takes. -/
def closed : FeedItem → FeedAnswer
  | set oid _ => .set (some (.closed oid))
  | message m => .message (some (m.refuse ErrorStatus.genErr 0))

/-- The answer to a set of one value: the error of its check, or else whether it was taken. -/
def settled (s : Store) (taken : Bool) (item : FeedItem) : FeedAnswer :=
  match item.fault? s with
  | some e => item.answer (some (0, e))
  | none => if taken then item.answer none else item.closed

/-- What the items that are answered as having succeeded have for the script. -/
def accepted (s : Store) (items : List FeedItem) (answers : List FeedAnswer) :
    List (String × Value) :=
  (items.zip answers).filterMap fun (item, answer) =>
    if answer = item.answer none then item.offer? s else none

theorem closed_ne_answer (item : FeedItem) : item.closed ≠ item.answer none := by
  cases item with
  | set oid v => nofun
  | message m =>
    intro h
    simp only [closed, answer, Message.settle, Message.refuse, Message.respond,
      FeedAnswer.message.injEq, Option.some.injEq, Message.mk.injEq] at h
    exact absurd h.2.2.2.2.1 (by decide)

theorem offers_append (s : Store) (items items' : List FeedItem) :
    offers s (items ++ items') = offers s items ++ offers s items' :=
  List.filterMap_append

theorem offer?_eq_none {e : StoreError} (h : item.fault? s = some e) : item.offer? s = none := by
  unfold fault? at h
  unfold offer?
  split at h
  · rfl
  · cases h

theorem offer?_of_settled (s : Store) (taken : Bool) (item : FeedItem) :
    (if item.settled s taken = item.answer none then item.offer? s else none) =
      if taken then item.offer? s else none := by
  cases he : item.fault? s with
  | some e => simp only [offer?_eq_none he, ite_self]
  | none => cases taken <;> simp [settled, he, closed_ne_answer]

theorem accepted_settled (s : Store) (taken : Bool) (items : List FeedItem) :
    accepted s items (items.map (·.settled s taken)) = if taken then offers s items else [] := by
  rw [accepted, List.zip_map_right, List.zip_eq_zipWith, List.zipWith_self, List.map_map,
    List.filterMap_map]
  refine (List.filterMap_congr fun item _ => offer?_of_settled s taken item).trans ?_
  cases taken with
  | true => rfl
  | false => exact List.filterMap_eq_nil_iff.2 fun _ _ => rfl

theorem accepted_append {items items' : List FeedItem} {answers answers' : List FeedAnswer}
    (h : items.length = answers.length) : accepted s (items ++ items') (answers ++ answers') =
      accepted s items answers ++ accepted s items' answers' := by
  rw [accepted, List.zip_append h, List.filterMap_append]
  rfl

/-- The one set of an item fails while it is read, or it is applied. The types tell which. -/
theorem Single.sent_cases (h : item.Single a) (T : TypeTable) :
    (∃ e, ∀ s : Store, s.types = T → item.sent s = .ended s (some (0, e))) ∨
      ∃ oid v, (∀ s : Store, s.types = T → item.sent s = s.setAll 0 [(oid, v)]) ∧
        item.answer (some (0, .closed oid)) = item.closed := by
  cases item with
  | set oid v => exact .inr ⟨oid, v, fun _ _ => rfl, rfl⟩
  | message m =>
    obtain ⟨b, hb⟩ := List.length_eq_one_iff.1 h.2.2
    have hvar : ∀ s : Store, s.types = T →
        s.varType? b.oid.text = (T.nameForOid? b.oid.text).bind T.get? := by
      rintro s rfl
      rfl
    cases ht : (T.nameForOid? b.oid.text).bind T.get? with
    | none =>
      refine .inl ⟨.unknownOid b.oid.text, fun s hs => ?_⟩
      simp only [sent, hb, Store.stage, hvar s hs, ht]
    | some t =>
      cases hv : Value.ofWire t b.value with
      | error e =>
        refine .inl ⟨.typeMismatch b.oid.text e, fun s hs => ?_⟩
        simp only [sent, hb, Store.stage, hvar s hs, ht, hv]
      | ok v =>
        refine .inr ⟨b.oid.text, v, fun s hs => ?_, ?_⟩
        · simp only [sent, hb, Store.stage, hvar s hs, ht, hv]
          rfl
        · cases hver : m.version <;>
            simp only [answer, closed, Message.settle, ErrorStatus.ofSet, hver]

/-- The checks of a set of one value look at the types alone. -/
theorem Single.checks_congr (h : item.Single a) (hs : s'.types = s.types) :
    item.fault? s' = item.fault? s ∧ item.offer? s' = item.offer? s := by
  unfold fault? offer?
  obtain ⟨e, he⟩ | ⟨oid, v, hsent, -⟩ := h.sent_cases s.types
  · rw [he s rfl, he s' hs]
    exact ⟨rfl, rfl⟩
  · rw [hsent s rfl, hsent s' hs]
    obtain ⟨e, hd, hd'⟩ | ⟨name, hd, hd'⟩ | ⟨name, hd, hd'⟩ := Store.deliver_congr hs oid v <;>
      simp only [Store.setAll, hd, hd', and_self]

/-- An item is answered with the error of its check, or it waits with a value. -/
theorem ForScript.sent_cases (h : item.ForScript a s) :
    (∃ e, item.sent s = .ended s (some (0, e)) ∧ item.fault? s = some e ∧ item.offer? s = none) ∨
      ∃ o, item.sent s = .waiting s o ∧ o.rest = [] ∧ item.fault? s = none ∧
        item.offer? s = some (o.name, o.value) ∧
        item.answer (some (o.index, .closed o.oid)) = item.closed := by
  have hchecked := h.checked
  unfold fault? offer? at hchecked ⊢
  obtain ⟨e, hs⟩ | ⟨oid, v, hs, hclosed⟩ := h.single.sent_cases s.types
  · have he := hs s rfl
    exact .inl ⟨e, he, by rw [he]; rfl, by rw [he]⟩
  · rw [hs s rfl] at hchecked ⊢
    cases hd : s.deliver oid v with
    | error e =>
      have he : s.setAll 0 [(oid, v)] = .ended s (some (0, e)) := by simp only [Store.setAll, hd]
      exact .inl ⟨e, he, by rw [he]; rfl, by rw [he]⟩
    | ok d =>
      cases d with
      | stored s' => simp [Store.setAll, hd] at hchecked
      | handover name =>
        have hw : s.setAll 0 [(oid, v)] = .waiting s ⟨name, v, oid, 0, []⟩ := by
          simp only [Store.setAll, hd]
        exact .inr ⟨_, hw, rfl, by rw [hw], by rw [hw], hclosed⟩

end FeedItem

namespace Feed

open FeedItem

variable {a : Agent} {s : Store} {f f' : Feed} {item : FeedItem} {done pre rest left : List FeedItem}
  {name : String} {v : Value}

/-- The feed that has answered the items `done`, of which those with a value were taken, and has
`left` still before it. -/
def between (a : Agent) (s : Store) (done left : List FeedItem) : Feed :=
  ⟨a, s, left, none, done.map (·.settled s true)⟩

theorem start_eq (h : item.Single f.agent) : f.start item = f.record item (item.sent f.store) := by
  cases item with
  | set oid v => rfl
  | message m =>
    simp only [start, h.1, h.2.1, and_self, if_true, sent]
    cases f.store.stage 0 m.bindings <;> rfl

theorem giveUp_of_idle (hf : f.current = none) : f.giveUp = f := by
  simp only [giveUp, hf]

/-- An item that fails is answered at once, whether or not the script is there. -/
theorem start_of_fault (h : item.ForScript f.agent f.store) (hoffer : item.offer? f.store = none)
    (taken : Bool) : f.start item = f.reply (item.settled f.store taken) := by
  rw [start_eq h.single]
  obtain ⟨e, hs, he, -⟩ | ⟨o, -, -, -, ho, -⟩ := h.sent_cases
  · simp only [hs, record, settled, he]
  · rw [hoffer] at ho
    cases ho

/-- An item with a value waits with it. -/
theorem start_of_offer {o : String × Value} (h : item.ForScript f.agent f.store)
    (hoffer : item.offer? f.store = some o) :
    ∃ w : Store.Offer, f.start item = { f with current := some (item, w) } ∧
      (w.name, w.value) = o ∧ w.rest = [] ∧ item.answer none = item.settled f.store true ∧
      item.answer (some (w.index, .closed w.oid)) = item.settled f.store false := by
  rw [start_eq h.single]
  obtain ⟨e, -, -, ho⟩ | ⟨w, hs, hrest, he, ho, hclosed⟩ := h.sent_cases <;> rw [hoffer] at ho
  · cases ho
  · refine ⟨w, by rw [hs]; rfl, (Option.some.inj ho).symm, hrest, ?_, ?_⟩ <;>
      simp only [settled, he, hclosed] <;> rfl

/-! ## What is handed over -/

/-- Items that fail are passed by. -/
theorem advance_between (done left items : List FeedItem) (h : ∀ item ∈ pre, item.ForScript a s)
    (hpre : ∀ item ∈ pre, item.offer? s = none) :
    (between a s done left).advance (pre ++ items) =
      (between a s (done ++ pre) left).advance items := by
  induction pre generalizing done with
  | nil => rw [List.nil_append, List.append_nil]
  | cons item pre ih =>
    obtain ⟨hitem, h⟩ := List.forall_mem_cons.1 h
    obtain ⟨hoffer, hpre⟩ := List.forall_mem_cons.1 hpre
    have hstart : (between a s done left).start item = between a s (done ++ [item]) left := by
      rw [start_of_fault (f := between a s done left) hitem hoffer true]
      simp only [between, reply, List.map_append, List.map_cons, List.map_nil]
    rw [List.cons_append, advance, hstart]
    show (between a s (done ++ [item]) left).advance (pre ++ items) = _
    rw [ih (done ++ [item]) h hpre, List.append_assoc, List.singleton_append]

/-- Nothing is handed over where no item has a value. -/
theorem take?_between_eq_none (h : ∀ item ∈ left, item.ForScript a s) (hleft : offers s left = []) :
    (between a s done left).take? name = none := by
  have hready := advance_between done left [] h (List.filterMap_eq_nil_iff.1 hleft)
  rw [List.append_nil] at hready
  rw [take?, ready]
  simp only [between] at hready ⊢
  rw [hready]
  rfl

/-- The first item with a value hands it over, and is answered with those before it. -/
theorem take?_between {o : String × Value} (h : ∀ i ∈ pre ++ item :: rest, i.ForScript a s)
    (hpre : ∀ item ∈ pre, item.offer? s = none) (ho : item.offer? s = some o) :
    (between a s done (pre ++ item :: rest)).take? name =
      if o.1 = name then some (o.2, between a s (done ++ pre ++ [item]) rest) else none := by
  obtain ⟨hforPre, hforItem⟩ := List.forall_mem_append.1 h
  obtain ⟨w, hstart, rfl, hrest, hanswer, -⟩ :=
    start_of_offer (f := between a s (done ++ pre) (pre ++ item :: rest))
      (hforItem item List.mem_cons_self) ho
  have hready := advance_between done (pre ++ item :: rest) (item :: rest) hforPre hpre
  rw [advance, hstart] at hready
  rw [take?, ready]
  simp only [between] at hready hanswer ⊢
  rw [hready]
  simp only [hrest, Store.setAll, record, reply, hanswer, List.map_append, List.map_cons,
    List.map_nil]

theorem of_take?_between (h : ∀ item ∈ left, item.ForScript a s)
    (ht : (between a s done left).take? name = some (v, f)) :
    ∃ pre item rest, left = pre ++ item :: rest ∧ (∀ item ∈ pre, item.offer? s = none) ∧
      item.offer? s = some (name, v) ∧ f = between a s (done ++ pre ++ [item]) rest := by
  cases ho : offers s left with
  | nil =>
    rw [take?_between_eq_none h ho] at ht
    cases ht
  | cons o os =>
    obtain ⟨pre, item, rest, rfl, hpre, ho, -⟩ := List.filterMap_eq_cons_iff.1 ho
    rw [take?_between h hpre ho] at ht
    split at ht
    · rename_i hname
      cases ht
      exact ⟨pre, item, rest, rfl, hpre, hname ▸ ho, rfl⟩
    · cases ht

/-! ## How it is answered -/

/-- Once the script has ended, an item is answered as one that nobody takes. -/
theorem giveUp_start (h : item.ForScript f.agent f.store) :
    (f.start item).giveUp = f.reply (item.settled f.store false) := by
  cases hoffer : item.offer? f.store with
  | none => rw [start_of_fault h hoffer false, giveUp_of_idle (f := f.reply _) rfl]
  | some o =>
    obtain ⟨w, hstart, -, -, -, hanswer⟩ := start_of_offer h hoffer
    rw [hstart, ← hanswer]
    rfl

theorem answers_giveUp_all : ∀ (items : List FeedItem) {f : Feed},
    (∀ item ∈ items, item.ForScript f.agent f.store) →
      (items.foldl (fun f item => (f.start item).giveUp) f).answers =
        f.answers ++ items.map (·.settled f.store false)
  | [], f, _ => (List.append_nil _).symm
  | item :: rest, f, h => by
    obtain ⟨hitem, hrest⟩ := List.forall_mem_cons.1 h
    rw [List.foldl_cons, giveUp_start hitem,
      answers_giveUp_all rest (f := f.reply (item.settled f.store false)) hrest]
    simp only [reply, List.append_assoc, List.map_cons, List.singleton_append]

theorem close_between (h : ∀ item ∈ left, item.ForScript a s) :
    (between a s done left).close = done.map (·.settled s true) ++ left.map (·.settled s false) :=
  answers_giveUp_all left (f := between a s done left) h

/-! ## When it is answered -/

/-- The sender gets to its next item. -/
inductive Step (f : Feed) : Feed → Prop
  | next {item : FeedItem} {rest : List FeedItem} (hf : f.current = none)
    (hitems : f.items = item :: rest) : Step f { f.start item with items := rest }

theorem start_withItems (f : Feed) (items : List FeedItem) (item : FeedItem) :
    ({ f with items } : Feed).start item = { f.start item with items } := by
  have hrecord : ∀ p, ({ f with items } : Feed).record item p = { f.record item p with items } := by
    rintro (_ | _) <;> rfl
  cases item with
  | set oid v => exact hrecord _
  | message m =>
    simp only [start]
    split
    · split
      · rfl
      · exact hrecord _
    · rfl

theorem giveUp_withItems (f : Feed) (items : List FeedItem) :
    ({ f with items } : Feed).giveUp = { f.giveUp with items } := by
  unfold giveUp
  simp only
  split <;> rfl

theorem advance_withItems (items : List FeedItem) : ∀ (l : List FeedItem) (f : Feed),
    ({ f with items } : Feed).advance l = f.advance l
  | [], f => rfl
  | item :: rest, f => by
    simp only [advance, start_withItems]
    split
    · rfl
    · exact advance_withItems items rest (f.start item)

theorem giveUp_all_withItems (items : List FeedItem) : ∀ (l : List FeedItem) (f : Feed),
    l.foldl (fun f item => (f.start item).giveUp) { f with items } =
      { l.foldl (fun f item => (f.start item).giveUp) f with items }
  | [], f => rfl
  | item :: rest, f => by
    rw [List.foldl_cons, start_withItems, giveUp_withItems,
      giveUp_all_withItems items rest (f.start item).giveUp, List.foldl_cons]

theorem take?_of_step (h : f.Step f') (name : String) : f'.take? name = f.take? name := by
  obtain ⟨hf, hitems⟩ := h
  rename_i item rest
  have hready : ({ f.start item with items := rest } : Feed).ready = f.ready := by
    simp only [ready, hf, hitems, advance]
    split
    · rfl
    · exact advance_withItems rest rest (f.start item)
  rw [take?, hready, take?]

theorem close_of_step (h : f.Step f') : f'.close = f.close := by
  obtain ⟨hf, hitems⟩ := h
  rename_i item rest
  rw [close, close, giveUp_withItems, giveUp_all_withItems, hitems, List.foldl_cons,
    giveUp_of_idle hf]

end Feed

end ScriptedAgent
