import ScriptedAgent.Proofs.Run.Kept
import ScriptedAgent.Proofs.Run.Offers
import ScriptedAgent.Proofs.Script.WellKinded

/-!
# Values handed over to a script

While a script runs with a feed that is for it alone, the items are behind it or before it: it has
received the values of the ones behind it, in their order, and read a blocking variable for each
(`Machine.Between`). A read takes the next value and stores it (`Eval.takeHandover_between`), and
nothing else that a script does touches this (`keptOr_amid`). So at the end of a run every value was
received exactly once or is answered as closed (`Script.Program.handover_once`).
-/

namespace ScriptedAgent

open FeedItem (offers offers_append)

variable {T : TypeTable} {a : Agent} {s : Store} {items done pre rest left : List FeedItem}
  {item : FeedItem} {m : Machine} {name : String} {v : Value} {waits : List String}

namespace Machine

/-- The items in `done` are behind the machine: it has received what they have for the script, each
value by a read of its variable. It has also begun to read the variables in `waits`. -/
structure Between (T : TypeTable) (a : Agent) (s : Store) (done left : List FeedItem)
    (waits : List String) (m : Machine) : Prop where
  types : m.store.types = T
  feed : m.feed = .between a s done left
  received : m.received.toList = offers s done
  asked : m.asked.toList = (offers s done).map (·.1) ++ waits

/-- The machine of a script that goes on. -/
def Amid (T : TypeTable) (a : Agent) (s : Store) (items : List FeedItem) (m : Machine) : Prop :=
  ∃ done left, items = done ++ left ∧ m.Between T a s done left []

/-- The machine of a script that has failed. -/
def FailedAmid (T : TypeTable) (a : Agent) (s : Store) (items : List FeedItem) (e : RuntimeError)
    (m : Machine) : Prop :=
  ∃ done left, items = done ++ left ∧ m.Between T a s done left e.awaited ∧
    ∀ x ∈ e.awaited, m.feed.take? x = none

theorem Between.ask (h : m.Between T a s done left []) (name : String) :
    (m.ask name).Between T a s done left [name] := by
  refine ⟨h.types, h.feed, h.received, ?_⟩
  rw [Machine.ask, Array.toList_push, h.asked, List.append_nil]

/-- With a value taken, the items up to its own are behind. -/
theorem Between.take (h : m.Between T a s done left []) (hpre : ∀ item ∈ pre, item.offer? s = none)
    (ho : item.offer? s = some (name, v)) :
    (m.take name v (.between a s (done ++ pre ++ [item]) rest)).Between T a s
      (done ++ pre ++ [item]) rest [] := by
  have hoffers : offers s (done ++ pre ++ [item]) = offers s done ++ [(name, v)] := by
    simp only [offers, List.filterMap_append, List.filterMap_eq_nil_iff.2 hpre, List.append_nil,
      List.filterMap_cons, ho, List.filterMap_nil]
  refine ⟨h.types, rfl, ?_, ?_⟩
  · rw [Machine.take, Array.toList_push, h.received, hoffers]
  · rw [Machine.take, Machine.ask, Array.toList_push, h.asked, hoffers, List.map_append,
      List.append_nil, List.append_nil]
    rfl

/-- If it waits in vain for the variable that the next value is for, there is no next value. -/
theorem Between.offers_eq_nil (h : m.Between T a s done left [name])
    (hleft : ∀ item ∈ left, item.ForScript a s) (htake : m.feed.take? name = none)
    (hnext : ∀ e ∈ m.asked.toList.zip (offers s (done ++ left)), e.1 = e.2.1) :
    offers s left = [] := by
  cases ho : offers s left with
  | nil => rfl
  | cons o os =>
    have hname : name = o.1 := by
      refine hnext (name, o) ?_
      rw [h.asked, offers_append, ho, List.zip_append (List.length_map _)]
      exact List.mem_append_right _ List.mem_cons_self
    obtain ⟨pre, item, rest, rfl, hpre, hitem, -⟩ := List.filterMap_eq_cons_iff.1 ho
    rw [h.feed, Feed.take?_between hleft hpre hitem, if_pos hname.symm] at htake
    cases htake

theorem Between.withStore {s' : Store} (h : m.Between T a s done left waits)
    (hs : s'.types = T) : ({ m with store := s' } : Machine).Between T a s done left waits :=
  ⟨hs, h.feed, h.received, h.asked⟩

theorem Amid.withStore {s' : Store} (h : m.Amid T a s items) (hs : s'.types = m.store.types) :
    ({ m with store := s' } : Machine).Amid T a s items := by
  obtain ⟨done, left, hitems, hm⟩ := h
  exact ⟨done, left, hitems, hm.withStore (hs.trans hm.types)⟩

theorem Amid.failed {e : RuntimeError} (h : m.Amid T a s items) (he : e.awaited = []) :
    m.FailedAmid T a s items e := by
  obtain ⟨done, left, hitems, hm⟩ := h
  exact ⟨done, left, hitems, he ▸ hm, by simp [he]⟩

end Machine

/-! ## Reads -/

namespace Eval

open Stateful

theorem takeHandover_keepsOr (hitems : ∀ item ∈ items, item.ForScript a s) (name : String) :
    KeepsOr (Machine.Amid T a s items) (Machine.FailedAmid T a s items) (takeHandover T name) := by
  rintro m ⟨done, left, rfl, hm⟩
  rw [takeHandover_apply]
  split
  · split
    · rename_i htake
      refine ⟨done, left, rfl, hm.ask name, fun x hx => ?_⟩
      obtain rfl := List.mem_singleton.1 hx
      exact htake
    · rename_i v f htake
      rw [hm.feed] at htake
      obtain ⟨pre, item, rest, rfl, hpre, ho, rfl⟩ :=
        Feed.of_take?_between (List.forall_mem_append.1 hitems).2 htake
      have hamid : (m.take name v (.between a s (done ++ pre ++ [item]) rest)).Amid T a s
          (done ++ (pre ++ item :: rest)) :=
        ⟨done ++ pre ++ [item], rest, by simp, hm.take hpre ho⟩
      split
      · rename_i hw
        exact ⟨hamid.withStore (Store.write_keeps hw).1, trivial⟩
      · exact hamid.failed rfl
  · exact ⟨⟨done, left, rfl, hm⟩, trivial⟩

/-- A read takes the value of the first item that has one for its variable, and stores it. -/
theorem takeHandover_between (hs : s.types = T) (hb : isBlocking T name)
    (h : ∀ i ∈ pre ++ item :: rest, i.ForScript a s) (hpre : ∀ item ∈ pre, item.offer? s = none)
    (ho : item.offer? s = some (name, v))
    (hm : m.Between T a s done (pre ++ item :: rest) []) :
    takeHandover T name m = (.ok (some v),
      { m.take name v (.between a s (done ++ pre ++ [item]) rest) with
        store := m.store.put name v }) := by
  have htake : (Feed.between a s done (pre ++ item :: rest)).take? name =
      some (v, .between a s (done ++ pre ++ [item]) rest) :=
    (Feed.take?_between h hpre ho).trans (if_pos rfl)
  have hfeed : (Feed.between a s done (pre ++ item :: rest)).Sound T := ⟨hs, by simp [Feed.between]⟩
  obtain ⟨⟨t, ht, hv⟩, -⟩ := hfeed.admits_of_take? htake
  rw [takeHandover_apply, if_pos hb, hm.feed, htake]
  simp only [Store.write_of_admits (hm.types.symm ▸ ht) hv]

/-- A read finds nothing where no item has a value. -/
theorem takeHandover_eq_closed (hb : isBlocking T name) (h : ∀ i ∈ left, i.ForScript a s)
    (hleft : offers s left = []) (hm : m.Between T a s done left []) :
    takeHandover T name m = (.error (.rendezvousClosed name), m.ask name) := by
  rw [takeHandover_apply, if_pos hb, hm.feed, Feed.take?_between_eq_none h hleft]

theorem current_of_takeHandover {m' : Machine} (h : takeHandover T name m = (.ok (some v), m')) :
    current T name m = (.ok v, m') := by
  rw [current, bind_apply, h]
  rfl

end Eval

/-- Whatever it is for, a read of `name` puts `v` into the store and is then of `v`, or of a field
of what the store has. -/
structure Machine.Reads (T : TypeTable) (name : String) (v : Value) (m m' : Machine) : Prop where
  stored : m'.store = m.store.put name v
  /-- The variable has the value from now on, and the others have theirs. -/
  read? : ∀ x, m'.store.read? x = if x = name then some v else m.store.read? x
  load : ∀ k, T.kindOf? name = some k →
    Eval.load T name m = match v.toScalar k with
      | .ok x => (.ok x, m')
      | .error e => (.error (.value name e), m')
  loadField : ∀ field f, T.field? name field = some f →
    Eval.loadField T name field m = match m'.store.readField name f with
      | .ok n => Eval.checked (Number.ofInt? n) m'
      | .error e => (.error (.store name e), m')

/-- Whatever it is for, a read of `name` finds nothing. -/
structure Machine.ReadsNothing (T : TypeTable) (name : String) (m : Machine) : Prop where
  load : ∀ k, T.kindOf? name = some k →
    Eval.load T name m = (.error (.rendezvousClosed name), m.ask name)
  loadField : ∀ field,
    Eval.loadField T name field m = (.error (.rendezvousClosed name), m.ask name)

theorem Machine.Reads.of_takeHandover {m' : Machine} (hstored : m'.store = m.store.put name v)
    (h : Eval.takeHandover T name m = (.ok (some v), m')) : m.Reads T name v m' where
  stored := hstored
  read? x := hstored ▸ Store.read?_put m.store name x v
  load k hk := by
    simp only [Eval.load, hk, Stateful.bind_apply, Eval.current_of_takeHandover h]
    cases v.toScalar k <;> rfl
  loadField field f hf := by
    simp only [Eval.loadField_apply, h, hf]
    cases m'.store.readField name f <;> rfl

theorem Machine.ReadsNothing.of_takeHandover
    (h : Eval.takeHandover T name m = (.error (.rendezvousClosed name), m.ask name)) :
    m.ReadsNothing T name where
  load k hk := by
    simp only [Eval.load, hk, Stateful.bind_apply, Eval.current, h]
  loadField field := by
    simp only [Eval.loadField_apply, h]

/-! ## Runs -/

theorem keptOr_amid (hitems : ∀ item ∈ items, item.ForScript a s) :
    KeptOr T (Machine.Amid T a s items) (Machine.FailedAmid T a s items) where
  takes := Eval.takeHandover_keepsOr hitems
  assignsVar {name k} _ x m hm := by
    rw [Eval.assignVar_apply]
    split
    · exact hm.failed rfl
    · split
      · rename_i hw
        exact ⟨hm.withStore (Store.write_keeps hw).1, trivial⟩
      · exact hm.failed rfl
  assignsField {name field f} _ n m hm := by
    rw [Eval.assignField_apply]
    split
    · exact hm.failed rfl
    · split
      · rename_i hw
        exact ⟨hm.withStore (Store.writeField_keeps hw).1, trivial⟩
      · exact hm.failed rfl
      · exact hm.failed rfl
  prints line m hm := by
    obtain ⟨done, left, hitems, hm⟩ := hm
    exact ⟨done, left, hitems, hm.types, hm.feed, hm.received, hm.asked⟩
  fails he _ hm := hm.failed he

/-- From one step of a script to the next its machine is amid the items, and there each read of a
blocking variable takes the next of their values. -/
structure ReadInTurn (T : TypeTable) (a : Agent) (s : Store) (items : List FeedItem) : Prop where
  kept : KeptOr T (Machine.Amid T a s items) (Machine.FailedAmid T a s items)
  next : ∀ {m : Machine} {done pre item rest name v}, items = done ++ (pre ++ item :: rest) →
    m.Between T a s done (pre ++ item :: rest) [] → Eval.isBlocking T name →
    (∀ item ∈ pre, item.offer? s = none) → item.offer? s = some (name, v) →
    ∃ m' : Machine, m.Reads T name v m' ∧ m'.Between T a s (done ++ pre ++ [item]) rest []
  nothing : ∀ {m : Machine} {done left name}, items = done ++ left → m.Between T a s done left [] →
    Eval.isBlocking T name → offers s left = [] → m.ReadsNothing T name

theorem readInTurn (hs : s.types = T) (hitems : ∀ item ∈ items, item.ForScript a s) :
    ReadInTurn T a s items where
  kept := keptOr_amid hitems
  next {m done pre item rest name v} h hm hb hpre ho := by
    subst h
    have hmore := (List.forall_mem_append.1 hitems).2
    exact ⟨_, .of_takeHandover rfl (Eval.takeHandover_between hs hb hmore hpre ho hm),
      (hm.take hpre ho).withStore hm.types⟩
  nothing h hm hb hleft := by
    subst h
    exact .of_takeHandover
      (Eval.takeHandover_eq_closed hb (List.forall_mem_append.1 hitems).2 hleft hm)

namespace Script.Program

variable {p : Program} {s₀ : Store} {fuel : Nat} {r : Except RuntimeError Unit}

/-- The machine in which a run ends is at some point of the items. -/
theorem run_ends (hs₀ : s₀.types = p.types) (hitems : ∀ item ∈ items, item.ForScript a s)
    (hrun : p.run fuel (.start s₀ (.between a s [] items)) = some (r, m)) :
    Ends (Machine.Amid p.types a s items) (Machine.FailedAmid p.types a s items)
      (fun _ => True) (r, m) := by
  obtain ⟨⟨flow, m'⟩, ho, hr⟩ := Option.map_eq_some_iff.1 hrun
  have hstart : (Machine.start s₀ (.between a s [] items)).Amid p.types a s items :=
    ⟨[], items, rfl, hs₀, rfl, rfl, rfl⟩
  have hend := execBlock_keepsOr (keptOr_amid hitems) p.body _ _ hstart ho
  cases flow <;> cases hr <;> exact hend

/-- The variable for which no value came, if that is how the script ended. -/
def awaited : Except RuntimeError Unit → List String
  | .ok () => []
  | .error e => e.awaited

theorem getElem?_awaited {n : Nat} {x : String} :
    (awaited r)[n]? = some x ↔ n = 0 ∧ r = .error (.rendezvousClosed x) := by
  cases r with
  | ok _ => simp [awaited]
  | error e => cases e <;> simp [awaited, RuntimeError.awaited, List.getElem?_singleton]

/-- Where every value in its turn is for the variable that is read, a run ends in vain only when no
item has a value any more. -/
theorem exists_between (hs₀ : s₀.types = p.types) (hitems : ∀ item ∈ items, item.ForScript a s)
    (hrun : p.run fuel (.start s₀ (.between a s [] items)) = some (r, m))
    (hnext : ∀ e ∈ m.asked.toList.zip (offers s items), e.1 = e.2.1) :
    ∃ done left, items = done ++ left ∧ m.Between p.types a s done left (awaited r) ∧
      (awaited r = [] ∨ offers s left = []) := by
  have hend := run_ends hs₀ hitems hrun
  cases r with
  | ok _ =>
    obtain ⟨⟨done, left, rfl, hm⟩, -⟩ := hend
    exact ⟨done, left, rfl, hm, .inl rfl⟩
  | error e =>
    obtain ⟨done, left, rfl, hm, htake⟩ := hend
    refine ⟨done, left, rfl, hm, ?_⟩
    show e.awaited = [] ∨ offers s left = []
    cases e with
    | rendezvousClosed x =>
      exact .inr (hm.offers_eq_nil (List.forall_mem_append.1 hitems).2
        (htake x List.mem_cons_self) hnext)
    | _ => exact .inl rfl

/-- How a run with these items has ended. -/
structure HandedOver (s : Store) (items : List FeedItem) (r : Except RuntimeError Unit)
    (m : Machine) : Prop where
  /-- An item is answered with the error of its check, or else by whether its value was taken. -/
  answers : ∃ taken left, items = taken ++ left ∧ m.received.toList = offers s taken ∧
    m.feed.close = taken.map (·.settled s true) ++ left.map (·.settled s false)
  /-- What was received is what the items answered as having succeeded have. -/
  received : m.received.toList = FeedItem.accepted s items m.feed.close
  /-- Every read received one value, unless it waited in vain. -/
  reads : m.asked.toList = m.received.toList.map (·.1) ++ awaited r
  /-- Every value was received as long as there were reads. -/
  inOrder : m.received.toList = (offers s items).take m.asked.size
  ended : ∀ x, r = .error (.rendezvousClosed x) ↔ m.asked[(offers s items).length]? = some x

theorem handedOver (hs₀ : s₀.types = p.types) (hitems : ∀ item ∈ items, item.ForScript a s)
    (hrun : p.run fuel (.start s₀ (.between a s [] items)) = some (r, m))
    (hnext : ∀ e ∈ m.asked.toList.zip (offers s items), e.1 = e.2.1) : HandedOver s items r m := by
  obtain ⟨taken, left, rfl, hm, hleft⟩ := exists_between hs₀ hitems hrun hnext
  have hclose : m.feed.close =
      taken.map (·.settled s true) ++ left.map (·.settled s false) := by
    rw [hm.feed, Feed.close_between (List.forall_mem_append.1 hitems).2]
  have hsize : m.asked.size = (offers s taken).length + (awaited r).length := by
    rw [← Array.length_toList, hm.asked, List.length_append, List.length_map]
  refine ⟨⟨taken, left, rfl, hm.received, hclose⟩, ?_, hm.received ▸ hm.asked, ?_, fun x => ?_⟩
  · rw [hm.received, hclose, FeedItem.accepted_append (List.length_map _).symm,
      FeedItem.accepted_settled, FeedItem.accepted_settled, if_pos rfl, if_neg nofun,
      List.append_nil]
  · have hnone : (offers s left).take (awaited r).length = [] := by
      rcases hleft with h | h <;> rw [h]
      · rfl
      · exact List.take_nil
    rw [hm.received, hsize, offers_append, List.take_length_add_append, hnone, List.append_nil]
  · rw [← Array.getElem?_toList, hm.asked, offers_append, List.length_append,
      List.getElem?_append_right (by simp), List.length_map, Nat.add_sub_cancel_left,
      getElem?_awaited]
    refine ⟨fun h => ⟨?_, h⟩, And.right⟩
    rcases hleft with hr | hl
    · rw [h] at hr
      cases hr
    · rw [hl, List.length_nil]

/-- Whatever a script does, as long as the values come for the variables that it reads, it takes
them one by one, in order, and stores each before it is used. When the script has ended, the items
are answered by that. When the sender gets to them makes no difference, and neither do the values in
the store that they are checked in. -/
theorem handover_once (hs₀ : s₀.types = p.types) (hs : s.types = p.types)
    (hitems : ∀ item ∈ items, item.ForScript a s)
    (hrun : p.run fuel (.start s₀ (.between a s [] items)) = some (r, m))
    (hnext : ∀ e ∈ m.asked.toList.zip (offers s items), e.1 = e.2.1) :
    ReadInTurn p.types a s items ∧ HandedOver s items r m ∧
      (∀ f f' : Feed, f.Step f' → (∀ x, f'.take? x = f.take? x) ∧ f'.close = f.close) ∧
      ∀ s' : Store, s'.types = p.types → ∀ item ∈ items,
        item.fault? s' = item.fault? s ∧ item.offer? s' = item.offer? s :=
  ⟨readInTurn hs hitems, handedOver hs₀ hitems hrun hnext,
    fun _ _ h => ⟨Feed.take?_of_step h, Feed.close_of_step h⟩,
    fun _ h item hitem => (hitems item hitem).single.checks_congr (h.trans hs.symm)⟩

/-- Three values for a variable that is read twice, behind one that its variable does not take. -/
def threeForTwo : List FeedItem :=
  [.set ".1.3.6.1.2.1.2" (.integer 1), .set ".1.3.6.1.2.1.1" (.integer 7),
    .message (setFirst 5), .message (setFirst 9)]
where
  setFirst (n : Number) : Message :=
    { version := .v2c, community := Text.utf8 "private", kind := .set, requestId := n,
      errorStatus := 0, errorIndex := 0, bindings := [⟨[1, 3, 6, 1, 2, 1, 1], .integer n⟩] }

/-- Two values are received, by reads of the one expression, and the last is answered as closed. -/
theorem handover_once_threeForTwo : ∃ p m, Program.parse
      "var\n c: 1 integer blocking\n y: 2 integer\nendvar\nrun\nprint strInt(c - c)\nendrun\n"
        Oid.mib2 = .ok p ∧
    let s := Store.load p.types
    p.run 1 (.start s (.between (.ofCommunities "public" "private") s [] threeForTwo)) =
        some (.ok (), m) ∧
      m.printed = #["2"] ∧
      ReadInTurn p.types (.ofCommunities "public" "private") s threeForTwo ∧
      HandedOver s threeForTwo (.ok ()) m ∧
      m.received.toList = [("c", .integer 7), ("c", .integer 5)] ∧
      m.feed.close = [.set (some (.notWritable ".1.3.6.1.2.1.2")), .set none,
        .message (some ((threeForTwo.setFirst 5).respond (threeForTwo.setFirst 5).bindings)),
        .message (some ((threeForTwo.setFirst 9).refuse ErrorStatus.genErr 0))] := by
  obtain ⟨p, hp, h⟩ := exists_parse
    "var\n c: 1 integer blocking\n y: 2 integer\nendvar\nrun\nprint strInt(c - c)\nendrun\n" Oid.mib2
    (fun p =>
      let s := Store.load p.types
      (∀ item ∈ threeForTwo, item.ForScript (.ofCommunities "public" "private") s) ∧
      (p.run 1 (.start s (.between (.ofCommunities "public" "private") s [] threeForTwo))).any
        fun (r, m) => r = .ok () ∧ m.printed = #["2"] ∧
          m.received.toList = [("c", .integer 7), ("c", .integer 5)] ∧
          (∀ e ∈ m.asked.toList.zip (offers s threeForTwo), e.1 = e.2.1) ∧
          m.feed.close = [.set (some (.notWritable ".1.3.6.1.2.1.2")), .set none,
            .message (some ((threeForTwo.setFirst 5).respond (threeForTwo.setFirst 5).bindings)),
            .message (some ((threeForTwo.setFirst 9).refuse ErrorStatus.genErr 0))])
    (by decide +kernel)
  obtain ⟨hitems, hrun⟩ := of_decide_eq_true h
  obtain ⟨⟨r, m⟩, hrun, hm⟩ := (Option.any_eq_true _ _).1 hrun
  obtain ⟨rfl, hprinted, hreceived, hnext, hclose⟩ := of_decide_eq_true hm
  obtain ⟨hread, hover, -⟩ := handover_once rfl rfl hitems hrun hnext
  exact ⟨p, m, hp, hrun, hprinted, hread, hover, hreceived, hclose⟩

end Script.Program

end ScriptedAgent
