import ScriptedAgent.Agent

/-!
# Values handed to a running script

A feed is what managers send while a script runs, in order: plain sets or whole messages. It keeps a
store of its own, which non-blocking sets change and requests are answered from. Each item is
answered once. An item that sets a blocking variable waits until the script takes its value; when
the script has ended without taking it, the set is answered as closed.
-/

namespace ScriptedAgent

inductive FeedItem where
  | set (oid : String) (value : Value)
  | message (m : Message)
deriving DecidableEq

inductive FeedAnswer where
  /-- Why a plain set failed, if it did. -/
  | set (failure : Option StoreError)
  /-- The response to a message, if there is one. -/
  | message (reply : Option Message)
deriving DecidableEq

/-- The answer to an item whose sets have this outcome. -/
def FeedItem.answer : FeedItem → Option (Nat × StoreError) → FeedAnswer
  | set _ _, failure => .set (failure.map (·.2))
  | message m, failure => .message (some (m.settle failure))

/-- A device has one store for its agent and its script. Here what managers send meets a store apart
from the script's, of the same types: what is answered from it does not show what the script writes,
and what a plain set stores there does not reach the script. For items that fail or are handed over
the two are as good as one: their checks look at the types alone, they change no store, and a value
handed over is stored by the script's read. -/
structure Feed where
  agent : Agent
  store : Store
  items : List FeedItem
  /-- The item under way, and its set that waits. -/
  current : Option (FeedItem × Store.Offer)
  answers : List FeedAnswer
deriving DecidableEq

namespace Feed

def ofItems (types : TypeTable) (items : List FeedItem) : Feed :=
  ⟨.ofCommunities "public" "private", .load types, items, none, []⟩

def reply (f : Feed) (a : FeedAnswer) : Feed :=
  { f with current := none, answers := f.answers ++ [a] }

/-- The feed when the sets of `item` have come so far. -/
def record (f : Feed) (item : FeedItem) : Store.Progress → Feed
  | .ended s failure => { f with store := s }.reply (item.answer failure)
  | .waiting s offer => { f with store := s, current := some (item, offer) }

/-- Begins an item: answers it, or leaves it waiting at a blocking variable. -/
def start (f : Feed) (item : FeedItem) : Feed :=
  match item with
  | .set oid v => f.record item (f.store.setAll 0 [(oid, v)])
  | .message m =>
    if f.agent.admits m ∧ m.kind = .set then
      match f.store.stage 0 m.bindings with
      | .error failure => f.reply (item.answer (some failure))
      | .ok sets => f.record item (f.store.setAll 0 sets)
    else f.reply (.message (f.agent.handle f.store m).1)

/-- Answers items up to one that waits. -/
def advance (f : Feed) : List FeedItem → Feed
  | [] => { f with items := [] }
  | item :: rest =>
    let g := f.start item
    match g.current with
    | some _ => { g with items := rest }
    | none => advance g rest

/-- The feed with an item waiting, if there is one that can. -/
def ready (f : Feed) : Feed :=
  match f.current with
  | some _ => f
  | none => f.advance f.items

/-- The value the next set of `name` hands over, and the feed that goes on behind it. -/
def take? (f : Feed) (name : String) : Option (Value × Feed) :=
  let f := f.ready
  match f.current with
  | none => none
  | some (item, offer) =>
    if offer.name = name then
      some (offer.value, f.record item (f.store.setAll (offer.index + 1) offer.rest))
    else none

/-- Answers the item that waits as closed. -/
def giveUp (f : Feed) : Feed :=
  match f.current with
  | none => f
  | some (item, offer) => f.reply (item.answer (some (offer.index, .closed offer.oid)))

/-- All answers, once the script has ended. -/
def close (f : Feed) : List FeedAnswer :=
  (f.items.foldl (fun f item => (f.start item).giveUp) f.giveUp).answers

end Feed

end ScriptedAgent
