import ScriptedAgent.Proofs.Store.Sound
import ScriptedAgent.Run.Feed

/-!
# Feeds made against a table

The sets of a feed are checked against the feed's own store. As long as that has the types of the
script, a value handed over is one that its variable admits (`Feed.Sound.admits_of_take?`), and the
feed that goes on behind it is as good.
-/

namespace ScriptedAgent.Feed

variable {T : TypeTable} {f : Feed} {item : FeedItem}

/-- The feed's store has the types `T`, and the value that waits is one its variable admits. -/
structure Sound (T : TypeTable) (f : Feed) : Prop where
  types : f.store.types = T
  offer : ∀ item o, f.current = some (item, o) → ∃ t, T.get? o.name = some t ∧ t.Admits o.value

namespace Sound

theorem reply (h : f.Sound T) (a : FeedAnswer) : (f.reply a).Sound T :=
  ⟨h.types, by simp [Feed.reply]⟩

theorem record (h : f.Sound T) (item : FeedItem) (sets : List (String × Value)) (i : Nat) :
    (f.record item (f.store.setAll i sets)).Sound T := by
  have ht := (Store.setAll_keeps sets f.store i).1.trans h.types
  cases hp : f.store.setAll i sets with
  | ended s failure =>
    rw [hp] at ht
    exact ⟨ht, by simp [Feed.record, Feed.reply]⟩
  | waiting s o =>
    rw [hp] at ht
    refine ⟨ht, fun item' o' ho => ?_⟩
    simp only [Feed.record, Option.some.injEq, Prod.mk.injEq] at ho
    obtain ⟨t, hn, -, hv⟩ := Store.blocking_of_setAll sets f.store i hp
    exact ⟨t, ho.2 ▸ h.types ▸ hn, ho.2 ▸ hv⟩

theorem start (h : f.Sound T) : ∀ item, (f.start item).Sound T
  | .set oid v => h.record (.set oid v) [(oid, v)] 0
  | .message m => by
    unfold Feed.start
    simp only
    split
    · split
      · exact h.reply _
      · exact h.record _ _ 0
    · exact h.reply _

theorem advance : ∀ {f : Feed}, f.Sound T → ∀ items, (f.advance items).Sound T
  | _, h, [] => ⟨h.types, h.offer⟩
  | _, h, item :: rest => by
    unfold Feed.advance
    simp only
    split
    · exact ⟨(h.start item).types, (h.start item).offer⟩
    · exact advance (h.start item) rest

theorem ready (h : f.Sound T) : f.ready.Sound T := by
  unfold Feed.ready
  split
  · exact h
  · exact h.advance f.items

theorem admits_of_take? {name : String} {v : Value} {f' : Feed} (h : f.Sound T)
    (ht : f.take? name = some (v, f')) : (∃ t, T.get? name = some t ∧ t.Admits v) ∧ f'.Sound T := by
  unfold take? at ht
  simp only at ht
  split at ht
  · simp at ht
  · rename_i item o ho
    split at ht
    · rename_i hn
      simp only [Option.some.injEq, Prod.mk.injEq] at ht
      obtain ⟨rfl, rfl⟩ := ht
      exact ⟨hn ▸ h.ready.offer item o ho, h.ready.record item o.rest (o.index + 1)⟩
    · simp at ht

end Sound

end ScriptedAgent.Feed
