import ScriptedAgent.Proofs.Run.Feed
import ScriptedAgent.Proofs.Run.Machine
import ScriptedAgent.Proofs.Run.Triple
import ScriptedAgent.Proofs.Script.WellKinded

/-!
# Sound machines

The invariant of a script that runs over a store of its own types: the store is sound and so is the
feed. From such a machine, reading a declared variable gives a scalar of the kind's grammar, and the
steps fail for reasons that lie in the values only (`RuntimeError.Dynamic`).
-/

namespace ScriptedAgent

/-- The error comes of the values of a run, not of a name, a kind or the store. -/
def RuntimeError.Dynamic : RuntimeError → Prop
  | divisionByZero | overflow | negativeSleep _ | bitPosition _ => True
  | fieldOverflow _ _ _ _ | rendezvousClosed _ => True
  | value _ e => e.OfValue
  | store _ _ | missing _ => False

/-- The store and the feed both hold what the types `T` admit. -/
structure Machine.Sound (T : TypeTable) (m : Machine) : Prop where
  types : m.store.types = T
  store : m.store.Sound
  feed : m.feed.Sound T

variable {T : TypeTable} {m : Machine} {name field : String} {t : VarType} {k : Kind}

namespace Machine.Sound

theorem withStore {s : Store} (h : m.Sound T) (hs : m.store.Keeps s) :
    ({ m with store := s } : Machine).Sound T :=
  ⟨hs.1.trans h.types, hs.2 h.store, h.feed⟩

theorem ask (h : m.Sound T) (name : String) : (m.ask name).Sound T := ⟨h.types, h.store, h.feed⟩

theorem write {v : Value} (h : m.Sound T) (ht : T.get? name = some t) (hv : t.Admits v) :
    ∃ s, m.store.write name v = .ok s ∧ ({ m with store := s } : Machine).Sound T := by
  have hw := Store.write_of_admits (h.types.symm ▸ ht) hv
  exact ⟨_, hw, h.withStore (Store.write_keeps hw)⟩

theorem exists_read? (h : m.Sound T) (ht : T.get? name = some t) :
    ∃ v, m.store.read? name = some v ∧ t.Admits v :=
  h.store.exists_read? (h.types.symm ▸ ht)

theorem exists_block {f : Field} (h : m.Sound T) (hk : T.kindOf? name = some .bytes)
    (hf : T.field? name field = some f) :
    ∃ b, m.store.block name = .ok b ∧ f.stop ≤ b.length :=
  h.store.exists_block (h.types.symm ▸ hk) (h.types.symm ▸ hf)

end Machine.Sound

namespace Eval

open Stateful

theorem takeHandover_triple (T : TypeTable) (name : String) :
    Triple (Machine.Sound T) RuntimeError.Dynamic (takeHandover T name)
      fun r => ∀ v, r = some v → ∃ t, T.get? name = some t ∧ t.Admits v := by
  intro m hm
  rw [takeHandover_apply]
  split
  · split
    · exact ⟨hm.ask name, trivial⟩
    · rename_i v feed hv
      obtain ⟨⟨t, ht, ha⟩, hfeed⟩ := hm.feed.admits_of_take? hv
      have htake : (m.take name v feed).Sound T := ⟨hm.types, hm.store, hfeed⟩
      obtain ⟨s, hw, hs⟩ := htake.write ht ha
      have hw : m.store.write name v = .ok s := hw
      rw [hw]
      refine ⟨hs, fun w hw => ?_⟩
      cases hw
      exact ⟨t, ht, ha⟩
  · exact ⟨hm, fun v hv => by cases hv⟩

theorem current_triple (ht : T.get? name = some t) :
    Triple (Machine.Sound T) RuntimeError.Dynamic (current T name) t.Admits := by
  refine .bind (takeHandover_triple T name) fun r hr => ?_
  rcases r with _ | v
  · intro m hm
    obtain ⟨v, hread, hv⟩ := hm.exists_read? ht
    simp only [bind_apply, get_apply, hread]
    exact ⟨hm, hv⟩
  · obtain ⟨u, hu, hv⟩ := hr v rfl
    rw [ht, Option.some.injEq] at hu
    exact .pure (hu ▸ hv)

theorem load_triple {g : Grammar} (h : Script.HasGrammar T name g) (hg : g ≠ .fields) :
    Triple (Machine.Sound T) RuntimeError.Dynamic (load T name) (·.grammar = g) := by
  obtain ⟨k, hk, rfl⟩ := Option.map_eq_some_iff.1 h
  have hkind := hk
  unfold TypeTable.kindOf? at hkind
  obtain ⟨t, ht, rfl⟩ := Option.map_eq_some_iff.1 hkind
  unfold load
  rw [hk]
  refine .bind (current_triple ht) fun v hv => ?_
  obtain ⟨s, hs, hsg⟩ := Value.exists_toScalar hv fun hb => hg (by rw [hb]; rfl)
  rw [hs]
  exact .pure hsg

theorem checked_triple {I : Machine → Prop} :
    ∀ r, Triple I RuntimeError.Dynamic (checked r) fun _ => True
  | none => .throw trivial
  | some _ => .pure trivial

theorem loadField_triple (h : Script.HasField T name field) :
    Triple (Machine.Sound T) RuntimeError.Dynamic (loadField T name field) fun _ => True := by
  intro m hm
  obtain ⟨hk, hf⟩ := h
  obtain ⟨f, hf⟩ := Option.isSome_iff_exists.1 hf
  rw [loadField_apply]
  split <;> rename_i h₁ <;> obtain ⟨hI, hr⟩ := (takeHandover_triple T name).run hm h₁
  · exact ⟨hI, hr⟩
  · obtain ⟨b, hb, hlen⟩ := hI.exists_block hk hf
    obtain ⟨n, hn⟩ := Field.exists_read hlen
    simp only [hf, Store.readField, hb, hn]
    exact checked_triple _ _ hI

theorem assignVar_triple {s : Scalar} (hk : T.kindOf? name = some k) (hs : s.grammar = k.grammar) :
    Triple (Machine.Sound T) RuntimeError.Dynamic (assignVar name k s) fun _ => True := by
  intro m hm
  unfold TypeTable.kindOf? at hk
  obtain ⟨t, ht, rfl⟩ := Option.map_eq_some_iff.1 hk
  rw [assignVar_apply]
  split
  · rename_i e he
    exact ⟨hm, Value.ofValue_of_ofScalar hs.symm he⟩
  · rename_i v hv
    obtain ⟨s', hw, hs'⟩ := hm.write ht (Value.admits_of_ofScalar hv)
    rw [hw]
    exact ⟨hs', trivial⟩

theorem assignField_triple {f : Field} (hk : T.kindOf? name = some .bytes)
    (hf : T.field? name field = some f) (n : Number) :
    Triple (Machine.Sound T) RuntimeError.Dynamic (assignField name f n) fun _ => True := by
  intro m hm
  obtain ⟨b, hb, hlen⟩ := hm.exists_block hk hf
  rw [assignField_apply]
  split
  · exact ⟨hm, trivial⟩
  · unfold Store.writeField
    rw [hb]
    simp only
    cases hw : f.write b n.toInt.toNat with
    | ok b' =>
      have hs : m.store.writeField name f n.toInt.toNat = .ok (m.store.put name (.block b')) := by
        simp only [Store.writeField, hb, hw]
      exact ⟨hm.withStore (Store.writeField_keeps hs), trivial⟩
    | error e =>
      rw [Field.write_eq_error hlen hw]
      exact ⟨hm, trivial⟩

end Eval

end ScriptedAgent
