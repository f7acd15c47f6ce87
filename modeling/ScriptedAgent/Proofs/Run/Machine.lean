import ScriptedAgent.Proofs.Stateful
import ScriptedAgent.Run.Machine

/-!
# Steps of a running script

What the steps that touch the machine do to it: the taking of a value handed over
(`takeHandover_apply`), the reading of a field (`loadField_apply`) and the two assignments
(`assignVar_apply`, `assignField_apply`).
-/

namespace ScriptedAgent

/-- The machine that has begun to read a blocking variable. -/
def Machine.ask (m : Machine) (name : String) : Machine := { m with asked := m.asked.push name }

/-- The machine with a value taken from the feed, before the store has it. -/
def Machine.take (m : Machine) (name : String) (v : Value) (feed : Feed) : Machine :=
  { m.ask name with feed, received := m.received.push (name, v) }

namespace Eval

open Stateful

@[simp] theorem setStore_apply (name : String) (r : Except StoreError Store) (m : Machine) :
    setStore name r m = match r with
      | .ok s => (.ok (), { m with store := s })
      | .error e => (.error (.store name e), m) := by
  cases r <;> rfl

theorem takeHandover_apply (T : TypeTable) (name : String) (m : Machine) :
    takeHandover T name m =
      if isBlocking T name then
        match m.feed.take? name with
        | none => (.error (.rendezvousClosed name), m.ask name)
        | some (v, feed) => match m.store.write name v with
          | .ok s => (.ok (some v), { m.take name v feed with store := s })
          | .error e => (.error (.store name e), m.take name v feed)
      else (.ok none, m) := by
  unfold takeHandover
  split
  · simp only [bind_apply, modify_apply, get_apply]
    generalize m.feed.take? name = taken
    rcases taken with _ | ⟨v, feed⟩
    · rfl
    · simp only [bind_apply, modify_apply, get_apply, setStore_apply, Machine.take, Machine.ask]
      cases m.store.write name v <;> rfl
  · rfl

/-- A field is looked up once a value has been handed over. -/
theorem loadField_apply (T : TypeTable) (var field : String) (m : Machine) :
    loadField T var field m = match takeHandover T var m with
      | (.error e, m) => (.error e, m)
      | (.ok _, m) => match T.field? var field with
        | none => (.error (.missing (var ++ ":" ++ field)), m)
        | some f => match m.store.readField var f with
          | .error e => (.error (.store var e), m)
          | .ok v => checked (Number.ofInt? v) m := by
  unfold loadField fieldDef
  rw [bind_apply]
  rcases takeHandover T var m with ⟨e | v, m₁⟩
  · rfl
  · cases T.field? var field with
    | none => rfl
    | some f =>
      simp only [bind_apply, pure_apply, get_apply]
      cases m₁.store.readField var f <;> rfl

theorem assignVar_apply (name : String) (k : Kind) (s : Scalar) (m : Machine) :
    assignVar name k s m = match Value.ofScalar k s with
      | .error e => (.error (.value name e), m)
      | .ok v => match m.store.write name v with
        | .ok s => (.ok (), { m with store := s })
        | .error e => (.error (.store name e), m) := by
  unfold assignVar
  cases Value.ofScalar k s with
  | error e => rfl
  | ok v => simp only [bind_apply, get_apply, setStore_apply]

theorem assignField_apply (var : String) (f : Field) (n : Number) (m : Machine) :
    assignField var f n m =
      if n.toInt < 0 then (.error (.fieldOverflow var f.name n f.size), m)
      else match m.store.writeField var f n.toInt.toNat with
        | .ok s => (.ok (), { m with store := s })
        | .error (.typeMismatch _ (.fieldWidth _ _ _)) =>
          (.error (.fieldOverflow var f.name n f.size), m)
        | .error e => (.error (.store var e), m) := by
  unfold assignField
  split
  · rfl
  · simp only [bind_apply, get_apply]
    split <;> simp_all

end Eval

end ScriptedAgent
