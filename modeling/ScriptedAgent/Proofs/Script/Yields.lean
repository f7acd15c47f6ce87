import ScriptedAgent.Proofs.Stateful
import ScriptedAgent.Script.Cursor

/-!
# What a parse yields

`Parse.Yields p Q` says that whatever `p` reads, from any cursor, has `Q`. A parse that stops yields
nothing.
-/

namespace ScriptedAgent.Script.Parse

open Stateful

variable {α β : Type}

def Yields (p : Parse α) (Q : α → Prop) : Prop := ∀ c a, (p c).1 = .ok a → Q a

namespace Yields

variable {p : Parse α} {f : α → Parse β} {Q : α → Prop} {R : β → Prop}

theorem pure {a : α} (h : Q a) : Yields (Pure.pure a) Q := by
  rintro c b ⟨⟩
  exact h

theorem throw (e : Stop) : Yields (MonadExcept.throw e : Parse α) Q := by
  rintro c a ⟨⟩

theorem error (e : ParseFault) : Yields (error e : Parse α) Q := by
  rintro c a ⟨⟩

theorem missing (e : ParseFault) : Yields (missing e : Parse α) Q := by
  rintro c a ⟨⟩

theorem bind (hp : Yields p Q) (hf : ∀ a, Q a → Yields (f a) R) : Yields (p >>= f) R := by
  intro c b h
  rw [bind_apply] at h
  split at h
  · rename_i a c' ha
    exact hf a (hp c a (by rw [ha])) c' b h
  · simp at h

/-- Nothing need be known of what is read first. -/
theorem after (hf : ∀ a, Yields (f a) R) : Yields (p >>= f) R :=
  bind (Q := fun _ => True) (fun _ _ _ => trivial) fun a _ => hf a

theorem step (hp : Yields p Q) : Yields (step p) Q := after fun _ => hp

end Yields

end ScriptedAgent.Script.Parse
