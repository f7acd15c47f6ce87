import ScriptedAgent.Proofs.Run.Kept
import ScriptedAgent.Proofs.Script.WellKinded
import ScriptedAgent.Proofs.Store.Sound

/-!
# Reachable stores

A store that was loaded from the types of a script goes from one operation to the next, whether they
succeed or fail. Each keeps it sound, a statement of any other script among them
(`Stmt.exec_store_keeps`), so no order of operations leads to a value that its type does not admit
(`Store.Reachable.sound`).
-/

namespace ScriptedAgent

variable {T : TypeTable}

/-! ## Statements -/

theorem kept_store_keeps (T : TypeTable) (s : Store) : Kept T fun m => s.Keeps m.store where
  takes name m hm := by
    rw [Eval.takeHandover_apply]
    split
    · split
      · exact hm
      · split
        · rename_i h
          exact hm.trans (Store.write_keeps h)
        · exact hm
    · exact hm
  assignsVar {name k} _ x m hm := by
    rw [Eval.assignVar_apply]
    split
    · exact hm
    · split
      · rename_i h
        exact hm.trans (Store.write_keeps h)
      · exact hm
  assignsField {name field f} _ n m hm := by
    rw [Eval.assignField_apply]
    split
    · exact hm
    · split
      · rename_i h
        exact hm.trans (Store.writeField_keeps h)
      · exact hm
      · exact hm
  prints _ _ hm := hm

/-- The types of the script that the statement is from need not be the store's. -/
theorem Script.Stmt.exec_store_keeps {stmt : Script.Stmt} {fuel : Nat} {m : Machine}
    {o : Script.Outcome} (h : stmt.exec T fuel m = some o) : m.store.Keeps o.2.store :=
  (stmt.exec_keeps (kept_store_keeps T m.store) m o (.refl m.store) h).1

namespace Store

/-- The store behind an operation, which one that fails leaves as it was. -/
def after (s : Store) {ε : Type} : Except ε Store → Store
  | .ok s' => s'
  | .error _ => s

/-- One operation on a store: a write of a variable or a field, a manager's set, initial values, a
request or a datagram to an agent, or a statement executed over it. -/
inductive Step (s : Store) : Store → Prop
  | write (name : String) (v : Value) : Step s (s.after (s.write name v))
  | writeField (name : String) (f : Field) (n : Nat) : Step s (s.after (s.writeField name f n))
  | set (oid : String) (v : Value) : Step s (s.after (s.set oid v))
  | initials (is : List Initializer) : Step s (Initializer.applyAll s is).1
  | request (a : Agent) (m : Message) : Step s (a.handle s m).2
  | datagram (a : Agent) (bytes : List UInt8) : Step s (a.process s bytes).2
  | execute (T : TypeTable) (stmt : Script.Stmt) (fuel : Nat) (m : Machine) (o : Script.Outcome)
      (hs : m.store = s) (h : stmt.exec T fuel m = some o) : Step s o.2.store

/-- The stores that operations lead to from the one loaded from `T`. -/
inductive Reachable (T : TypeTable) : Store → Prop
  | loaded : Reachable T (.load T)
  | next {s s' : Store} : Reachable T s → Step s s' → Reachable T s'

variable {s s' : Store}

theorem after_keeps {ε : Type} {r : Except ε Store} (h : ∀ s', r = .ok s' → s.Keeps s') :
    s.Keeps (s.after r) := by
  cases r with
  | ok s' => exact h s' rfl
  | error e => exact .refl s

theorem Step.keeps (h : Step s s') : s.Keeps s' := by
  cases h with
  | write name v => exact after_keeps fun _ h => write_keeps h
  | writeField name f n => exact after_keeps fun _ h => writeField_keeps h
  | set oid v => exact after_keeps fun _ h => set_keeps h
  | initials is => exact Initializer.applyAll_keeps is s
  | request a m => exact a.handle_keeps s m
  | datagram a bytes => exact a.process_keeps s bytes
  | execute T stmt fuel m o hs h => exact hs ▸ Script.Stmt.exec_store_keeps h

namespace Reachable

theorem keeps (h : Reachable T s) : (load T).Keeps s := by
  induction h with
  | loaded => exact .refl _
  | next _ hstep ih => exact ih.trans hstep.keeps

theorem types_eq (h : Reachable T s) : s.types = T := h.keeps.1

theorem sound (h : Reachable T s) : s.Sound := h.keeps.2 (load_sound T)

end Reachable

/-- The store has values for the variables of `T` and for no others, and each is one that its
variable's type admits. A block has the size of its layout, and the text of an identifier is read as
one, so what an agent sends for it is never the substitute. -/
structure Checked (T : TypeTable) (s : Store) : Prop where
  types : s.types = T
  declared : ∀ name, (s.read? name).isSome = (T.get? name).isSome
  check : ∀ name t v, T.get? name = some t → s.read? name = some v → t.check v = .ok ()
  admits : ∀ name t v, T.get? name = some t → s.read? name = some v → t.Admits v
  block : ∀ name t v, T.get? name = some t → s.read? name = some v → t.kind = .bytes →
    ∃ l b, t.layout = some l ∧ v = .block b ∧ b.length = l.size
  oid : ∀ name x, s.read? name = some (.oid x) →
    ∃ arcs, Oid.ofText? x = some arcs ∧ (Value.oid x).toWire = .oid arcs

theorem Sound.exists_oid {name x : String} (h : s.Sound) (hx : s.read? name = some (.oid x)) :
    ∃ arcs, Oid.ofText? x = some arcs := by
  have hd := h.declared name
  rw [hx, Option.isSome_some, eq_comm, Option.isSome_iff_exists] at hd
  obtain ⟨t, ht⟩ := hd
  exact (h.admits ht hx).2

/-- Whatever has been done to the store of a parsed script, its values are checked ones. -/
theorem checked_of_reachable {text base : String} {p : Script.Program}
    (hp : Script.Program.parse text base = .ok p) (h : Reachable p.types s) :
    s.Checked p.types where
  types := h.types_eq
  declared name := h.types_eq ▸ h.sound.declared name
  check name t v ht hv := VarType.check_eq_ok_iff.2 (h.sound.admits (h.types_eq.symm ▸ ht) hv)
  admits name t v ht hv := h.sound.admits (h.types_eq.symm ▸ ht) hv
  block name t v ht hv hk := by
    have hl := ((Script.Program.parse_wellKinded hp).layouts name t ht).1 hk
    obtain ⟨l, hl⟩ := Option.isSome_iff_exists.1 hl
    obtain ⟨b, hb⟩ := VarType.exists_block hk hl (h.sound.admits (h.types_eq.symm ▸ ht) hv)
    exact ⟨l, b, hl, hb⟩
  oid name x hx := by
    obtain ⟨arcs, harcs⟩ := h.sound.exists_oid hx
    exact ⟨arcs, harcs, by rw [Value.toWire, harcs, Option.getD_some]⟩

theorem checked_after_set :
    ∃ p s, Script.Program.parse
        "var\n x: 1 integer readwrite\n b: bytes \x7b a: 0 2 \x7d\nendvar\nrun\nendrun\n"
        Oid.mib2 = .ok p ∧
      Reachable p.types s ∧ s.read? "x" = some (.integer 5) ∧ s.Checked p.types := by
  obtain ⟨p, hp, hx⟩ := Script.Program.exists_parse
    "var\n x: 1 integer readwrite\n b: bytes \x7b a: 0 2 \x7d\nendvar\nrun\nendrun\n" Oid.mib2
    (fun p => ((load p.types).after
      ((load p.types).set ".1.3.6.1.2.1.1" (.integer 5))).read? "x" = some (.integer 5))
    (by decide +kernel)
  have h := Reachable.next .loaded (.set (s := load p.types) ".1.3.6.1.2.1.1" (.integer 5))
  exact ⟨p, _, hp, h, of_decide_eq_true hx, checked_of_reachable hp h⟩

end Store

end ScriptedAgent
