import Mathlib.Data.List.Basic
import ScriptedAgent.Proofs.Agent.Refusal
import ScriptedAgent.Proofs.Store.Exported

/-!
# What managers cannot see

Requests look variables up by the text of an identifier or walk over the exported ones, and write
only where they have looked up. So stores that agree on the variables with an identifier
(`Store.Alike`) answer every traffic alike and agree on them ever after (`Agent.serve_alike`).
-/

namespace ScriptedAgent

namespace Store

variable {s s' : Store} {name oid : String} {t : VarType} {v : Value}

/-- The stores have the same variables, and those with an identifier hold the same values. -/
structure Alike (s s' : Store) : Prop where
  types : s'.types = s.types
  agree : ∀ name t, s.types.get? name = some t → t.oid.isSome → s'.read? name = s.read? name

/-- What a variable without an identifier holds makes no difference. -/
theorem alike_put (ht : s.types.get? name = some t) (ho : t.oid = none) :
    s.Alike (s.put name v) where
  types := rfl
  agree x u hu hx := by
    rw [read?_put, if_neg]
    rintro rfl
    rw [ht, Option.some.injEq] at hu
    rw [← hu, ho] at hx
    cases hx

namespace Alike

variable (h : s.Alike s')
include h

theorem read? (hn : s.types.nameForOid? oid = some name) : s'.read? name = s.read? name := by
  obtain ⟨t, ht, ho⟩ := TypeTable.nameForOid?_eq_some_iff.1 hn
  exact h.agree name t ht (by rw [ho]; rfl)

theorem put (name : String) (v : Value) : (s.put name v).Alike (s'.put name v) where
  types := h.types
  agree x t ht ho := by
    rw [read?_put, read?_put, h.agree x t ht ho]

/-! ## Look-up and walk -/

theorem get?_eq (oid : String) : s'.get? oid = s.get? oid := by
  unfold get?
  rw [h.types]
  exact Option.bind_congr fun _ hn => h.read? hn

theorem varType?_eq (oid : String) : s'.varType? oid = s.varType? oid := by
  unfold varType?
  rw [h.types]

theorem next?_eq (r : Oid) : s'.next? r = s.next? r := by
  have he : s'.exported = s.exported := by
    unfold exported
    rw [h.types]
  rw [next?, next?, he, ← List.head?_filterMap, ← List.head?_filterMap]
  refine congrArg List.head? (List.filterMap_congr fun e hmem => ?_)
  obtain ⟨t, o, ht, ho, -⟩ := mem_exported_iff.1 (List.mem_filter.1 hmem).1
  rw [h.agree e.2 t ht (by rw [ho]; rfl)]

theorem getBinding_eq (v : Version) : s'.getBinding v = s.getBinding v := by
  funext b
  unfold getBinding
  rw [h.get?_eq]

theorem nextBinding_eq (v : Version) : s'.nextBinding v = s.nextBinding v := by
  funext b
  unfold nextBinding
  rw [h.next?_eq]

/-! ## Sets -/

theorem stage_eq : ∀ (i : Nat) (bs : List Binding), s'.stage i bs = s.stage i bs
  | _, [] => rfl
  | i, b :: bs => by
    simp only [stage, h.varType?_eq, stage_eq (i + 1) bs]

omit h in
theorem setAll : ∀ {s s' : Store} (sets : List (String × Value)) (i : Nat), s.Alike s' →
    (s'.setAll i sets).closed.2 = (s.setAll i sets).closed.2 ∧
      (s.setAll i sets).closed.1.Alike (s'.setAll i sets).closed.1
  | _, _, [], _, h => ⟨rfl, h⟩
  | s, s', (oid, v) :: rest, i, h => by
    unfold Store.setAll
    obtain ⟨e, hd, hd'⟩ | ⟨name, hd, hd'⟩ | ⟨name, hd, hd'⟩ :=
      deliver_congr h.types oid v
    · rw [hd, hd']
      exact ⟨rfl, h⟩
    · rw [hd, hd']
      exact ⟨rfl, h⟩
    · rw [hd, hd']
      exact setAll rest (i + 1) (h.put name v)

end Alike

end Store

namespace Agent

variable {s s' : Store}

theorem handle_alike (a : Agent) (h : s.Alike s') (m : Message) :
    (a.handle s' m).1 = (a.handle s m).1 ∧ (a.handle s m).2.Alike (a.handle s' m).2 := by
  unfold handle
  split
  · split
    · rw [h.getBinding_eq]
      exact ⟨rfl, h⟩
    · rw [h.nextBinding_eq]
      exact ⟨rfl, h⟩
    · rw [h.stage_eq]
      split
      · exact ⟨rfl, h⟩
      · rename_i sets _
        obtain ⟨hfailure, hs⟩ := Store.Alike.setAll sets 0 h
        exact ⟨congrArg (fun failure => some (m.settle failure)) hfailure, hs⟩
    · exact ⟨rfl, h⟩
  · exact ⟨rfl, h⟩

theorem process_alike (a : Agent) (h : s.Alike s') (d : List UInt8) :
    (a.process s' d).1 = (a.process s d).1 ∧ (a.process s d).2.Alike (a.process s' d).2 := by
  unfold process
  split
  · exact ⟨rfl, h⟩
  · rename_i m _
    obtain ⟨hreply, hs⟩ := a.handle_alike h m
    exact ⟨congrArg (Option.map Message.encode) hreply, hs⟩

/-- Stores that agree on the variables with an identifier give the same answers to all datagrams,
whatever their other variables hold, and agree on these variables after them. -/
theorem serve_alike (a : Agent) : ∀ (ds : List (List UInt8)) {s s' : Store}, s.Alike s' →
    (a.serve s' ds).1 = (a.serve s ds).1 ∧ (a.serve s ds).2.Alike (a.serve s' ds).2
  | [], _, _, h => ⟨rfl, h⟩
  | d :: ds, s, s', h => by
    obtain ⟨hreply, hs⟩ := a.process_alike h d
    obtain ⟨hreplies, hs⟩ := serve_alike a ds hs
    simp only [serve, hreply, hreplies, true_and]
    exact hs

/-- A Set and a walk pass a variable without an identifier by, whatever it holds. -/
theorem serve_alike_secret : ∃ p : Script.Program, Script.Program.parse
      "var\n x: 1 integer readwrite\n y: 2 integer\n secret: integer\nendvar\nrun\nendrun\n" Oid.mib2 =
        .ok p ∧
    let a := ofCommunities "public" "private"
    let s := Store.load p.types
    let s' := s.put "secret" (.integer 7)
    let ds := [halfRefused.encode, { halfRefused with kind := .getNext }.encode]
    s.read? "secret" = some (.integer 0) ∧ s'.read? "secret" = some (.integer 7) ∧
      (a.serve s ds).1.all Option.isSome = true ∧
      s.Alike s' ∧ (a.serve s' ds).1 = (a.serve s ds).1 ∧
      (a.serve s ds).2.Alike (a.serve s' ds).2 := by
  obtain ⟨p, hp, h⟩ := Script.Program.exists_parse
    "var\n x: 1 integer readwrite\n y: 2 integer\n secret: integer\nendvar\nrun\nendrun\n" Oid.mib2
    (fun p =>
      (Store.load p.types).read? "secret" = some (.integer 0) ∧
      ((ofCommunities "public" "private").serve (.load p.types)
        [halfRefused.encode, { halfRefused with kind := .getNext }.encode]).1.all Option.isSome ∧
      (p.types.get? "secret").map (·.oid) = some none)
    (by decide +kernel)
  obtain ⟨h₀, hreplies, hsecret⟩ := of_decide_eq_true h
  obtain ⟨t, ht, ho⟩ := Option.map_eq_some_iff.1 hsecret
  have halike := Store.alike_put (s := .load p.types) (v := .integer 7) ht ho
  obtain ⟨hsame, hafter⟩ := serve_alike (ofCommunities "public" "private")
    [halfRefused.encode, { halfRefused with kind := .getNext }.encode] halike
  refine ⟨p, hp, h₀, ?_, hreplies, halike, hsame, hafter⟩
  rw [Store.read?_put, if_pos rfl]

end Agent

end ScriptedAgent
