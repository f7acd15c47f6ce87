import ScriptedAgent.Proofs.Oid
import ScriptedAgent.Proofs.TypeTable
import ScriptedAgent.Store

/-!
# The exported variables in order

The walk goes over the variables whose identifiers are well-formed, in the order of their arcs
(`exported_sorted`, `mem_exported_iff`). A step of it gives an exported variable's value
(`of_next?`), and it gives the first one behind where it starts (`next?_eq_of_append`).
-/

namespace ScriptedAgent.Store

variable {s : Store} {arcs r : Oid} {name : String} {v : Value}

theorem insertExport_perm (e : Oid × String) :
    ∀ es, (insertExport e es).Perm (e :: es)
  | [] => .refl _
  | d :: ds => by
    unfold insertExport
    split
    · exact ((insertExport_perm e ds).cons d).trans (.swap e d ds)
    · exact .refl _

theorem insertExport_sorted (e : Oid × String) :
    ∀ {es}, es.Pairwise (fun a b => a.1 ≤ b.1) → (insertExport e es).Pairwise fun a b => a.1 ≤ b.1
  | [], _ => List.pairwise_singleton _ _
  | d :: ds, h => by
    obtain ⟨hd, hds⟩ := List.pairwise_cons.1 h
    unfold insertExport
    split
    · rename_i hlt
      refine List.pairwise_cons.2 ⟨fun x hx => ?_, insertExport_sorted e hds⟩
      rcases List.mem_cons.1 ((insertExport_perm e ds).subset hx) with rfl | hx
      · exact Std.le_of_lt hlt
      · exact hd x hx
    · rename_i hge
      have hed : e.1 ≤ d.1 := Std.not_lt.1 hge
      refine List.pairwise_cons.2 ⟨fun x hx => ?_, h⟩
      rcases List.mem_cons.1 hx with rfl | hx
      · exact hed
      · exact Std.le_trans hed (hd x hx)

theorem exported_sorted (s : Store) : s.exported.Pairwise fun a b => a.1 ≤ b.1 := by
  unfold exported
  induction s.types.vars.entries.filterMap export? with
  | nil => exact .nil
  | cons e es ih => exact insertExport_sorted e ih

theorem exported_perm (s : Store) : s.exported.Perm (s.types.vars.entries.filterMap export?) := by
  unfold exported
  induction s.types.vars.entries.filterMap export? with
  | nil => exact .nil
  | cons e es ih => exact (insertExport_perm e _).trans (ih.cons e)

theorem export?_eq_some_iff {e : String × VarType} {d : Oid × String} :
    export? e = some d ↔ e.1 = d.2 ∧ ∃ o, e.2.oid = some o ∧ Oid.ofText? o = some d.1 := by
  rw [export?, Option.map_eq_some_iff]
  constructor
  · rintro ⟨arcs, h, rfl⟩
    exact ⟨rfl, Option.bind_eq_some_iff.1 h⟩
  · rintro ⟨hname, o, ho, harcs⟩
    exact ⟨d.1, by rw [ho, Option.bind_some, harcs], Prod.ext rfl hname⟩

theorem mem_exported_iff : (arcs, name) ∈ s.exported ↔
    ∃ t o, s.types.get? name = some t ∧ t.oid = some o ∧ Oid.ofText? o = some arcs := by
  rw [s.exported_perm.mem_iff, List.mem_filterMap]
  constructor
  · rintro ⟨⟨n, t⟩, he, hd⟩
    obtain ⟨rfl, o, ho, harcs⟩ := export?_eq_some_iff.1 hd
    exact ⟨t, o, NameMap.get?_of_mem he, ho, harcs⟩
  · rintro ⟨t, o, ht, ho, harcs⟩
    exact ⟨(name, t), NameMap.mem_of_get? ht, export?_eq_some_iff.2 ⟨rfl, o, ho, harcs⟩⟩

theorem mem_oids_iff : arcs ∈ s.oids ↔ ∃ name, (arcs, name) ∈ s.exported := by
  simp [oids]

/-- Every exported identifier has arcs. -/
theorem lt_of_mem_oids (h : arcs ∈ s.oids) : [] < arcs := by
  obtain ⟨name, hname⟩ := mem_oids_iff.1 h
  obtain ⟨-, o, -, -, harcs⟩ := mem_exported_iff.1 hname
  have hn := Oid.names_of_ofText? harcs
  match arcs, hn with
  | a :: b :: rest, _ => exact List.nil_lt_cons _ _

theorem of_next? (h : s.next? r = some (arcs, v)) :
    r < arcs ∧ ∃ name, (arcs, name) ∈ s.exported ∧ s.read? name = some v := by
  obtain ⟨⟨x, name⟩, he, hv⟩ := List.exists_of_findSome?_eq_some h
  obtain ⟨hmem, hlt⟩ := List.mem_filter.1 he
  obtain ⟨w, hw, hx⟩ := Option.map_eq_some_iff.1 hv
  cases hx
  exact ⟨of_decide_eq_true hlt, name, hmem, hw⟩

/-- The step from `r` passes the variables up to `r` and stops at the first behind it. -/
theorem next?_eq_of_append {before after : List (Oid × String)}
    (he : s.exported = before ++ (arcs, name) :: after) (hb : ∀ e ∈ before, e.1 ≤ r)
    (hr : r < arcs) (hv : s.read? name = some v) : s.next? r = some (arcs, v) := by
  have hnone : before.filter (fun e => r < e.1) = [] :=
    List.filter_eq_nil_iff.2 fun e h => by
      simpa using hb e h
  rw [next?, he, List.filter_append, hnone, List.nil_append, List.filter_cons_of_pos (by simpa),
    List.findSome?_cons, hv]
  rfl

end ScriptedAgent.Store
