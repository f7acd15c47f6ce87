import ScriptedAgent.Proofs.Oid
import ScriptedAgent.Proofs.Script.WellKinded
import ScriptedAgent.Proofs.Store.Exported
import ScriptedAgent.Proofs.Store.Sound

/-!
# Look-up and walk

A Get finds a variable by the text of its identifier as declared, a walk by the arcs that the text
is read as. The two serve the same objects exactly if every identifier is declared in the text of
its own arcs (`Sound.coherent_iff`): a text with a leading zero is walked to but not found, and one
that has no arcs is found but not walked to.
-/

namespace ScriptedAgent

namespace TypeTable

/-- Every identifier is declared as its arcs are written: at least two of them, the first at most 2,
each below 2³² and without a sign or leading zeros. -/
def Canonical (T : TypeTable) : Prop :=
  ∀ name t o, T.get? name = some t → t.oid = some o → ∃ arcs : Oid, arcs.Names ∧ o = arcs.text

theorem canonical_iff {T : TypeTable} : T.Canonical ↔
    ∀ e ∈ T.vars.entries, ∀ o ∈ e.2.oid, Oid.Canonical o :=
  ⟨fun h e he o ho => h e.1 e.2 o (NameMap.get?_of_mem he) ho,
    fun h _ _ o ht ho => h _ (NameMap.mem_of_get? ht) o ho⟩

instance (T : TypeTable) : Decidable T.Canonical := decidable_of_iff' _ canonical_iff

end TypeTable

namespace Store

variable {s : Store} {T : TypeTable} {arcs r : Oid} {name oid : String} {t : VarType} {v : Value}

/-- The object at `arcs` is `name` alone, for a look-up and for the walk. -/
structure ServedAt (s : Store) (arcs : Oid) (name : String) : Prop where
  once : s.oids.count arcs = 1
  alone : ∀ other, (arcs, other) ∈ s.exported ↔ other = name
  get : s.get? arcs.text = s.read? name
  found : ∃ v, s.get? arcs.text = some v ∧ ∃ r, s.next? r = some (arcs, v)

/-- A look-up and the walk serve the same objects, and every exported variable is one. -/
structure Coherent (s : Store) : Prop where
  served : ∀ name t o, s.types.get? name = some t → t.oid = some o →
    ∃ arcs, Oid.ofText? o = some arcs ∧ s.ServedAt arcs name
  next : ∀ r arcs v, s.next? r = some (arcs, v) → s.get? arcs.text = some v

theorem get?_of_oid (ht : s.types.get? name = some t) (ho : t.oid = some oid) :
    s.get? oid = s.read? name := by
  rw [get?, TypeTable.nameForOid?_eq_some_iff.2 ⟨t, ht, ho⟩, Option.bind_some]

/-- A look-up by arcs that finds something finds an entry of the walk. -/
theorem mem_exported_of_get? (hn : arcs.Names) (h : s.get? arcs.text = some v) :
    ∃ name t, (arcs, name) ∈ s.exported ∧ s.types.get? name = some t ∧ t.oid = some arcs.text := by
  obtain ⟨name, hname, -⟩ := Option.bind_eq_some_iff.1 h
  obtain ⟨t, ht, ho⟩ := TypeTable.nameForOid?_eq_some_iff.1 hname
  exact ⟨name, t, mem_exported_iff.2 ⟨t, _, ht, ho, Oid.ofText?_text hn⟩, ht, ho⟩

theorem Coherent.canonical (h : s.Coherent) : s.types.Canonical := by
  intro name t o ht ho
  obtain ⟨arcs, harcs, hs⟩ := h.served name t o ht ho
  have hn := Oid.names_of_ofText? harcs
  obtain ⟨v, hv, -⟩ := hs.found
  obtain ⟨other, u, hmem, hu, hou⟩ := mem_exported_of_get? hn hv
  obtain rfl := (hs.alone other).1 hmem
  rw [ht, Option.some.injEq] at hu
  rw [hu, hou, Option.some.injEq] at ho
  exact ⟨arcs, hn, ho.symm⟩

theorem oid_eq_of_mem_exported (hc : s.types.Canonical) (h : (arcs, name) ∈ s.exported) :
    ∃ t, s.types.get? name = some t ∧ t.oid = some arcs.text := by
  obtain ⟨t, o, ht, ho, harcs⟩ := mem_exported_iff.1 h
  obtain ⟨arcs', hn, rfl⟩ := hc name t o ht ho
  rw [Oid.ofText?_text hn, Option.some.injEq] at harcs
  exact ⟨t, ht, harcs ▸ ho⟩

theorem eq_of_mem_exported (hc : s.types.Canonical) {other : String} (h : (arcs, name) ∈ s.exported)
    (h' : (arcs, other) ∈ s.exported) : other = name := by
  obtain ⟨t, ht, ho⟩ := oid_eq_of_mem_exported hc h
  obtain ⟨u, hu, hou⟩ := oid_eq_of_mem_exported hc h'
  exact s.types.oids_unique other name u t arcs.text hu ht hou ho

theorem exported_nodup (s : Store) : s.exported.Nodup := by
  rw [s.exported_perm.nodup_iff, List.Nodup, List.pairwise_filterMap]
  refine s.types.vars.ascending.imp fun {d e} hlt x hx y hy hxy => ?_
  have hd := (export?_eq_some_iff.1 hx).1
  have he := (export?_eq_some_iff.1 hy).1
  rw [hd, he, hxy] at hlt
  exact String.lt_irrefl _ hlt

/-- Canonical identifiers are walked in strictly increasing order. -/
theorem exported_strict (hc : s.types.Canonical) :
    s.exported.Pairwise fun a b => a.1 < b.1 := by
  refine (s.exported_sorted.and s.exported_nodup).imp_of_mem fun {d e} hd he h => ?_
  refine Std.lt_of_le_of_ne h.1 fun harcs => h.2 ?_
  obtain ⟨x, n⟩ := d
  obtain ⟨y, m⟩ := e
  obtain rfl : x = y := harcs
  rw [eq_of_mem_exported hc he hd]

theorem oids_nodup (hc : s.types.Canonical) : s.oids.Nodup := by
  rw [oids, List.Nodup, List.pairwise_map]
  refine (exported_strict hc).imp fun {d e} hlt heq => ?_
  rw [heq] at hlt
  exact Std.lt_irrefl hlt

theorem Sound.next?_of_mem (hs : s.Sound) (hc : s.types.Canonical) (h : (arcs, name) ∈ s.exported) :
    ∃ v r, s.read? name = some v ∧ s.next? r = some (arcs, v) := by
  obtain ⟨t, ht, ho⟩ := oid_eq_of_mem_exported hc h
  obtain ⟨v, hv, -⟩ := hs.exists_read? ht
  obtain ⟨before, after, he⟩ := List.append_of_mem h
  have hstrict := exported_strict hc
  rw [he, List.pairwise_append] at hstrict
  have hbefore := hstrict.1
  have hlt := fun e hx => hstrict.2.2 e hx (arcs, name) List.mem_cons_self
  -- the step starts at the entry before, or below all identifiers if there is none
  rcases List.eq_nil_or_concat before with rfl | ⟨init, ⟨r, n⟩, rfl⟩
  · have hr := lt_of_mem_oids (mem_oids_iff.2 ⟨name, h⟩)
    exact ⟨v, [], hv, next?_eq_of_append he (by simp) hr hv⟩
  · refine ⟨v, r, hv, next?_eq_of_append he (fun e hx => ?_) ?_ hv⟩
    · rcases List.mem_append.1 (List.concat_eq_append ▸ hx) with hx | hx
      · rw [List.concat_eq_append, List.pairwise_append] at hbefore
        exact Std.le_of_lt (hbefore.2.2 e hx (r, n) (by simp))
      · rw [List.mem_singleton.1 hx]
        exact Std.le_refl _
    · exact hlt (r, n) (by simp)

theorem Sound.coherent (hs : s.Sound) (hc : s.types.Canonical) : s.Coherent where
  served name t o ht ho := by
    obtain ⟨arcs, hn, rfl⟩ := hc name t o ht ho
    have hmem : (arcs, name) ∈ s.exported :=
      mem_exported_iff.2 ⟨t, _, ht, ho, Oid.ofText?_text hn⟩
    have hget := get?_of_oid ht ho
    refine ⟨arcs, Oid.ofText?_text hn, ?_, fun other => ⟨eq_of_mem_exported hc hmem, ?_⟩, hget, ?_⟩
    · rw [(oids_nodup hc).count, if_pos (mem_oids_iff.2 ⟨name, hmem⟩)]
    · rintro rfl
      exact hmem
    · obtain ⟨v, r, hv, hr⟩ := hs.next?_of_mem hc hmem
      exact ⟨v, hget.trans hv, r, hr⟩
  next r arcs v h := by
    obtain ⟨-, name, hmem, hv⟩ := of_next? h
    obtain ⟨t, ht, ho⟩ := oid_eq_of_mem_exported hc hmem
    rw [get?_of_oid ht ho, hv]

theorem Sound.coherent_iff (hs : s.Sound) : s.Coherent ↔ s.types.Canonical :=
  ⟨Coherent.canonical, hs.coherent⟩

/-- In the store of a script, look-up and walk serve the same objects exactly if the script declares
every identifier in its canonical text. -/
theorem coherent_load_iff (T : TypeTable) : (load T).Coherent ↔ T.Canonical :=
  (load_sound T).coherent_iff

theorem coherent_load_relative : ∃ p,
    Script.Program.parse "var\n x: 007 integer\n y: .2.999 string blocking\nendvar\nrun\nendrun\n"
        Oid.mib2 = .ok p ∧
      (load p.types).oids = [[1, 3, 6, 1, 2, 1, 7], [2, 999]] ∧ (load p.types).Coherent := by
  obtain ⟨p, hp, h⟩ := Script.Program.exists_parse
    "var\n x: 007 integer\n y: .2.999 string blocking\nendvar\nrun\nendrun\n" Oid.mib2
    (fun p => (load p.types).oids = [[1, 3, 6, 1, 2, 1, 7], [2, 999]] ∧ p.types.Canonical)
    (by decide +kernel)
  obtain ⟨hoids, hc⟩ := of_decide_eq_true h
  exact ⟨p, hp, hoids, (coherent_load_iff p.types).2 hc⟩

/-- A leading zero in a declaration: the walk gives an identifier that no look-up finds. -/
theorem not_coherent_load : ¬ ∀ text base p, (Oid.ofText? base).isSome = true →
    Script.Program.parse text base = .ok p → (load p.types).Coherent := by
  intro h
  obtain ⟨p, hp, hd⟩ := Script.Program.exists_parse
    "var\n x: .1.03 integer\nendvar\nrun\nendrun\n" Oid.mib2
    (fun p => (load p.types).next? [] = some ([1, 3], .integer 0) ∧
      (load p.types).get? (Oid.text [1, 3]) = none)
    (by decide +kernel)
  obtain ⟨hnext, hget⟩ := of_decide_eq_true hd
  have hfound := (h _ _ p (by decide +kernel) hp).next [] [1, 3] (.integer 0) hnext
  rw [hget] at hfound
  cases hfound

end Store

end ScriptedAgent
