import Mathlib.Data.List.Dedup
import Mathlib.Data.List.Sort
import ScriptedAgent.Proofs.Store.Exported
import ScriptedAgent.Proofs.Store.Reachable

/-!
# The walk over a store

A step of the walk gives the first identifier behind the one it starts from
(`Sound.exists_next?_iff`), although a binary search is all it does (`exists_search`). Steps that go
on from what the last one gave reach every identifier behind the start once, in order
(`walkFrom_strict`, `Sound.mem_walkFrom_iff`), and from the empty identifier they reach all that
there are.
-/

namespace ScriptedAgent.Store

variable {T : TypeTable} {s : Store} {o r : Oid} {v : Value}

/-! ## One step -/

/-- No identifier up to `o` comes behind one that is not. -/
theorem exported_split (s : Store) (o : Oid) :
    s.exported = s.exported.filter (fun e => e.1 ≤ o) ++ s.exported.filter fun e => o < e.1 := by
  have h := s.exported_sorted
  revert h
  induction s.exported with
  | nil => exact fun _ => rfl
  | cons e es ih =>
    intro h
    obtain ⟨he, hes⟩ := List.pairwise_cons.1 h
    by_cases ho : e.1 ≤ o
    · have hlt : ¬ o < e.1 := Std.not_lt.2 ho
      simpa [ho, hlt] using ih hes
    · have hlt : o < e.1 := Std.not_le.1 ho
      have hall : ∀ d ∈ es, o < d.1 := fun d hd => Std.lt_of_lt_of_le hlt (he d hd)
      have hnone : es.filter (fun e => e.1 ≤ o) = [] :=
        List.filter_eq_nil_iff.2 fun d hd => by simpa using hall d hd
      have hself : es.filter (fun e => o < e.1) = es :=
        List.filter_eq_self.2 fun d hd => by simpa using hall d hd
      simp [ho, hlt, hnone, hself]

/-- The entries up to `o` end at one place, which a binary search finds, and the step looks at what
is behind it. -/
theorem exists_search (s : Store) (o : Oid) :
    ∃ n, (∀ i (h : i < s.exported.length), s.exported[i].1 ≤ o ↔ i < n) ∧
      s.next? o = (s.exported.drop n).findSome? fun e => (s.read? e.2).map fun v => (e.1, v) := by
  have hsplit := s.exported_split o
  have hb : ∀ e ∈ s.exported.filter fun e => e.1 ≤ o, e.1 ≤ o := by simp
  have ha : ∀ e ∈ s.exported.filter fun e => o < e.1, o < e.1 := by simp
  rw [next?]
  generalize s.exported.filter (fun e => e.1 ≤ o) = before at hsplit hb
  generalize s.exported.filter (fun e => o < e.1) = after at hsplit ha
  rw [hsplit]
  refine ⟨before.length, fun i h => ?_, by rw [List.drop_left]⟩
  by_cases hi : i < before.length
  · rw [List.getElem_append_left hi]
    exact iff_of_true (hb _ (List.getElem_mem hi)) hi
  · rw [List.getElem_append_right (Nat.le_of_not_lt hi)]
    exact iff_of_false (Std.not_le.2 (ha _ (List.getElem_mem _))) hi

/-- `r` is the first of the store's identifiers behind `o`. -/
structure FirstAfter (s : Store) (o r : Oid) : Prop where
  mem : r ∈ s.oids
  lt : o < r
  le : ∀ x ∈ s.oids, o < x → r ≤ x

theorem FirstAfter.unique {x : Oid} (hr : s.FirstAfter o r) (hx : s.FirstAfter o x) : r = x :=
  Std.le_antisymm (hr.le x hx.mem hx.lt) (hx.le r hr.mem hr.lt)

/-- Every exported variable of a sound store has a value. -/
theorem Sound.exists_of_mem_exported {name : String} (hs : s.Sound) (h : (r, name) ∈ s.exported) :
    ∃ v, s.read? name = some v := by
  obtain ⟨t, -, ht, -⟩ := mem_exported_iff.1 h
  obtain ⟨v, hv, -⟩ := hs.exists_read? ht
  exact ⟨v, hv⟩

theorem Sound.next?_eq_none_iff (hs : s.Sound) : s.next? o = none ↔ ∀ x ∈ s.oids, ¬ o < x := by
  simp only [next?, List.findSome?_eq_none_iff, List.mem_filter, decide_eq_true_eq,
    Option.map_eq_none_iff, mem_oids_iff]
  constructor
  · rintro h x ⟨name, hname⟩ hlt
    obtain ⟨v, hv⟩ := hs.exists_of_mem_exported hname
    rw [h (x, name) ⟨hname, hlt⟩] at hv
    cases hv
  · rintro h ⟨x, name⟩ ⟨hname, hlt⟩
    exact absurd hlt (h x ⟨name, hname⟩)

theorem Sound.firstAfter (hs : s.Sound) (h : s.next? o = some (r, v)) : s.FirstAfter o r := by
  obtain ⟨hlt, name, hmem, -⟩ := of_next? h
  refine ⟨mem_oids_iff.2 ⟨name, hmem⟩, hlt, fun x hx hox => ?_⟩
  obtain ⟨n, hn⟩ := mem_oids_iff.1 hx
  obtain ⟨before, ⟨y, m⟩, after, hsplit, hy, hnone⟩ := List.findSome?_eq_some_iff.1 h
  obtain ⟨-, -, ⟨⟩⟩ := Option.map_eq_some_iff.1 hy
  have hsorted := s.exported_sorted.filter fun e => o < e.1
  have hmem : (x, n) ∈ s.exported.filter fun e => o < e.1 := by simpa using ⟨hn, hox⟩
  rw [hsplit] at hsorted hmem
  rcases List.mem_append.1 hmem with hb | ha
  · -- the search passes only variables without a value, and there are none
    obtain ⟨w, hw⟩ := hs.exists_of_mem_exported hn
    simpa [hw] using hnone (x, n) hb
  · rcases List.mem_cons.1 ha with hx | ha
    · rw [Prod.mk.injEq] at hx
      exact hx.1 ▸ Std.le_refl _
    · exact (List.pairwise_cons.1 (List.pairwise_append.1 hsorted).2.1).1 (x, n) ha

theorem Sound.exists_next?_iff (hs : s.Sound) :
    (∃ v, s.next? o = some (r, v)) ↔ s.FirstAfter o r := by
  constructor
  · rintro ⟨v, h⟩
    exact hs.firstAfter h
  · intro h
    rcases hx : s.next? o with _ | ⟨x, v⟩
    · exact absurd h.lt (hs.next?_eq_none_iff.1 hx r h.mem)
    · exact ⟨v, by rw [h.unique (hs.firstAfter hx)]⟩

/-! ## The whole walk -/

/-- A step leaves fewer identifiers to come. -/
theorem ahead_lt (h : s.next? o = some (r, v)) :
    (s.oids.filter (r < ·)).length < (s.oids.filter (o < ·)).length := by
  obtain ⟨hlt, name, hmem, -⟩ := of_next? h
  have hsub : s.oids.filter (r < ·) = (s.oids.filter (o < ·)).filter (r < ·) := by
    rw [List.filter_filter]
    refine List.filter_congr fun x _ => ?_
    by_cases hx : r < x
    · simp [hx, Std.lt_trans hlt hx]
    · simp [hx]
  rw [hsub, List.length_filter_lt_length_iff_exists]
  exact ⟨r, by simpa [mem_oids_iff] using ⟨⟨name, hmem⟩, hlt⟩, by simp [Std.lt_irrefl]⟩

/-- What the steps give that start behind `o` and go on from the identifier the last one gave. -/
def walkFrom (s : Store) (o : Oid) : List (Oid × Value) :=
  match _h : s.next? o with
  | none => []
  | some (r, v) => (r, v) :: s.walkFrom r
termination_by (s.oids.filter (o < ·)).length
decreasing_by exact ahead_lt _h

theorem walkFrom_of_none (h : s.next? o = none) : s.walkFrom o = [] := by
  rw [walkFrom]
  split
  · rfl
  · simp_all

theorem walkFrom_of_some (h : s.next? o = some (r, v)) :
    s.walkFrom o = (r, v) :: s.walkFrom r := by
  rw [walkFrom]
  split <;> simp_all

theorem lt_of_mem_walkFrom : ∀ e ∈ s.walkFrom o, o < e.1 := by
  induction o using walkFrom.induct s with
  | case1 o h => simp [walkFrom_of_none h]
  | case2 o r v h ih =>
    have hlt := (of_next? h).1
    rw [walkFrom_of_some h]
    rintro e he
    rcases List.mem_cons.1 he with rfl | he
    · exact hlt
    · exact Std.lt_trans hlt (ih e he)

theorem walkFrom_strict (s : Store) (o : Oid) : (s.walkFrom o).Pairwise fun a b => a.1 < b.1 := by
  induction o using walkFrom.induct s with
  | case1 o h => simp [walkFrom_of_none h]
  | case2 o r v h ih =>
    rw [walkFrom_of_some h]
    exact List.pairwise_cons.2 ⟨lt_of_mem_walkFrom, ih⟩

theorem Sound.mem_walkFrom_iff (hs : s.Sound) :
    r ∈ (s.walkFrom o).map (·.1) ↔ r ∈ s.oids ∧ o < r := by
  induction o using walkFrom.induct s with
  | case1 o h =>
    simpa [walkFrom_of_none h] using hs.next?_eq_none_iff.1 h r
  | case2 o x v h ih =>
    have hx := hs.firstAfter h
    rw [walkFrom_of_some h, List.map_cons, List.mem_cons, ih]
    constructor
    · rintro (rfl | ⟨hr, hlt⟩)
      · exact ⟨hx.mem, hx.lt⟩
      · exact ⟨hr, Std.lt_trans hx.lt hlt⟩
    · rintro ⟨hr, hlt⟩
      by_cases heq : r = x
      · exact .inl heq
      · exact .inr ⟨hr, Std.lt_of_le_of_ne (hx.le r hr hlt) (Ne.symm heq)⟩

theorem dedup_oids_strict (s : Store) : s.oids.dedup.Pairwise (· < ·) := by
  have hsorted : s.oids.Pairwise (· ≤ ·) := List.pairwise_map.2 s.exported_sorted
  refine ((hsorted.sublist s.oids.dedup_sublist).and s.oids.nodup_dedup).imp fun h => ?_
  exact Std.lt_of_le_of_ne h.1 h.2

/-- From the empty identifier on, the walk gives every identifier once. -/
theorem Sound.walk_eq_dedup (hs : s.Sound) : (s.walkFrom []).map (·.1) = s.oids.dedup := by
  refine (List.pairwise_map.2 (s.walkFrom_strict [])).eq_of_mem_iff s.dedup_oids_strict fun r => ?_
  rw [hs.mem_walkFrom_iff, List.mem_dedup]
  exact and_iff_left_of_imp lt_of_mem_oids

/-- The store is walked in the order of its identifiers: each step gives the next one with a value
it has, if there is one, and all steps together give each identifier once. -/
structure Walked (s : Store) : Prop where
  search : ∀ o, ∃ n, (∀ i (h : i < s.exported.length), s.exported[i].1 ≤ o ↔ i < n) ∧
    s.next? o = (s.exported.drop n).findSome? fun e => (s.read? e.2).map fun v => (e.1, v)
  first : ∀ o r, (∃ v, s.next? o = some (r, v)) ↔ s.FirstAfter o r
  last : ∀ o, s.next? o = none ↔ ∀ r ∈ s.oids, ¬ o < r
  value : ∀ o r v, s.next? o = some (r, v) →
    ∃ name, (r, name) ∈ s.exported ∧ s.read? name = some v
  strict : ((s.walkFrom []).map (·.1)).Pairwise (· < ·)
  visits : (s.walkFrom []).map (·.1) = s.oids.dedup
  steps : (s.walkFrom []).length = s.oids.dedup.length

theorem walked_of_reachable (h : Reachable T s) : s.Walked where
  search := s.exists_search
  first _ _ := h.sound.exists_next?_iff
  last _ := h.sound.next?_eq_none_iff
  value _ _ _ hv := (of_next? hv).2
  strict := List.pairwise_map.2 (s.walkFrom_strict [])
  visits := h.sound.walk_eq_dedup
  steps := by rw [← h.sound.walk_eq_dedup, List.length_map]

theorem walked_shared : ∃ p s,
    Script.Program.parse
        "var\n y: .1.3.6.1 string\n x: .1.3 integer readwrite\n z: .1.03 integer\nendvar\nrun\nendrun\n"
        Oid.mib2 = .ok p ∧
      Reachable p.types s ∧ s.oids = [[1, 3], [1, 3], [1, 3, 6, 1]] ∧
      s.next? [] = some ([1, 3], .integer 5) ∧ s.next? [1, 3, 5] = some ([1, 3, 6, 1], .string "") ∧
      s.Walked := by
  obtain ⟨p, hp, hx⟩ := Script.Program.exists_parse
    "var\n y: .1.3.6.1 string\n x: .1.3 integer readwrite\n z: .1.03 integer\nendvar\nrun\nendrun\n"
    Oid.mib2
    (fun p =>
      let s := (load p.types).after ((load p.types).set ".1.3" (.integer 5))
      s.oids = [[1, 3], [1, 3], [1, 3, 6, 1]] ∧ s.next? [] = some ([1, 3], .integer 5) ∧
        s.next? [1, 3, 5] = some ([1, 3, 6, 1], .string ""))
    (by decide +kernel)
  obtain ⟨hoids, hnext, hlast⟩ := of_decide_eq_true hx
  have h := Reachable.next .loaded (.set (s := load p.types) ".1.3" (.integer 5))
  exact ⟨p, _, hp, h, hoids, hnext, hlast, walked_of_reachable h⟩

end ScriptedAgent.Store
