import ScriptedAgent.Proofs.Stateful
import ScriptedAgent.Proofs.TypeTable
import ScriptedAgent.TypeTable.Registry

/-!
# Calls that fill a table

A call is refused exactly if what it takes is taken, and one that is not adds its entry and changes
no other (`TypeTable.call_cases`). A registry follows the table through all calls
(`Registry.Mirrors.call`), since the only check that can fail between its two writes comes before
the first of them. So types and index never part (`TypeTable.consistent_of_calls`).
-/

namespace ScriptedAgent

open Stateful

namespace TypeTable

variable {T T' : TypeTable} {c : Call} {name x oid holder : String} {t u : VarType} {m n : Number}

/-- The name or the identifier that the call takes is taken; for an alias, by another number. -/
def Refuses (T : TypeTable) : Call → Prop
  | .declare name t => (∃ u, T.get? name = some u) ∨
      ∃ oid holder, t.oid = some oid ∧ T.nameForOid? oid = some holder
  | .bindAlias name n => ∃ m, T.alias? name = some m ∧ m ≠ n

/-- `T'` gives what `T` gives, and the entry of the call. -/
def Added (T T' : TypeTable) : Call → Prop
  | .declare name t =>
    (∀ x, T'.get? x = if x = name then some t else T.get? x) ∧
      (∀ oid, T'.nameForOid? oid = if t.oid = some oid then some name else T.nameForOid? oid) ∧
      ∀ a, T'.alias? a = T.alias? a
  | .bindAlias name n =>
    (∀ x, T'.get? x = T.get? x) ∧ (∀ oid, T'.nameForOid? oid = T.nameForOid? oid) ∧
      ∀ a, T'.alias? a = if a = name then some n else T.alias? a

/-! ## A call on a table -/

theorem declare_of_declared (h : T.get? name = some u) :
    T.declare name t = .error (.declaredTwice name) := by
  have hc : T.vars.contains name = true := Option.isSome_iff_exists.2 ⟨u, h⟩
  rw [declare, if_pos hc]

theorem declare_of_taken (hn : T.get? name = none) (ho : t.oid = some oid)
    (hh : T.nameForOid? oid = some holder) : T.declare name t = .error (.oidTaken oid holder) := by
  have hc : ¬ T.vars.contains name = true := by
    rw [NameMap.contains, show T.vars.get? name = none from hn]
    nofun
  have hconflict : T.conflict? t.oid = some (.oidTaken oid holder) := by
    rw [conflict?, ho, Option.bind_some, hh, Option.map_some]
  rw [declare, if_neg hc]
  split <;> rename_i h <;> rw [hconflict] at h <;> cases h
  rfl

/-- The index of a table follows from its types. -/
theorem nameForOid?_of_get? (hget : ∀ x, T'.get? x = if x = name then some t else T.get? x)
    (hn : T.get? name = none) (hfree : ∀ oid, t.oid = some oid → T.nameForOid? oid = none)
    (oid : String) :
    T'.nameForOid? oid = if t.oid = some oid then some name else T.nameForOid? oid := by
  refine Option.ext fun x => ?_
  rw [nameForOid?_eq_some_iff, hget]
  by_cases ho : t.oid = some oid
  · have hnone : ∀ u, T.get? x = some u → u.oid ≠ some oid := fun u hu huo => by
      have hx := nameForOid?_eq_some_iff.2 ⟨u, hu, huo⟩
      rw [hfree oid ho] at hx
      cases hx
    rw [if_pos ho]
    by_cases hx : x = name
    · simp [hx, ho]
    · simpa [hx, Ne.symm hx] using hnone
  · rw [if_neg ho, nameForOid?_eq_some_iff]
    by_cases hx : x = name
    · simp [hx, ho, hn]
    · simp [hx]

theorem declare_of_free (hn : T.get? name = none)
    (hfree : ∀ oid, t.oid = some oid → T.nameForOid? oid = none) :
    ∃ T', T.declare name t = .ok T' ∧ T.Added T' (.declare name t) := by
  have hc : ¬ T.vars.contains name = true := by
    rw [NameMap.contains, show T.vars.get? name = none from hn]
    nofun
  have hconflict : T.conflict? t.oid = none := by
    cases ho : t.oid with
    | none => rfl
    | some oid => rw [conflict?, Option.bind_some, hfree oid ho, Option.map_none]
  have hget := fun x => NameMap.get?_insert T.vars name x t
  refine ⟨T.add name t (holder?_of_conflict? hconflict), ?_, hget,
    nameForOid?_of_get? hget hn hfree, fun _ => rfl⟩
  rw [declare, if_neg hc]
  split <;> rename_i h
  · rw [hconflict] at h
    cases h
  · rfl

theorem bindAlias_of_taken (h : T.alias? name = some m) (hne : m ≠ n) :
    T.bindAlias name n = .error (.aliasTaken name m) := by
  rw [bindAlias, h]
  exact if_neg hne

theorem bindAlias_of_free (h : ∀ m, T.alias? name = some m → m = n) :
    ∃ T', T.bindAlias name n = .ok T' ∧ T.Added T' (.bindAlias name n) := by
  cases ha : T.alias? name with
  | none =>
    refine ⟨{ T with aliases := T.aliases.insert name n }, by rw [bindAlias, ha], fun _ => rfl,
      fun _ => rfl, fun a => NameMap.get?_insert T.aliases name a n⟩
  | some m =>
    obtain rfl := h m ha
    refine ⟨T, by rw [bindAlias, ha]; exact if_pos rfl, fun _ => rfl, fun _ => rfl, fun a => ?_⟩
    split
    · rename_i hname
      rw [hname, ha]
    · rfl

/-- All that a call does to a table. -/
theorem call_cases (T : TypeTable) (c : Call) :
    (T.Refuses c ∧ ∃ e, T.call c = .error e) ∨
      ¬ T.Refuses c ∧ ∃ T', T.call c = .ok T' ∧ T.Added T' c := by
  by_cases h : T.Refuses c
  · refine .inl ⟨h, ?_⟩
    match c, h with
    | .declare name t, h =>
      cases hn : T.get? name with
      | some u => exact ⟨_, declare_of_declared hn⟩
      | none =>
        obtain ⟨u, hu⟩ | ⟨oid, holder, ho, hh⟩ := h
        · rw [hn] at hu
          cases hu
        · exact ⟨_, declare_of_taken hn ho hh⟩
    | .bindAlias name n, ⟨m, hm, hne⟩ => exact ⟨_, bindAlias_of_taken hm hne⟩
  · refine .inr ⟨h, ?_⟩
    match c, h with
    | .declare name t, h =>
      rw [Refuses, not_or] at h
      refine declare_of_free (Option.eq_none_iff_forall_ne_some.2 fun u hu => h.1 ⟨u, hu⟩) ?_
      exact fun oid ho => Option.eq_none_iff_forall_ne_some.2 fun x hx => h.2 ⟨oid, x, ho, hx⟩
    | .bindAlias name n, h =>
      exact bindAlias_of_free fun m hm => Decidable.byContradiction fun hne => h ⟨m, hm, hne⟩

theorem after_of_refuses (h : T.Refuses c) : T.after c = T := by
  obtain ⟨-, e, he⟩ | ⟨h', -⟩ := T.call_cases c
  · rw [after, he]
  · exact absurd h h'

theorem added_after (h : ¬ T.Refuses c) : T.Added (T.after c) c := by
  obtain ⟨h', -⟩ | ⟨-, T', hT, hadded⟩ := T.call_cases c
  · exact absurd h' h
  · rwa [after, hT]

/-- What is declared or bound stays so: its name is refused to any other. -/
theorem get?_after (hx : T.get? x = some t) (c : Call) : (T.after c).get? x = some t := by
  by_cases h : T.Refuses c
  · rw [after_of_refuses h, hx]
  · cases c with
    | declare name u =>
      obtain ⟨hget, -⟩ := added_after h
      have hne : x ≠ name := fun heq => h (.inl ⟨t, heq ▸ hx⟩)
      rw [hget, if_neg hne, hx]
    | bindAlias name n =>
      obtain ⟨hget, -⟩ := added_after h
      rw [hget, hx]

theorem alias?_after (ha : T.alias? x = some n) (c : Call) : (T.after c).alias? x = some n := by
  by_cases h : T.Refuses c
  · rw [after_of_refuses h, ha]
  · cases c with
    | declare name t =>
      obtain ⟨-, -, halias⟩ := added_after h
      rw [halias, ha]
    | bindAlias name m =>
      obtain ⟨-, -, halias⟩ := added_after h
      rw [halias]
      split
      · rename_i hname
        have hnm : ¬ n ≠ m := fun hne => h ⟨n, hname ▸ ha, hne⟩
        rw [Decidable.not_not.1 hnm]
      · exact ha

/-! ## Calls on a table -/

theorem get?_afterAll (later : List Call) (hx : T.get? x = some t) :
    (T.afterAll later).get? x = some t := by
  induction later generalizing T with
  | nil => exact hx
  | cons c later ih => exact ih (get?_after hx c)

theorem alias?_afterAll (later : List Call) (ha : T.alias? x = some n) :
    (T.afterAll later).alias? x = some n := by
  induction later generalizing T with
  | nil => exact ha
  | cons c later ih => exact ih (alias?_after ha c)

end TypeTable

/-! ## In place -/

namespace Registry

open TypeTable

variable {T T' : TypeTable} {r : Registry} {name oid holder : String} {t u : VarType} {m n : Number}

/-- The registry gives the look-ups of the table. -/
structure Mirrors (r : Registry) (T : TypeTable) : Prop where
  get? : ∀ x, r.vars.get? x = T.get? x
  alias? : ∀ a, r.aliases.get? a = T.alias? a
  nameForOid? : ∀ oid, r.holders.get? oid = T.nameForOid? oid

theorem declare_of_declared (h : r.vars.get? name = some u) :
    declare name t r = (.error (.declaredTwice name), r) := by
  simp [declare, bind_apply, NameMap.contains, h]

theorem declare_of_taken (hn : r.vars.get? name = none) (ho : t.oid = some oid)
    (hh : r.holders.get? oid = some holder) :
    declare name t r = (.error (.oidTaken oid holder), r) := by
  simp [declare, reserve, bind_apply, NameMap.contains, hn, ho, hh]

/-- The index is written first, when the name has been found free. -/
theorem declare_of_free (hn : r.vars.get? name = none)
    (hfree : ∀ oid, t.oid = some oid → r.holders.get? oid = none) :
    declare name t r = (.ok (), { r with
      vars := r.vars.insert name t
      holders := t.oid.elim r.holders fun oid => r.holders.insert oid name }) := by
  cases ho : t.oid with
  | none => simp [declare, bind_apply, NameMap.contains, hn, ho]
  | some oid => simp [declare, reserve, bind_apply, NameMap.contains, hn, ho, hfree oid ho]

theorem bindAlias_of_taken (h : r.aliases.get? name = some m) (hne : m ≠ n) :
    bindAlias name n r = (.error (.aliasTaken name m), r) := by
  simp [bindAlias, bind_apply, h, hne]

theorem bindAlias_of_free (h : ∀ m, r.aliases.get? name = some m → m = n) :
    bindAlias name n r = (.ok (), { r with aliases := r.aliases.insert name n }) := by
  cases ha : r.aliases.get? name with
  | none => simp [bindAlias, bind_apply, ha]
  | some m => simp [bindAlias, bind_apply, ha, h m ha]

namespace Mirrors

theorem declare (h : r.Mirrors T) (ha : T.Added T' (.declare name t)) :
    Mirrors { r with
      vars := r.vars.insert name t
      holders := t.oid.elim r.holders fun oid => r.holders.insert oid name } T' := by
  obtain ⟨hget, hoid, halias⟩ := ha
  refine ⟨fun x => ?_, fun a => (h.alias? a).trans (halias a).symm, fun oid => ?_⟩
  · rw [NameMap.get?_insert, h.get?, hget]
  · rw [hoid, ← h.nameForOid?]
    cases t.oid with
    | none => simp
    | some o => simp [NameMap.get?_insert, eq_comm]

theorem bindAlias (h : r.Mirrors T) (ha : T.Added T' (.bindAlias name n)) :
    Mirrors { r with aliases := r.aliases.insert name n } T' := by
  obtain ⟨hget, hoid, halias⟩ := ha
  refine ⟨fun x => (h.get? x).trans (hget x).symm, fun a => ?_,
    fun oid => (h.nameForOid? oid).trans (hoid oid).symm⟩
  rw [NameMap.get?_insert, h.alias?, halias]

/-- The call is answered as on the table, and one that fails has written nothing. -/
theorem call (h : r.Mirrors T) (c : Call) :
    (∃ e, T.call c = .error e ∧ Registry.call c r = (.error e, r)) ∨
      ∃ T', T.call c = .ok T' ∧ (Registry.call c r).1 = .ok () ∧ (r.after c).Mirrors T' := by
  cases c with
  | declare name t =>
    cases hn : T.get? name with
    | some u =>
      exact .inl ⟨_, TypeTable.declare_of_declared hn, declare_of_declared (hn ▸ h.get? name)⟩
    | none =>
      by_cases htaken : ∃ oid holder, t.oid = some oid ∧ T.nameForOid? oid = some holder
      · obtain ⟨oid, holder, ho, hh⟩ := htaken
        exact .inl ⟨_, TypeTable.declare_of_taken hn ho hh,
          declare_of_taken (hn ▸ h.get? name) ho (hh ▸ h.nameForOid? oid)⟩
      · have hfree : ∀ oid, t.oid = some oid → T.nameForOid? oid = none := fun oid ho =>
          Option.eq_none_iff_forall_ne_some.2 fun x hx => htaken ⟨oid, x, ho, hx⟩
        obtain ⟨T', hT, hadded⟩ := TypeTable.declare_of_free hn hfree
        have hr := declare_of_free (hn ▸ h.get? name) fun oid ho =>
          (h.nameForOid? oid).trans (hfree oid ho)
        refine .inr ⟨T', hT, ?_, ?_⟩
        · rw [Registry.call, hr]
        · rw [after, Registry.call, hr]
          exact h.declare hadded
  | bindAlias name n =>
    by_cases htaken : ∃ m, T.alias? name = some m ∧ m ≠ n
    · obtain ⟨m, hm, hne⟩ := htaken
      exact .inl ⟨_, TypeTable.bindAlias_of_taken hm hne,
        bindAlias_of_taken (hm ▸ h.alias? name) hne⟩
    · have hfree : ∀ m, T.alias? name = some m → m = n := fun m hm =>
        Decidable.byContradiction fun hne => htaken ⟨m, hm, hne⟩
      obtain ⟨T', hT, hadded⟩ := TypeTable.bindAlias_of_free hfree
      have hr := bindAlias_of_free fun m hm => hfree m ((h.alias? name).symm.trans hm)
      refine .inr ⟨T', hT, ?_, ?_⟩
      · rw [Registry.call, hr]
      · rw [after, Registry.call, hr]
        exact h.bindAlias hadded

theorem empty : Registry.empty.Mirrors TypeTable.empty := ⟨fun _ => rfl, fun _ => rfl, fun _ => rfl⟩

theorem after_of_refuses (h : r.Mirrors T) {c : Call} (hc : T.Refuses c) : r.after c = r := by
  obtain ⟨e, -, hr⟩ | ⟨T', hT, -⟩ := h.call c
  · rw [Registry.after, hr]
  · obtain ⟨-, e, he⟩ | ⟨hfree, -⟩ := T.call_cases c
    · rw [hT] at he
      cases he
    · exact absurd hc hfree

theorem after (h : r.Mirrors T) (c : Call) : (r.after c).Mirrors (T.after c) := by
  obtain ⟨e, hT, hr⟩ | ⟨T', hT, -, hr⟩ := h.call c
  · rw [TypeTable.after, hT, Registry.after, hr]
    exact h
  · rwa [TypeTable.after, hT]

theorem afterAll (calls : List Call) (h : r.Mirrors T) :
    (r.afterAll calls).Mirrors (T.afterAll calls) := by
  induction calls generalizing T r with
  | nil => exact h
  | cons c calls ih => exact ih (h.after c)

end Mirrors

end Registry

namespace TypeTable

/-- The types of a table and its index agree, also in the registry that is filled in place. A call
is refused exactly for what is taken and then changes nothing; any other adds its entry, and what is
entered stays. -/
structure Consistent (T : TypeTable) (r : Registry) : Prop where
  mirrors : r.Mirrors T
  nameForOid?_iff : ∀ oid name, T.nameForOid? oid = some name ↔
    ∃ t, T.get? name = some t ∧ t.oid = some oid
  oid_unique : ∀ oid name other t u, T.get? name = some t → T.get? other = some u →
    t.oid = some oid → u.oid = some oid → name = other
  refused_iff : ∀ c, (∃ e, T.call c = .error e) ↔ T.Refuses c
  answers : ∀ c, (Registry.call c r).1 = (T.call c).map fun _ => ()
  unchanged : ∀ c, T.Refuses c → T.after c = T ∧ r.after c = r
  added : ∀ c, ¬ T.Refuses c → T.Added (T.after c) c ∧ (r.after c).Mirrors (T.after c)
  get?_stays : ∀ later name t, T.get? name = some t → (T.afterAll later).get? name = some t
  alias?_stays : ∀ later a n, T.alias? a = some n → (T.afterAll later).alias? a = some n

/-- Whatever calls have been made of a new table, and whether they failed or not, it is
consistent. -/
theorem consistent_of_calls (calls : List Call) :
    Consistent (empty.afterAll calls) (Registry.empty.afterAll calls) := by
  have hm := Registry.Mirrors.afterAll calls .empty
  generalize empty.afterAll calls = T at hm ⊢
  generalize Registry.empty.afterAll calls = r at hm ⊢
  exact {
    mirrors := hm
    nameForOid?_iff := fun _ _ => nameForOid?_eq_some_iff
    oid_unique := fun oid name other t u => T.oids_unique name other t u oid
    refused_iff := fun c => by
      obtain ⟨h, he⟩ | ⟨h, T', hT, -⟩ := T.call_cases c
      · exact iff_of_true he h
      · exact iff_of_false (fun ⟨e, he⟩ => by rw [hT] at he; cases he) h
    answers := fun c => by
      obtain ⟨e, hT, hr⟩ | ⟨T', hT, hr, -⟩ := hm.call c
      · rw [hT, hr]
        rfl
      · rw [hT, hr]
        rfl
    unchanged := fun c h => ⟨after_of_refuses h, hm.after_of_refuses h⟩
    added := fun c h => ⟨added_after h, hm.after c⟩
    get?_stays := fun later _ _ => get?_afterAll later
    alias?_stays := fun later _ _ => alias?_afterAll later }

/-- A variable refused for its identifier leaves its name free. -/
example :
    let t : VarType := ⟨.integer, some ".1.3", none, .readonly⟩
    let calls : List Call := [.declare "x" t, .declare "y" t, .declare "x" (.ofKind .string)]
    let r := Registry.empty.afterAll calls
    r.vars.get? "x" = some t ∧ r.vars.get? "y" = none ∧ r.holders.get? ".1.3" = some "x" := by
  decide +kernel

end TypeTable

end ScriptedAgent
