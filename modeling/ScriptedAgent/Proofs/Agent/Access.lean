import ScriptedAgent.Proofs.Agent.Refusal
import ScriptedAgent.Proofs.TypeTable
import ScriptedAgent.Proofs.Wire.Message

/-!
# What traffic can change

The one way from a datagram to a variable is a Set with the community for writing, and it leads to
the exported `readwrite` variables only (`process_store`, `not_guarded_of_takes`). So whatever datagrams
come, the other variables keep their values, and without such a Set all of them do. A running script
changes this for the blocking variables only, each of which then holds the last value that the
script took for it (`Store.Served.access`).
-/

namespace ScriptedAgent

/-- The variables that no manager may set by itself: a `blocking` one takes its values from the
running script. -/
def VarType.Guarded (t : VarType) : Prop :=
  t.access = .readonly ∨ t.kind = .counter ∨ t.access = .blocking ∨ t.oid = none

/-- A request to change the store, by a manager that may. -/
def Agent.Writes (a : Agent) (m : Message) : Prop :=
  m.kind = .set ∧ m.community = a.writeCommunity

namespace Store

variable {s : Store} {name oid : String} {t : VarType} {v : Value} {sets : List (String × Value)}

theorem not_guarded_of_takes (h : s.takes (oid, v) = true)
    (hn : s.types.nameForOid? oid = some name) (ht : s.types.get? name = some t) : ¬ t.Guarded := by
  obtain ⟨n, u, hn', hu, -, hk, ha⟩ := takes_iff.1 h
  rw [hn, Option.some.injEq] at hn'
  rw [← hn', ht, Option.some.injEq] at hu
  subst hu
  obtain ⟨w, hw, ho⟩ := TypeTable.nameForOid?_eq_some_iff.1 hn
  rw [ht, Option.some.injEq] at hw
  subst hw
  rintro (hr | hc | hb | hx)
  · rw [ha] at hr
    cases hr
  · exact hk hc
  · rw [ha] at hb
    cases hb
  · rw [ho] at hx
    cases hx

theorem lastSet?_eq_none (hs : ∀ set ∈ sets, s.types.nameForOid? set.1 ≠ some name) :
    lastSet? s.types name sets = none := by
  induction sets with
  | nil => rfl
  | cons set sets ih =>
    obtain ⟨h, hs⟩ := List.forall_mem_cons.1 hs
    rw [lastSet?, ih hs, if_neg h, Option.none_or]

/-- Sets pass a guarded variable by. -/
theorem read?_setAll_of_guarded (sets : List (String × Value)) (i : Nat)
    (ht : s.types.get? name = some t) (hg : t.Guarded) :
    (s.setAll i sets).store.read? name = s.read? name := by
  rw [read?_setAll, lastSet?_eq_none, Option.none_or]
  intro set hset hn
  exact not_guarded_of_takes (List.all_eq_true.1 List.all_takeWhile _ hset) hn ht hg

/-! ## Sets that a script takes part in -/

/-- Sets, of which the first has the number `i`, leave the store `s'` when a script takes the values
in `taken` as they wait and then goes away. -/
inductive Served : Store → Nat → List (String × Value) → List (String × Value) → Store → Prop
  /-- Nobody takes the value that waits, if there is one. -/
  | ended (s : Store) (i : Nat) (sets : List (String × Value)) :
      Served s i sets [] (s.setAll i sets).store
  | taken {s s₁ s' : Store} {i : Nat} {sets taken : List (String × Value)} {offer : Offer}
      (hwaits : s.setAll i sets = .waiting s₁ offer)
      (hrest : Served (s₁.put offer.name offer.value) (offer.index + 1) offer.rest taken s') :
      Served s i sets ((offer.name, offer.value) :: taken) s'

/-- A set that waits has passed the guarded variables by. -/
theorem waiting_keeps {s₁ : Store} {i : Nat} {offer : Offer}
    (h : s.setAll i sets = .waiting s₁ offer) : s₁.types = s.types ∧ ∀ {name t},
      s.types.get? name = some t → t.Guarded → s₁.read? name = s.read? name := by
  have htypes := (setAll_keeps sets s i).1
  have hread : ∀ {name t}, s.types.get? name = some t → t.Guarded →
      (s.setAll i sets).store.read? name = s.read? name := read?_setAll_of_guarded sets i
  rw [h] at htypes hread
  exact ⟨htypes, hread⟩

namespace Served

variable {s' : Store} {i : Nat} {taken : List (String × Value)}

/-- Every value that is taken is for a blocking variable. -/
theorem blocking (h : Served s i sets taken s') : ∀ o ∈ taken,
    ∃ t, s.types.get? o.1 = some t ∧ t.access = .blocking ∧ t.Admits o.2 := by
  induction h with
  | ended => exact nofun
  | @taken s s₁ _ i sets _ _ hwaits _ ih =>
    have htypes : s₁.types = s.types := (waiting_keeps hwaits).1
    exact List.forall_mem_cons.2 ⟨blocking_of_setAll sets s i hwaits, htypes ▸ ih⟩

/-- A guarded variable has the value that was last taken for it, or the one that it had. -/
theorem read?_of_guarded (h : Served s i sets taken s') (ht : s.types.get? name = some t)
    (hg : t.Guarded) : s'.read? name = (taken.reverse.lookup name).or (s.read? name) := by
  induction h with
  | ended s i sets => exact read?_setAll_of_guarded sets i ht hg
  | @taken s s₁ _ i sets _ offer hwaits _ ih =>
    obtain ⟨htypes, hread⟩ := waiting_keeps hwaits
    have ht₁ : s₁.types.get? name = some t := htypes ▸ ht
    rw [ih ht₁, read?_put, hread ht hg, List.reverse_cons, List.lookup_append, Option.or_assoc]
    rcases eq_or_ne name offer.name with hname | hname
    · simp [hname]
    · simp [List.lookup_cons, hname, beq_false_of_ne hname]

/-- Whatever is set while a script takes what waits, a blocking variable has what was last taken for
it, and the others that no manager may set keep their values. -/
theorem access (h : Served s i sets taken s') :
    (∀ name t, s.types.get? name = some t → t.Guarded → t.access ≠ .blocking →
      s'.read? name = s.read? name) ∧
    (∀ name t, s.types.get? name = some t → t.access = .blocking →
      s'.read? name = (taken.reverse.lookup name).or (s.read? name)) ∧
    ∀ o ∈ taken, ∃ t, s.types.get? o.1 = some t ∧ t.access = .blocking ∧ t.Admits o.2 := by
  refine ⟨fun name t ht hg ha => ?_, fun name t ht ha => ?_, h.blocking⟩
  · have hnone : taken.reverse.lookup name = none := by
      rw [List.lookup_eq_none_iff]
      intro o ho
      obtain ⟨u, hu, hb, -⟩ := h.blocking o (List.mem_reverse.1 ho)
      rw [bne_iff_ne]
      rintro rfl
      obtain rfl := Option.some.inj (ht.symm.trans hu)
      exact ha hb
    rw [h.read?_of_guarded ht hg, hnone, Option.none_or]
  · exact h.read?_of_guarded ht (.inr (.inr (.inl ha)))

end Served

end Store

namespace Agent

variable {a : Agent} {s : Store}

/-- A message leaves the store as it is, or is a Set by a manager that may write. -/
theorem handle_store (a : Agent) (s : Store) (m : Message) :
    (a.handle s m).2 = s ∨ a.Writes m ∧ ∃ sets, (a.handle s m).2 = (s.setAll 0 sets).store := by
  unfold handle
  split
  · rename_i ha
    split
    · exact .inl rfl
    · exact .inl rfl
    · rename_i hk
      split
      · exact .inl rfl
      · rename_i sets _
        simp only [admits, hk, decide_eq_true_eq] at ha
        exact .inr ⟨⟨hk, ha⟩, sets, Store.Progress.closed_fst _⟩
    · exact .inl rfl
  · exact .inl rfl

theorem process_store (a : Agent) (s : Store) (d : List UInt8) :
    (a.process s d).2 = s ∨ (∃ m, Message.decode d = .ok m ∧ a.Writes m) ∧
      ∃ sets, (a.process s d).2 = (s.setAll 0 sets).store := by
  unfold process
  split
  · exact .inl rfl
  · rename_i m hm
    rcases a.handle_store s m with h | ⟨hw, hs⟩
    · exact .inl h
    · exact .inr ⟨⟨m, hm, hw⟩, hs⟩

theorem process_guarded {name : String} {t : VarType} (d : List UInt8)
    (ht : s.types.get? name = some t) (hg : t.Guarded) :
    (a.process s d).2.read? name = s.read? name := by
  rcases a.process_store s d with h | ⟨-, sets, h⟩
  · rw [h]
  · rw [h, Store.read?_setAll_of_guarded sets 0 ht hg]

theorem serve_guarded {name : String} {t : VarType} (hg : t.Guarded) :
    ∀ (ds : List (List UInt8)) (s : Store), s.types.get? name = some t →
      (a.serve s ds).2.read? name = s.read? name
  | [], _, _ => rfl
  | d :: ds, s, ht => by
    have ht' : (a.process s d).2.types.get? name = some t := (a.process_keeps s d).1 ▸ ht
    rw [serve, serve_guarded hg ds _ ht', process_guarded d ht hg]

theorem serve_eq : ∀ (ds : List (List UInt8)) (s : Store),
    (∀ d ∈ ds, ∀ m, Message.decode d = .ok m → ¬ a.Writes m) → (a.serve s ds).2 = s
  | [], _, _ => rfl
  | d :: ds, s, h => by
    obtain ⟨hd, hds⟩ := List.forall_mem_cons.1 h
    rcases a.process_store s d with hs | ⟨⟨m, hm, hw⟩, -⟩
    · rw [serve, serve_eq ds _ hds, hs]
    · exact absurd hw (hd m hm)

/-- Whatever datagrams come, the variables that no manager may set keep their values; and all of
them do if none of the datagrams is a Set with the community for writing. -/
theorem serve_access (a : Agent) (s : Store) (ds : List (List UInt8)) :
    (∀ name t, s.types.get? name = some t → t.Guarded →
      (a.serve s ds).2.read? name = s.read? name) ∧
    ((∀ d ∈ ds, ∀ m, Message.decode d = .ok m → ¬ a.Writes m) → (a.serve s ds).2 = s) :=
  ⟨fun _ _ ht hg => serve_guarded hg ds s ht, serve_eq ds s⟩

/-- A Set is half taken: of the same Set under the community for reading nothing is. -/
theorem serve_access_halfRefused : ∃ T : TypeTable,
    let a := ofCommunities "public" "private"
    let s := (a.serve (.load T) [halfRefused.encode]).2
    let s' := (a.serve (.load T) [{ halfRefused with community := Text.utf8 "public" }.encode]).2
    s.read? "x" = some (.integer 5) ∧ s.read? "y" = (Store.load T).read? "y" ∧ s' = .load T := by
  obtain ⟨p, -, h⟩ := Script.Program.exists_parse
    "var\n x: 1 integer readwrite\n y: 2 integer\nendvar\nrun\nendrun\n" Oid.mib2
    (fun p => ((ofCommunities "public" "private").serve (.load p.types)
        [halfRefused.encode]).2.read? "x" = some (.integer 5) ∧
      (p.types.get? "y").map (·.access) = some .readonly)
    (by decide +kernel)
  obtain ⟨hx, hy⟩ := of_decide_eq_true h
  obtain ⟨t, ht, hr⟩ := Option.map_eq_some_iff.1 hy
  refine ⟨p.types, hx, ?_, ?_⟩
  · exact (serve_access _ _ _).1 "y" t ht (.inl hr)
  · refine (serve_access _ _ _).2 (List.forall_mem_singleton.2 fun m hm hw => ?_)
    have hd : Message.decode { halfRefused with community := Text.utf8 "public" }.encode =
        .ok { halfRefused with community := Text.utf8 "public" } := by decide +kernel
    rw [hd] at hm
    cases hm
    exact absurd hw.2 (by decide)

end Agent

end ScriptedAgent
