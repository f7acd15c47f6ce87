import ScriptedAgent.Proofs.Run.Kept
import ScriptedAgent.Proofs.Script.Mentions
import ScriptedAgent.Proofs.Store.Reachable

/-!
# What a run leaves alone

A run changes a variable only if its script assigns it, whole or by a field, or if it takes values
for it from managers. A composite variable is assigned by its fields alone, and then the octets
outside of those stay what they were (`framed_of_run`). It does not matter how the run ends.
-/

namespace ScriptedAgent

variable {T : TypeTable} {s s' : Store} {x name : String}

theorem Store.read?_of_write {v : Value} (h : s.write name v = .ok s') (hx : x ≠ name) :
    s'.read? x = s.read? x := by
  obtain ⟨-, -, -, rfl⟩ := Store.of_write h
  rw [Store.read?_put, if_neg hx]

namespace Script

/-- What holds of the value of `x` stays true if the mentions take no value for `x`, do not assign
it whole, and keep it true where they assign a field of `x`. -/
theorem keptAt_read {ms : List Mention} {P : Option Value → Prop}
    (hread : x ∈ sources ms → Eval.isBlocking T x = false) (hvar : .var x ∉ targets ms)
    (hfield : ∀ field f n b b', .field x field ∈ targets ms → T.field? x field = some f →
      f.write b n = .ok b' → P (some (.block b)) → P (some (.block b'))) :
    KeptAt T ms (fun m => P (m.store.read? x)) fun _ m => P (m.store.read? x) ∧ True where
  takes {name} hname := by
    refine .of_state fun m hm => ?_
    rw [Eval.takeHandover_apply]
    split
    · rename_i hb
      have hne : x ≠ name := by
        rintro rfl
        rw [hread hname] at hb
        cases hb
      split
      · exact hm
      · split
        · rename_i hw
          exact (Store.read?_of_write hw hne).symm ▸ hm
        · exact hm
    · exact hm
  assignsVar {name k} hname _ v := by
    refine .of_state fun m hm => ?_
    rw [Eval.assignVar_apply]
    split
    · exact hm
    · split
      · rename_i hw
        have hne : x ≠ name := by
          rintro rfl
          exact hvar hname
        exact (Store.read?_of_write hw hne).symm ▸ hm
      · exact hm
  assignsField {name field f} hname hf n := by
    refine .of_state fun m hm => ?_
    rw [Eval.assignField_apply]
    split
    · exact hm
    · split
      · rename_i hw
        obtain ⟨b, b', hb, hwrite, rfl⟩ := Store.of_writeField hw
        rw [Store.read?_put]
        split
        · rename_i hx
          subst hx
          exact hfield field f _ b b' hname hf hwrite (hb ▸ hm)
        · exact hm
      · exact hm
      · exact hm
  prints _ _ hm := hm
  fails _ _ hm := ⟨hm, trivial⟩

/-- What stays true of the value of `x` over a block stays true over a run. -/
theorem Program.run_read {p : Program} {fuel : Nat} {m m' : Machine} {r : Except RuntimeError Unit}
    {P : Option Value → Prop}
    (hread : x ∈ blockReads p.body → Eval.isBlocking p.types x = false)
    (hvar : .var x ∉ blockTargets p.body)
    (hfield : ∀ field f n b b', .field x field ∈ blockTargets p.body →
      p.types.field? x field = some f → f.write b n = .ok b' →
      P (some (.block b)) → P (some (.block b')))
    (hm : P (m.store.read? x)) (hrun : p.run fuel m = some (r, m')) : P (m'.store.read? x) := by
  obtain ⟨⟨flow, m₁⟩, ho, hr⟩ := Option.map_eq_some_iff.1 hrun
  cases hr
  have hleads : Leads _ _ (execBlock p.types fuel p.body) :=
    execBlock_keepsAt p.body (keptAt_read hread hvar hfield)
  exact (Safe.iff_leads.2 hleads m _ hm ho).1

/-- What `p` leaves alone in the store that it finds. -/
structure Program.Framed (p : Program) (s s' : Store) : Prop where
  /-- A variable that is not assigned and for which no value is taken. -/
  value : ∀ x, (x ∈ blockReads p.body → Eval.isBlocking p.types x = false) →
    (∀ t ∈ blockTargets p.body, t.name ≠ x) → s'.read? x = s.read? x
  /-- The octets of a block that are in no assigned field. -/
  octets : ∀ x, p.types.kindOf? x = some .bytes →
    (x ∈ blockReads p.body → Eval.isBlocking p.types x = false) →
    ∃ b b', s.read? x = some (.block b) ∧ s'.read? x = some (.block b') ∧ b'.length = b.length ∧
      ∀ i, (∀ field f, .field x field ∈ blockTargets p.body → p.types.field? x field = some f →
        ¬ (f.offset ≤ i ∧ i < f.stop)) → b'[i]? = b[i]?

/-- A block is never assigned whole. -/
theorem Program.WellKinded.notMem_targets {p : Program} (h : p.WellKinded)
    (hx : p.types.kindOf? x = some .bytes) : .var x ∉ blockTargets p.body := by
  intro ht
  obtain ⟨c, hc, hct⟩ := List.mem_filterMap.1 ht
  cases c with
  | assign t e =>
    cases hct
    obtain ⟨k, hk, hg⟩ := HasGrammar.exists_kind ((blockWellKinded_iff p.body).1 h.body _ hc)
    exact Expr.ne_bytes hg (Option.some.inj (hk.symm.trans hx))
  | _ => cases hct

theorem Program.WellKinded.exists_block {p : Program} (h : p.WellKinded) (hs : s.Sound)
    (ht : s.types = p.types) (hx : p.types.kindOf? x = some .bytes) :
    ∃ b, s.read? x = some (.block b) := by
  obtain ⟨t, hxt, hk⟩ := Option.map_eq_some_iff.1 hx
  obtain ⟨l, hl⟩ := Option.isSome_iff_exists.1 ((h.layouts x t hxt).1 hk)
  obtain ⟨v, hv, ha⟩ := hs.exists_read? (ht ▸ hxt)
  obtain ⟨b, rfl, -⟩ := VarType.exists_block hk hl ha
  exact ⟨b, hv⟩

theorem framed_of_run {text base : String} {p : Program} {fuel : Nat} {m m' : Machine}
    {r : Except RuntimeError Unit} (hp : Program.parse text base = .ok p)
    (hs : Store.Reachable p.types m.store) (hrun : p.run fuel m = some (r, m')) :
    p.Framed m.store m'.store where
  value x hread htargets := by
    refine Program.run_read (P := (· = m.store.read? x)) hread (htargets _ · rfl) ?_ rfl hrun
    intro field f n b b' ht
    exact absurd rfl (htargets _ ht)
  octets x hx hread := by
    have hw := Program.parse_wellKinded hp
    obtain ⟨b, hv⟩ := hw.exists_block hs.sound hs.types_eq hx
    -- what every write of an assigned field keeps of the block
    have hkept := Program.run_read (P := fun v => ∃ b', v = some (.block b') ∧
        b'.length = b.length ∧ ∀ i, (∀ field f, .field x field ∈ blockTargets p.body →
          p.types.field? x field = some f → ¬ (f.offset ≤ i ∧ i < f.stop)) → b'[i]? = b[i]?)
      hread (hw.notMem_targets hx) ?_ ⟨b, hv, rfl, fun _ _ => rfl⟩ hrun
    · obtain ⟨b', hb', hlen, hout⟩ := hkept
      exact ⟨b, b', hv, hb', hlen, hout⟩
    · rintro field f n c c' htarget hf hwrite ⟨b', ⟨⟩, hlen, hout⟩
      refine ⟨c', rfl, (Field.length_of_write hwrite).trans hlen, fun i hi => ?_⟩
      rw [Field.getElem?_of_write hwrite (hi field f htarget hf), hout i hi]

/-- The loop sums up two values that are handed over in the first octet of `d`, whose other two hold
515 from before, and then the script fails. -/
theorem framed_of_failed : ∃ p m,
    Program.parse ("var\n n: integer\n d: bytes \x7b a: 0 1, b: 1 2 \x7d\n w: 1 integer blocking\n" ++
        "endvar\nrun\nloop times 2\nd:a = d:a + w\nendloop\nprint strInt(1 / n)\nendrun\n")
      Oid.mib2 = .ok p ∧
    let s := (Store.load p.types).after ((Store.load p.types).writeField "d" ⟨"b", 1, 2⟩ 515)
    p.run 1 (.start s (.ofItems p.types [.set ".1.3.6.1.2.1.1" (.integer 3),
        .set ".1.3.6.1.2.1.1" (.integer 4)])) = some (.error .divisionByZero, m) ∧
      s.read? "d" = some (.block [0, 3, 2]) ∧ m.store.read? "d" = some (.block [7, 3, 2]) ∧
      p.Framed s m.store := by
  obtain ⟨p, hp, h⟩ := Program.exists_parse
    ("var\n n: integer\n d: bytes \x7b a: 0 1, b: 1 2 \x7d\n w: 1 integer blocking\n" ++
      "endvar\nrun\nloop times 2\nd:a = d:a + w\nendloop\nprint strInt(1 / n)\nendrun\n") Oid.mib2
    (fun p =>
      let s := (Store.load p.types).after ((Store.load p.types).writeField "d" ⟨"b", 1, 2⟩ 515)
      s.read? "d" = some (.block [0, 3, 2]) ∧
      (p.run 1 (.start s (.ofItems p.types [.set ".1.3.6.1.2.1.1" (.integer 3),
          .set ".1.3.6.1.2.1.1" (.integer 4)]))).any
        fun (r, m) => r = .error .divisionByZero ∧ m.store.read? "d" = some (.block [7, 3, 2]))
    (by decide +kernel)
  obtain ⟨hbefore, hrun⟩ := of_decide_eq_true h
  obtain ⟨⟨r, m⟩, hrun, hm⟩ := (Option.any_eq_true _ _).1 hrun
  obtain ⟨rfl, hafter⟩ := of_decide_eq_true hm
  have hs := Store.Reachable.next .loaded
    (.writeField (s := Store.load p.types) "d" ⟨"b", 1, 2⟩ 515)
  exact ⟨p, m, hp, hrun, hbefore, hafter, framed_of_run hp hs hrun⟩

end Script

end ScriptedAgent
