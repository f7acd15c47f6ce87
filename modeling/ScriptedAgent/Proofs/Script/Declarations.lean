import ScriptedAgent.Proofs.Layout.Valid
import ScriptedAgent.Proofs.Script.Phrase
import ScriptedAgent.Proofs.Script.Repeats
import ScriptedAgent.Proofs.Script.WellKinded

/-!
# Declarations are read again

The declarations of a script are read from their own tokens and the `run` behind them, and more
calls do not change them (`declarations_repeats`). The names they declare are identifiers from the
text, so they can be written.
-/

namespace ScriptedAgent

namespace Layout

theorem mem_of_ofFields? {fs : List Field} {l : Layout} (h : ofFields? fs = .ok l) {f : Field}
    (hf : f ∈ l.fields) : f ∈ fs :=
  (sorted_perm fs).mem_iff.1 (ofFields?_eq_ok_iff.1 h ▸ hf)

end Layout

namespace Script

open Parse

/-- The fields of a layout have names that can be written. -/
def WrittenFields (fields : List Field) : Prop := ∀ f ∈ fields, (Token.ident f.name).Writable

theorem aliases_repeats : ∀ {n m : Nat} (T : TypeTable), n ≤ m →
    Repeats (aliases n T) (aliases m T) fun _ => True
  | 0, _, _, _ => .throw _
  | n + 1, m + 1, T, h => by
    refine .step (.after (.accept _) fun closed => ?_)
    cases closed with
    | true => exact .pure trivial
    | false =>
      refine .after (.accept _) fun negative => .bind .next fun t _ => ?_
      split
      · refine .after (.expect _ _) fun _ => .bind .next fun t _ => ?_
        split
        · split
          · exact .error _
          · exact .after (.accept _) fun _ => aliases_repeats _ (by omega)
        · exact .error _
      · exact .error _

theorem aliasList_repeats {n m : Nat} (k : Kind) (T : TypeTable) (h : n ≤ m) :
    Repeats (aliasList n k T) (aliasList m k T) fun _ => True := by
  unfold aliasList
  split
  · refine .after (.accept _) fun opened => ?_
    cases opened with
    | true => exact aliases_repeats T h
    | false => exact .pure trivial
  · exact .pure trivial

theorem fieldList_repeats : ∀ {n m : Nat}, n ≤ m →
    Repeats (fieldList n) (fieldList m) WrittenFields
  | 0, _, _ => .throw _
  | n + 1, m + 1, h => by
    refine .step (.bind .peek fun t _ => ?_)
    split
    · exact .pure nofun
    · refine .bind (.expectIdent _) fun name hname => ?_
      refine .after (.expect _ _) fun _ => ?_
      refine .after (.expectSize _) fun offset => .after (.expectSize _) fun size => ?_
      refine .after (.accept _) fun more => ?_
      cases more with
      | true =>
        refine .bind (fieldList_repeats (by omega)) fun fs hfs => .pure ?_
        exact List.forall_mem_cons.2 ⟨hname, hfs⟩
      | false => exact .pure (List.forall_mem_singleton.2 hname)

theorem layout_repeats {n m : Nat} (h : n ≤ m) :
    Repeats (layout n) (layout m) fun l => WrittenFields l.fields := by
  refine .step (.after (.expect _ _) fun _ => .bind (fieldList_repeats h) fun fields hfields => ?_)
  refine .after (.expect _ _) fun _ => ?_
  split
  · rename_i l hl
    exact .pure fun f hf => hfields f (Layout.mem_of_ofFields? hl hf)
  · exact .error _

theorem access_repeats : Repeats access access fun _ => True := by
  refine .bind .peek fun t _ => ?_
  split
  · exact .bind .next fun _ _ => .pure trivial
  · exact .pure trivial

/-- A layout that can be written, if there is one. -/
def WrittenLayout (layout : Option Layout) : Prop := ∀ l, layout = some l → WrittenFields l.fields

theorem typeOfKind_repeats {n m : Nat} (oid : Option String) (T : TypeTable) (t : Token)
    (h : n ≤ m) : Repeats (typeOfKind n oid T t) (typeOfKind m oid T t) fun r =>
      WrittenLayout r.1.layout := by
  have hsome : Repeats (some <$> layout n) (some <$> layout m) WrittenLayout :=
    .bind (layout_repeats h) fun l hl => .pure fun l' h' => Option.some.inj h' ▸ hl
  have hnone : Repeats (pure none) (pure none) WrittenLayout := .pure nofun
  unfold typeOfKind
  split
  · rename_i k
    refine .after (aliasList_repeats k T h) fun T' => ?_
    split
    · exact .bind hsome fun l hl => .after access_repeats fun a => .pure hl
    · exact .bind hnone fun l hl => .after access_repeats fun a => .pure hl
  · exact .error _

theorem varType_repeats {n m : Nat} (base : String) (T : TypeTable) (h : n ≤ m) :
    Repeats (varType base n T) (varType base m T) fun r =>
      WrittenLayout r.1.layout := by
  refine .step (.bind .next fun t _ => ?_)
  split
  · exact typeOfKind_repeats none T t h
  · rename_i oid _
    exact .bind .next fun t _ => typeOfKind_repeats (some oid) T t h

theorem written_declare {T T₁ T₂ : TypeTable} {name : String} {t : VarType} (hT : T.Written)
    (hname : (Token.ident name).Writable) (ht : WrittenLayout t.layout) (h₁ : T₁.vars = T.vars)
    (h₂ : T₁.declare name t = .ok T₂) : T₂.Written := fun x u hu => by
  rw [TypeTable.get?, of_declare h₂, NameMap.get?_insert] at hu
  split at hu
  · rename_i hx
    cases hu
    exact ⟨hx ▸ hname, ht⟩
  · exact hT x u (by rw [TypeTable.get?, ← h₁]; exact hu)

theorem varLines_repeats (base : String) : ∀ {n m : Nat} (T : TypeTable), n ≤ m → T.Written →
    Repeats (varLines base n T) (varLines base m T) TypeTable.Written
  | 0, _, _, _, _ => .throw _
  | n + 1, m + 1, T, h, hT => by
    refine .step (.bind .next fun t ht => ?_)
    split
    · exact .after (.expect _ _) fun _ => .pure hT
    · rename_i name
      refine .after (.expect _ _) fun _ => ?_
      have htype := (varType_repeats base T (Nat.le_of_succ_le_succ h)).and_yields
        (varType_layout base n T)
      refine .bind htype fun ⟨t, T₁⟩ ⟨hfields, _, h₁⟩ => ?_
      dsimp only
      split
      · exact .error _
      · rename_i T₂ h₂
        have hT₂ := written_declare hT (ht nofun) hfields h₁ h₂
        exact .after (.expect _ _) fun _ => varLines_repeats base T₂ (by omega) hT₂
    · exact .error _
    · exact .error _

theorem written_empty : TypeTable.Written .empty := fun x t h => by
  simp [TypeTable.get?, TypeTable.empty] at h

theorem declarations_repeats {n m : Nat} (base : String) (h : n ≤ m) :
    Repeats (declarations base n) (declarations base m) TypeTable.Written := by
  refine .step (.after (.accept _) fun present => ?_)
  cases present with
  | true => exact .after (.expect _ _) fun _ => varLines_repeats base .empty h written_empty
  | false => exact .pure written_empty

end Script

end ScriptedAgent
