import ScriptedAgent.Proofs.Script.Yields
import ScriptedAgent.Script.Program
import ScriptedAgent.Script.WellKinded

/-!
# Parsed scripts are well-kinded

The parser checks a name where it reads it, so what each production yields fits the table of the
declarations (`block_wellKinded`, by induction on the calls allowed). A field is looked up in its
variable's layout only; that its variable is a composite one follows from the declarations, which
give a layout to `bytes` variables and to no others (`LayoutsMatch`).
-/

namespace ScriptedAgent

/-- Exactly the composite variables have a layout. -/
def LayoutsMatch (T : TypeTable) : Prop :=
  ∀ name t, T.get? name = some t → (t.kind = .bytes ↔ t.layout.isSome = true)

namespace Script

open Parse

/-! ## Declarations -/

theorem of_declare {T T' : TypeTable} {name : String} {t : VarType}
    (h : T.declare name t = .ok T') : T'.vars = T.vars.insert name t := by
  unfold TypeTable.declare at h
  split at h
  · simp at h
  · split at h
    · simp at h
    · simp only [Except.ok.injEq] at h
      exact h ▸ rfl

theorem of_bindAlias {T T' : TypeTable} {name : String} {n : Number}
    (h : T.bindAlias name n = .ok T') : T'.vars = T.vars := by
  unfold TypeTable.bindAlias at h
  split at h
  · split at h
    · simp only [Except.ok.injEq] at h
      exact h ▸ rfl
    · simp at h
  · simp only [Except.ok.injEq] at h
    exact h ▸ rfl

theorem aliases_vars : ∀ n T, Yields (aliases n T) fun T' => T'.vars = T.vars
  | 0, T => .throw _
  | n + 1, T => by
    refine .step (.after fun closed => ?_)
    split
    · exact .pure rfl
    · refine .after fun negative => .after fun t => ?_
      split
      · refine .after fun _ => .after fun t => ?_
        split
        · split
          · exact .error _
          · rename_i T' hT
            refine .after fun _ => ?_
            rw [← of_bindAlias hT]
            exact aliases_vars n T'
        · exact .error _
      · exact .error _

theorem aliasList_vars (n : Nat) (k : Kind) (T : TypeTable) :
    Yields (aliasList n k T) fun T' => T'.vars = T.vars := by
  unfold aliasList
  split
  · refine .after fun opened => ?_
    split
    · exact aliases_vars n T
    · exact .pure rfl
  · exact .pure rfl

/-- A declared type has a layout exactly if it is composite; its aliases change no variable. -/
theorem typeOfKind_layout (n : Nat) (oid : Option String) (T : TypeTable) (t : Token) :
    Yields (typeOfKind n oid T t) fun r =>
      (r.1.kind = .bytes ↔ r.1.layout.isSome = true) ∧ r.2.vars = T.vars := by
  unfold typeOfKind
  split
  · rename_i k
    refine .bind (aliasList_vars n k T) fun T' hT => ?_
    split
    · rename_i hk
      refine .bind (Q := fun l => l.isSome = true) (.after fun l => .pure rfl) fun l hl => ?_
      exact .after fun a => .pure ⟨iff_of_true hk hl, hT⟩
    · rename_i hk
      refine .bind (Q := fun l => l = none) (.pure rfl) fun l hl => ?_
      exact .after fun a => .pure ⟨iff_of_false hk (by simp [hl]), hT⟩
  · exact .error _

theorem varType_layout (base : String) (n : Nat) (T : TypeTable) :
    Yields (varType base n T) fun r =>
      (r.1.kind = .bytes ↔ r.1.layout.isSome = true) ∧ r.2.vars = T.vars := by
  refine .step (.after fun t => ?_)
  split
  · exact typeOfKind_layout n none T t
  · rename_i oid _
    exact .after fun t => typeOfKind_layout n (some oid) T t

theorem varLines_layoutsMatch (base : String) :
    ∀ n T, LayoutsMatch T → Yields (varLines base n T) LayoutsMatch
  | 0, T, _ => .throw _
  | n + 1, T, hT => by
    refine .step (.after fun t => ?_)
    split
    · exact .after fun _ => .pure hT
    · rename_i name
      refine .after fun _ => .bind (varType_layout base n T) fun ⟨t, T₁⟩ ⟨ht, h₁⟩ => ?_
      dsimp only
      split
      · exact .error _
      · rename_i T₂ h₂
        refine .after fun _ => varLines_layoutsMatch base n T₂ fun x u hu => ?_
        rw [TypeTable.get?, of_declare h₂, NameMap.get?_insert] at hu
        split at hu
        · simp only [Option.some.injEq] at hu
          exact hu ▸ ht
        · exact hT x u (by rw [TypeTable.get?, ← h₁]; exact hu)
    · exact .error _
    · exact .error _

theorem layoutsMatch_empty : LayoutsMatch .empty := fun x t h => by
  simp [TypeTable.get?, TypeTable.empty] at h

theorem declarations_layoutsMatch (base : String) (n : Nat) :
    Yields (declarations base n) LayoutsMatch := by
  refine .step (.after fun present => ?_)
  split
  · exact .after fun _ => varLines_layoutsMatch base n .empty layoutsMatch_empty
  · exact .pure layoutsMatch_empty

/-! ## Names -/

section

variable {T : TypeTable}

theorem fieldOf_hasField (hT : LayoutsMatch T) (name : String) :
    Yields (fieldOf T name) (HasField T name) := by
  refine .after fun field => .bind (Q := fun _ => HasField T name field) (.step ?_) fun _ h =>
    .pure h
  split
  · exact .error _
  · rename_i t ht
    split
    · exact .error _
    · rename_i l hl
      split
      · rename_i hf
        refine .pure ⟨?_, ?_⟩
        · rw [TypeTable.kindOf?, ht, Option.map_some, (hT name t ht).2 (by rw [hl]; rfl)]
        · rw [TypeTable.field?, ht, Option.bind_some, hl, Option.bind_some]
          exact hf
      · exact .error _

theorem hasGrammar_of_kindOf? {name : String} {k : Kind} {g : Grammar} (h : T.kindOf? name = some k)
    (hg : k.grammar = g) : HasGrammar T name g := by
  rw [HasGrammar, h, Option.map_some, hg]

theorem intName_wellKinded (hT : LayoutsMatch T) (name : String) :
    Yields (intName T name) (·.WellKinded T) := by
  refine .step ?_
  split
  · exact .error _
  · exact .after fun _ => .bind (fieldOf_hasField hT name) fun f hf => .pure hf
  · rename_i k _ hk
    split
    · rename_i hg
      exact .pure (hasGrammar_of_kindOf? hk hg)
    · exact .error _

/-! ## Expressions -/

mutual

theorem intExpr_wellKinded (hT : LayoutsMatch T) : ∀ n, Yields (intExpr T n) (·.WellKinded T)
  | 0 => .throw _
  | n + 1 =>
    .step (.bind (intTerm_wellKinded hT n) fun t ht => intTerms_wellKinded hT n (.term t) ht)

theorem intTerms_wellKinded (hT : LayoutsMatch T) :
    ∀ n e, e.WellKinded T → Yields (intTerms T n e) (·.WellKinded T)
  | 0, _, _ => .throw _
  | n + 1, e, he => by
    refine .step (.after fun t => ?_)
    split
    · refine .after fun _ => .bind (intTerm_wellKinded hT n) fun t ht => ?_
      exact intTerms_wellKinded hT n (.add e t) ⟨he, ht⟩
    · refine .after fun _ => .bind (intTerm_wellKinded hT n) fun t ht => ?_
      exact intTerms_wellKinded hT n (.sub e t) ⟨he, ht⟩
    · exact .pure he

theorem intTerm_wellKinded (hT : LayoutsMatch T) : ∀ n, Yields (intTerm T n) (·.WellKinded T)
  | 0 => .throw _
  | n + 1 =>
    .step (.bind (intFactor_wellKinded hT n) fun f hf => intFactors_wellKinded hT n (.factor f) hf)

theorem intFactors_wellKinded (hT : LayoutsMatch T) :
    ∀ n t, t.WellKinded T → Yields (intFactors T n t) (·.WellKinded T)
  | 0, _, _ => .throw _
  | n + 1, t, ht => by
    refine .step (.after fun u => ?_)
    split
    · refine .after fun _ => .bind (intFactor_wellKinded hT n) fun f hf => ?_
      exact intFactors_wellKinded hT n (.mul t f) ⟨ht, hf⟩
    · refine .after fun _ => .bind (intFactor_wellKinded hT n) fun f hf => ?_
      exact intFactors_wellKinded hT n (.div t f) ⟨ht, hf⟩
    · exact .pure ht

theorem intFactor_wellKinded (hT : LayoutsMatch T) : ∀ n, Yields (intFactor T n) (·.WellKinded T)
  | 0 => .throw _
  | n + 1 => by
    refine .step (.after fun t => ?_)
    cases t with
    | int v => exact .pure trivial
    | aliasName a =>
      show Yields (match T.alias? a with | some v => _ | none => _) _
      split
      · exact .pure trivial
      · exact .error _
    | ident name => exact intName_wellKinded hT _
    | symbol s =>
      cases s with
      | minus => exact .bind (intFactor_wellKinded hT n) fun f hf => .pure hf
      | openParen => exact .bind (intExpr_wellKinded hT n) fun e he => .after fun _ => .pure he
      | _ => exact .missing _
    | _ => exact .missing _

end

theorem comparison_wellKinded (hT : LayoutsMatch T) (n : Nat) :
    Yields (comparison T n) (·.WellKinded T) := by
  refine .step (.bind (intExpr_wellKinded hT n) fun l hl => .after fun t => ?_)
  split
  · exact .missing _
  · exact .bind (intExpr_wellKinded hT n) fun r hr => .pure ⟨hl, hr⟩

mutual

theorem boolExpr_wellKinded (hT : LayoutsMatch T) : ∀ n, Yields (boolExpr T n) (·.WellKinded T)
  | 0 => .throw _
  | n + 1 =>
    .step (.bind (boolTerm_wellKinded hT n) fun t ht => boolTerms_wellKinded hT n (.term t) ht)

theorem boolTerms_wellKinded (hT : LayoutsMatch T) :
    ∀ n e, e.WellKinded T → Yields (boolTerms T n e) (·.WellKinded T)
  | 0, _, _ => .throw _
  | n + 1, e, he => by
    refine .step (.after fun more => ?_)
    split
    · refine .bind (boolTerm_wellKinded hT n) fun t ht => ?_
      exact boolTerms_wellKinded hT n (.or e t) ⟨he, ht⟩
    · exact .pure he

theorem boolTerm_wellKinded (hT : LayoutsMatch T) : ∀ n, Yields (boolTerm T n) (·.WellKinded T)
  | 0 => .throw _
  | n + 1 =>
    .step (.bind (boolFactor_wellKinded hT n)
      fun f hf => boolFactors_wellKinded hT n (.factor f) hf)

theorem boolFactors_wellKinded (hT : LayoutsMatch T) :
    ∀ n t, t.WellKinded T → Yields (boolFactors T n t) (·.WellKinded T)
  | 0, _, _ => .throw _
  | n + 1, t, ht => by
    refine .step (.after fun more => ?_)
    split
    · refine .bind (boolFactor_wellKinded hT n) fun f hf => ?_
      exact boolFactors_wellKinded hT n (.and t f) ⟨ht, hf⟩
    · exact .pure ht

theorem boolFactor_wellKinded (hT : LayoutsMatch T) : ∀ n, Yields (boolFactor T n) (·.WellKinded T)
  | 0 => .throw _
  | n + 1 => by
    refine .step (.after fun t => ?_)
    split
    · exact .after fun _ => .pure trivial
    · exact .after fun _ => .pure trivial
    · exact .after fun _ => .bind (boolFactor_wellKinded hT n) fun f hf => .pure hf
    · exact .after fun _ => .bind (boolExpr_wellKinded hT n) fun e he => .after fun _ => .pure he
    · split
      · rename_i hk
        exact .after fun _ => .pure (hasGrammar_of_kindOf? hk rfl)
      · exact comparison_wellKinded hT n
    · exact comparison_wellKinded hT n

end

theorem intList_wellKinded (hT : LayoutsMatch T) :
    ∀ n, Yields (intList T n) fun es => ∀ e ∈ es, e.WellKinded T
  | 0 => .throw _
  | n + 1 => by
    refine .step (.after fun t => ?_)
    split
    · exact .pure (by simp)
    · refine .bind (intExpr_wellKinded hT n) fun e he => .after fun more => ?_
      split
      · refine .bind (intList_wellKinded hT n) fun es hes => ?_
        exact .pure (List.forall_mem_cons.2 ⟨he, hes⟩)
      · exact .pure (List.forall_mem_singleton.2 he)

mutual

theorem bitsExpr_wellKinded (hT : LayoutsMatch T) : ∀ n, Yields (bitsExpr T n) (·.WellKinded T)
  | 0 => .throw _
  | n + 1 =>
    .step (.bind (bitsTerm_wellKinded hT n) fun t ht => bitsTerms_wellKinded hT n (.term t) ht)

theorem bitsTerms_wellKinded (hT : LayoutsMatch T) :
    ∀ n e, e.WellKinded T → Yields (bitsTerms T n e) (·.WellKinded T)
  | 0, _, _ => .throw _
  | n + 1, e, he => by
    refine .step (.after fun more => ?_)
    split
    · refine .bind (bitsTerm_wellKinded hT n) fun t ht => ?_
      exact bitsTerms_wellKinded hT n (.union e t) ⟨he, ht⟩
    · exact .pure he

theorem bitsTerm_wellKinded (hT : LayoutsMatch T) : ∀ n, Yields (bitsTerm T n) (·.WellKinded T)
  | 0 => .throw _
  | n + 1 => by
    refine .step (.after fun t => ?_)
    split
    · exact .bind (intList_wellKinded hT n) fun es hes => .after fun _ => .pure hes
    · split
      · exact .error _
      · rename_i hk
        exact .pure (hasGrammar_of_kindOf? hk rfl)
      · exact .error _
    · exact .bind (bitsExpr_wellKinded hT n) fun e he => .after fun _ => .pure he
    · exact .missing _

end

mutual

theorem strExpr_wellKinded (hT : LayoutsMatch T) : ∀ n, Yields (strExpr T n) (·.WellKinded T)
  | 0 => .throw _
  | n + 1 =>
    .step (.bind (strTerm_wellKinded hT n) fun t ht => strTerms_wellKinded hT n (.term t) ht)

theorem strTerms_wellKinded (hT : LayoutsMatch T) :
    ∀ n e, e.WellKinded T → Yields (strTerms T n e) (·.WellKinded T)
  | 0, _, _ => .throw _
  | n + 1, e, he => by
    refine .step (.after fun more => ?_)
    split
    · refine .bind (strTerm_wellKinded hT n) fun t ht => ?_
      exact strTerms_wellKinded hT n (.append e t) ⟨he, ht⟩
    · exact .pure he

theorem strTerm_wellKinded (hT : LayoutsMatch T) : ∀ n, Yields (strTerm T n) (·.WellKinded T)
  | 0 => .throw _
  | n + 1 => by
    refine .step (.after fun t => ?_)
    split
    · exact .pure trivial
    · split
      · exact .error _
      · rename_i k hk
        split
        · rename_i hg
          exact .pure (hasGrammar_of_kindOf? hk hg)
        · exact .error _
    · exact .bind (strExpr_wellKinded hT n) fun e he => .after fun _ => .pure he
    · refine .after fun _ => .bind (intExpr_wellKinded hT n) fun e he => ?_
      exact .after fun _ => .pure he
    · refine .after fun _ => .bind (boolExpr_wellKinded hT n) fun e he => ?_
      exact .after fun _ => .pure he
    · refine .after fun _ => .bind (bitsExpr_wellKinded hT n) fun e he => ?_
      exact .after fun _ => .pure he
    · exact .missing _

end

/-! ## Statements -/

theorem assigned_wellKinded (hT : LayoutsMatch T) (n : Nat) (name : String) :
    ∀ g, Yields (assigned T n name g) (·.WellKinded T g)
  | .int => .bind (intExpr_wellKinded hT n) fun _ he => .pure ⟨rfl, he⟩
  | .bool => .bind (boolExpr_wellKinded hT n) fun _ he => .pure ⟨rfl, he⟩
  | .str => .bind (strExpr_wellKinded hT n) fun _ he => .pure ⟨rfl, he⟩
  | .bits => .bind (bitsExpr_wellKinded hT n) fun _ he => .pure ⟨rfl, he⟩
  | .fields => .error _

theorem assignment_wellKinded (hT : LayoutsMatch T) (n : Nat) :
    Yields (assignment T n) (·.WellKinded T) := by
  refine .step (.after fun name => ?_)
  split
  · exact .error _
  · rename_i k hk
    refine .after fun colon => ?_
    split
    · refine .bind (fieldOf_hasField hT name) fun f hf => .after fun _ => ?_
      exact .bind (intExpr_wellKinded hT n) fun e he => .after fun _ => .pure ⟨hf, rfl, he⟩
    · refine .after fun _ => .bind (assigned_wellKinded hT n name k.grammar) fun e he => ?_
      exact .after fun _ => .pure ⟨k.grammar, hasGrammar_of_kindOf? hk rfl, he⟩

theorem sleep_wellKinded (hT : LayoutsMatch T) (n : Nat) :
    Yields (sleep T n) (·.WellKinded T) := by
  refine .step (.bind (intExpr_wellKinded hT n) fun e he => .after fun t => ?_)
  split
  · exact .after fun _ => .after fun _ => .pure he
  · exact .after fun _ => .after fun _ => .pure he
  · exact .bind (Q := fun _ => False) (.error _) fun _ h => h.elim

theorem loopControl_wellKinded (hT : LayoutsMatch T) (n : Nat) :
    Yields (loopControl T n) (·.WellKinded T) := by
  refine .after fun t => ?_
  split
  · exact .pure trivial
  · exact .after fun _ => .bind (intExpr_wellKinded hT n) fun e he => .pure he
  · exact .bind (boolExpr_wellKinded hT n) fun e he => .pure he

mutual

theorem block_wellKinded (hT : LayoutsMatch T) : ∀ n, Yields (block T n) (BlockWellKinded T)
  | 0 => .throw _
  | n + 1 => by
    refine .step (.after fun t => ?_)
    split
    · exact .pure trivial
    · split
      · exact .error _
      · refine .bind (statement_wellKinded hT n) fun s hs => ?_
        exact .bind (block_wellKinded hT n) fun ss hss => .pure ⟨hs, hss⟩

theorem statement_wellKinded (hT : LayoutsMatch T) : ∀ n, Yields (statement T n) (·.WellKinded T)
  | 0 => .throw _
  | n + 1 => by
    refine .step (.after fun t => ?_)
    split
    · exact assignment_wellKinded hT n
    · exact .after fun _ => branch_wellKinded hT n
    · exact .after fun _ => loop_wellKinded hT n
    · refine .after fun _ => .bind (strExpr_wellKinded hT n) fun e he => ?_
      exact .after fun _ => .pure he
    · exact .after fun _ => sleep_wellKinded hT n
    · exact .after fun _ => .after fun _ => .pure trivial
    · exact .after fun _ => .error _

theorem branch_wellKinded (hT : LayoutsMatch T) : ∀ n, Yields (branch T n) (·.WellKinded T)
  | 0 => .throw _
  | n + 1 => by
    refine .step (.bind (boolExpr_wellKinded hT n) fun cond hc => .after fun _ => ?_)
    refine .bind (block_wellKinded hT n) fun body hb => ?_
    exact .bind (branches_wellKinded hT n) fun rest hr => .after fun _ => .pure ⟨hc, hb, hr⟩

theorem branches_wellKinded (hT : LayoutsMatch T) : ∀ n, Yields (branches T n) (·.WellKinded T)
  | 0 => .throw _
  | n + 1 => by
    refine .step (.after fun t => ?_)
    split
    · refine .bind (boolExpr_wellKinded hT n) fun cond hc => .after fun _ => ?_
      refine .bind (block_wellKinded hT n) fun body hb => ?_
      exact .bind (branches_wellKinded hT n) fun rest hr => .pure ⟨hc, hb, hr⟩
    · exact .after fun _ => .bind (block_wellKinded hT n) fun body hb => .after fun _ => .pure hb
    · exact .pure trivial
    · exact .error _

theorem loop_wellKinded (hT : LayoutsMatch T) : ∀ n, Yields (loop T n) (·.WellKinded T)
  | 0 => .throw _
  | n + 1 => by
    refine .step (.bind (loopControl_wellKinded hT n) fun control hc => .after fun _ => ?_)
    refine .bind (block_wellKinded hT n) fun body hb => ?_
    exact .after fun _ => .after fun _ => .pure ⟨hc, hb⟩

end

end

/-! ## Programs -/

/-- What a program must have to be run. -/
structure Program.WellKinded (p : Program) : Prop where
  layouts : LayoutsMatch p.types
  body : BlockWellKinded p.types p.body

/-- A concrete script is one that parses and of which `P` is computed. -/
theorem Program.exists_parse (text base : String) (P : Program → Bool)
    (h : (Program.parse text base).toOption.any P = true) :
    ∃ p, Program.parse text base = .ok p ∧ P p = true := by
  cases hp : Program.parse text base with
  | ok p => exact ⟨p, rfl, by simpa [hp, Except.toOption] using h⟩
  | error e => simp [hp, Except.toOption] at h

theorem Program.read_wellKinded (base : String) (n : Nat) :
    Yields (Program.read base n) Program.WellKinded := by
  refine .step (.bind (declarations_layoutsMatch base n) fun T hT => ?_)
  refine .after fun _ => .after fun _ => .bind (block_wellKinded hT n) fun body hb => ?_
  exact .after fun _ => .after fun _ => .after fun _ => .pure ⟨hT, hb⟩

theorem Program.parse_wellKinded {text base : String} {p : Program}
    (h : Program.parse text base = .ok p) : p.WellKinded := by
  unfold parse at h
  split at h
  · rename_i q c hq
    simp only [Except.ok.injEq] at h
    subst h
    exact read_wellKinded _ _ _ _ (congrArg Prod.fst hq)
  · simp at h
  · simp at h

end Script

end ScriptedAgent
