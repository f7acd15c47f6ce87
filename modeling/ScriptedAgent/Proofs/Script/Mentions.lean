import ScriptedAgent.Proofs.Script.WellKinded
import ScriptedAgent.Script.Mention
import ScriptedAgent.Script.Terms

/-!
# The names in a parsed script

A block fits its table exactly if each mention of a variable in it does (`blockWellKinded_iff`), so
what holds of a parsed script can be read off for each name by itself (`regular_of_parse`). That its
trees have parts in every place is no matter of parsing: there are no others (`partsNonempty`).
-/

namespace ScriptedAgent.Script

variable {T : TypeTable}

/-- The mention is of a variable that is declared with a kind for its place. -/
def Mention.Fits (T : TypeTable) : Mention → Prop
  | read g x => HasGrammar T x g
  | readField x f => HasField T x f
  | assign (.var x) e => HasGrammar T x e.grammar
  | assign (.field x f) e => HasField T x f ∧ e.grammar = .int

/-! ## Expressions -/

mutual

theorem IntExpr.wellKinded_iff : ∀ e : IntExpr, e.WellKinded T ↔ ∀ c ∈ e.mentions, c.Fits T
  | .term t => t.wellKinded_iff
  | .add e t => by
    simp only [IntExpr.WellKinded, IntExpr.mentions, List.forall_mem_append, e.wellKinded_iff,
      t.wellKinded_iff]
  | .sub e t => by
    simp only [IntExpr.WellKinded, IntExpr.mentions, List.forall_mem_append, e.wellKinded_iff,
      t.wellKinded_iff]

theorem IntTerm.wellKinded_iff : ∀ t : IntTerm, t.WellKinded T ↔ ∀ c ∈ t.mentions, c.Fits T
  | .factor f => f.wellKinded_iff
  | .mul t f => by
    simp only [IntTerm.WellKinded, IntTerm.mentions, List.forall_mem_append, t.wellKinded_iff,
      f.wellKinded_iff]
  | .div t f => by
    simp only [IntTerm.WellKinded, IntTerm.mentions, List.forall_mem_append, t.wellKinded_iff,
      f.wellKinded_iff]

theorem IntFactor.wellKinded_iff : ∀ f : IntFactor, f.WellKinded T ↔ ∀ c ∈ f.mentions, c.Fits T
  | .const _ => by simp [IntFactor.mentions, IntFactor.WellKinded]
  | .var _ => by simp [IntFactor.WellKinded, IntFactor.mentions, Mention.Fits]
  | .field _ _ => by simp [IntFactor.WellKinded, IntFactor.mentions, Mention.Fits]
  | .neg f => f.wellKinded_iff
  | .group e => e.wellKinded_iff

end

mutual

theorem BoolExpr.wellKinded_iff : ∀ e : BoolExpr, e.WellKinded T ↔ ∀ c ∈ e.mentions, c.Fits T
  | .term t => t.wellKinded_iff
  | .or e t => by
    simp only [BoolExpr.WellKinded, BoolExpr.mentions, List.forall_mem_append, e.wellKinded_iff,
      t.wellKinded_iff]

theorem BoolTerm.wellKinded_iff : ∀ t : BoolTerm, t.WellKinded T ↔ ∀ c ∈ t.mentions, c.Fits T
  | .factor f => f.wellKinded_iff
  | .and t f => by
    simp only [BoolTerm.WellKinded, BoolTerm.mentions, List.forall_mem_append, t.wellKinded_iff,
      f.wellKinded_iff]

theorem BoolFactor.wellKinded_iff : ∀ f : BoolFactor, f.WellKinded T ↔ ∀ c ∈ f.mentions, c.Fits T
  | .const _ => by simp [BoolFactor.mentions, BoolFactor.WellKinded]
  | .var _ => by simp [BoolFactor.WellKinded, BoolFactor.mentions, Mention.Fits]
  | .not f => f.wellKinded_iff
  | .group e => e.wellKinded_iff
  | .compare _ l r => by
    simp only [BoolFactor.WellKinded, BoolFactor.mentions, List.forall_mem_append, l.wellKinded_iff,
      r.wellKinded_iff]

end

mutual

theorem BitsExpr.wellKinded_iff : ∀ e : BitsExpr, e.WellKinded T ↔ ∀ c ∈ e.mentions, c.Fits T
  | .term t => t.wellKinded_iff
  | .union e t => by
    simp only [BitsExpr.WellKinded, BitsExpr.mentions, List.forall_mem_append, e.wellKinded_iff,
      t.wellKinded_iff]

theorem BitsTerm.wellKinded_iff : ∀ t : BitsTerm, t.WellKinded T ↔ ∀ c ∈ t.mentions, c.Fits T
  | .set es => by
    simp only [BitsTerm.mentions, BitsTerm.WellKinded, List.mem_flatMap, IntExpr.wellKinded_iff]
    exact ⟨fun h c ⟨e, he, hc⟩ => h e he c hc, fun h e he c hc => h c ⟨e, he, hc⟩⟩
  | .var _ => by simp [BitsTerm.WellKinded, BitsTerm.mentions, Mention.Fits]
  | .group e => e.wellKinded_iff

end

mutual

theorem StrExpr.wellKinded_iff : ∀ e : StrExpr, e.WellKinded T ↔ ∀ c ∈ e.mentions, c.Fits T
  | .term t => t.wellKinded_iff
  | .append e t => by
    simp only [StrExpr.WellKinded, StrExpr.mentions, List.forall_mem_append, e.wellKinded_iff,
      t.wellKinded_iff]

theorem StrTerm.wellKinded_iff : ∀ t : StrTerm, t.WellKinded T ↔ ∀ c ∈ t.mentions, c.Fits T
  | .literal _ => by simp [StrTerm.mentions, StrTerm.WellKinded]
  | .var _ => by simp [StrTerm.WellKinded, StrTerm.mentions, Mention.Fits]
  | .group e => e.wellKinded_iff
  | .ofInt e => e.wellKinded_iff
  | .ofBool e => e.wellKinded_iff
  | .ofBits e => e.wellKinded_iff

end

theorem Expr.wellKinded_iff {g : Grammar} : ∀ e : Expr,
    e.WellKinded T g ↔ g = e.grammar ∧ ∀ c ∈ e.mentions, c.Fits T
  | int e => and_congr_right fun _ => e.wellKinded_iff
  | bool e => and_congr_right fun _ => e.wellKinded_iff
  | str e => and_congr_right fun _ => e.wellKinded_iff
  | bits e => and_congr_right fun _ => e.wellKinded_iff

/-! ## Statements -/

theorem assignmentWellKinded_iff {e : Expr} : ∀ {t : Target},
    AssignmentWellKinded T t e ↔ (Mention.assign t e).Fits T ∧ ∀ c ∈ e.mentions, c.Fits T
  | .var x => by
    simp only [AssignmentWellKinded, Mention.Fits, Expr.wellKinded_iff]
    constructor
    · rintro ⟨g, hx, rfl, he⟩
      exact ⟨hx, he⟩
    · rintro ⟨hx, he⟩
      exact ⟨e.grammar, hx, rfl, he⟩
  | .field x f => by
    rw [AssignmentWellKinded, Mention.Fits, Expr.wellKinded_iff, and_assoc, eq_comm]

theorem LoopControl.wellKinded_iff : ∀ l : LoopControl,
    l.WellKinded T ↔ ∀ c ∈ l.mentions, c.Fits T
  | forever => by simp [LoopControl.mentions, LoopControl.WellKinded]
  | times e => e.wellKinded_iff
  | «while» e => e.wellKinded_iff

mutual

theorem Stmt.wellKinded_iff : ∀ s : Stmt, s.WellKinded T ↔ ∀ c ∈ s.mentions, c.Fits T
  | .assign t e => by
    rw [Stmt.WellKinded, Stmt.mentions, List.forall_mem_cons, assignmentWellKinded_iff]
  | .print e => e.wellKinded_iff
  | .sleep e _ => e.wellKinded_iff
  | .exit => by simp [Stmt.mentions, Stmt.WellKinded]
  | .branch cond body rest => by
    simp only [Stmt.WellKinded, Stmt.mentions, List.forall_mem_append, cond.wellKinded_iff,
      blockWellKinded_iff body, rest.wellKinded_iff, and_assoc]
  | .loop control body => by
    simp only [Stmt.WellKinded, Stmt.mentions, List.forall_mem_append, control.wellKinded_iff,
      blockWellKinded_iff body]

theorem Branches.wellKinded_iff : ∀ b : Branches, b.WellKinded T ↔ ∀ c ∈ b.mentions, c.Fits T
  | .otherwise body => blockWellKinded_iff body
  | .elseif cond body rest => by
    simp only [Branches.WellKinded, Branches.mentions, List.forall_mem_append, cond.wellKinded_iff,
      blockWellKinded_iff body, rest.wellKinded_iff, and_assoc]

theorem blockWellKinded_iff : ∀ ss : List Stmt,
    BlockWellKinded T ss ↔ ∀ c ∈ blockMentions ss, c.Fits T
  | [] => by simp [blockMentions, BlockWellKinded]
  | s :: ss => by
    simp only [BlockWellKinded, blockMentions, List.forall_mem_append, s.wellKinded_iff,
      blockWellKinded_iff ss]

end

/-! ## Parts -/

/-- The first term of a sum counts as added. -/
theorem IntExpr.terms_eq_cons : ∀ e : IntExpr, ∃ t ts, e.terms = (.plus, t) :: ts
  | .term t => ⟨t, [], rfl⟩
  | .add e t => by
    obtain ⟨t', ts, h⟩ := e.terms_eq_cons
    exact ⟨t', ts ++ [(.plus, t)], by rw [terms, h, List.cons_append]⟩
  | .sub e t => by
    obtain ⟨t', ts, h⟩ := e.terms_eq_cons
    exact ⟨t', ts ++ [(.minus, t)], by rw [terms, h, List.cons_append]⟩

theorem IntTerm.factors_eq_cons : ∀ t : IntTerm, ∃ f fs, t.factors = (.times, f) :: fs
  | .factor f => ⟨f, [], rfl⟩
  | .mul t f => by
    obtain ⟨f', fs, h⟩ := t.factors_eq_cons
    exact ⟨f', fs ++ [(.times, f)], by rw [factors, h, List.cons_append]⟩
  | .div t f => by
    obtain ⟨f', fs, h⟩ := t.factors_eq_cons
    exact ⟨f', fs ++ [(.divide, f)], by rw [factors, h, List.cons_append]⟩

theorem BoolExpr.terms_ne_nil (e : BoolExpr) : e.terms ≠ [] := by
  cases e <;> simp [terms]

theorem BoolTerm.factors_ne_nil (t : BoolTerm) : t.factors ≠ [] := by
  cases t <;> simp [factors]

theorem BitsExpr.terms_ne_nil (e : BitsExpr) : e.terms ≠ [] := by
  cases e <;> simp [terms]

theorem StrExpr.terms_ne_nil (e : StrExpr) : e.terms ≠ [] := by
  cases e <;> simp [terms]

/-- No tree is without parts, and the first operator of a sum is `+` and that of a product `*`. This
is so of every tree, parsed or not: the types of the trees see to it. -/
structure PartsNonempty : Prop where
  sum : ∀ e : IntExpr, ∃ t ts, e.terms = (.plus, t) :: ts
  product : ∀ t : IntTerm, ∃ f fs, t.factors = (.times, f) :: fs
  boolTerms : ∀ e : BoolExpr, e.terms ≠ []
  boolFactors : ∀ t : BoolTerm, t.factors ≠ []
  bitsTerms : ∀ e : BitsExpr, e.terms ≠ []
  strTerms : ∀ e : StrExpr, e.terms ≠ []
  arms : ∀ cond body rest, (Stmt.branch cond body rest).arms ≠ []

theorem partsNonempty : PartsNonempty where
  sum := IntExpr.terms_eq_cons
  product := IntTerm.factors_eq_cons
  boolTerms := BoolExpr.terms_ne_nil
  boolFactors := BoolTerm.factors_ne_nil
  bitsTerms := BitsExpr.terms_ne_nil
  strTerms := StrExpr.terms_ne_nil
  arms _ _ _ := List.cons_ne_nil _ _

/-! ## Names -/

section

variable {x f : String} {g : Grammar}

theorem HasGrammar.exists_kind (h : HasGrammar T x g) : ∃ k, T.kindOf? x = some k ∧ k.grammar = g :=
  Option.map_eq_some_iff.1 h

theorem HasGrammar.boolean (h : HasGrammar T x .bool) : T.kindOf? x = some .boolean := by
  obtain ⟨k, hk, hg⟩ := h.exists_kind
  cases k <;> simp_all [Kind.grammar]

theorem HasGrammar.bitset (h : HasGrammar T x .bits) : T.kindOf? x = some .bitset := by
  obtain ⟨k, hk, hg⟩ := h.exists_kind
  cases k <;> simp_all [Kind.grammar]

/-- A block is assigned from no expression. -/
theorem Expr.ne_bytes {e : Expr} {k : Kind} (h : k.grammar = e.grammar) : k ≠ .bytes := by
  rintro rfl
  cases e <;> simp [Kind.grammar, Expr.grammar] at h

theorem HasField.exists_layout (h : HasField T x f) : ∃ t l, T.get? x = some t ∧
    t.kind = .bytes ∧ t.layout = some l ∧ (l.field? f).isSome = true := by
  obtain ⟨hk, hf⟩ := h
  obtain ⟨t, ht, hk⟩ := Option.map_eq_some_iff.1 hk
  rw [TypeTable.field?, ht, Option.bind_some] at hf
  cases hl : t.layout with
  | none => simp [hl] at hf
  | some l => exact ⟨t, l, ht, hk, hl, by simpa [hl] using hf⟩

theorem declared_of_kindOf? {k : Kind} (h : T.kindOf? x = some k) : (T.get? x).isSome = true := by
  obtain ⟨t, ht, -⟩ := Option.map_eq_some_iff.1 h
  rw [ht, Option.isSome_some]

theorem HasGrammar.declared (h : HasGrammar T x g) : (T.get? x).isSome = true := by
  obtain ⟨k, hk, -⟩ := h.exists_kind
  exact declared_of_kindOf? hk

theorem Mention.Fits.declared : ∀ {c : Mention}, c.Fits T → (T.get? c.name).isSome = true
  | read _ _, h => HasGrammar.declared h
  | readField _ _, h => declared_of_kindOf? h.1
  | assign (.var _) _, h => HasGrammar.declared h
  | assign (.field _ _) _, h => declared_of_kindOf? h.1.1

end

/-- What a parsed script has, spelled out for each name in its body. -/
structure Program.Regular (p : Program) : Prop where
  declared : ∀ c ∈ blockMentions p.body, (p.types.get? c.name).isSome = true
  intRead : ∀ x, .read .int x ∈ blockMentions p.body →
    ∃ k, p.types.kindOf? x = some k ∧ k.grammar = .int
  boolRead : ∀ x, .read .bool x ∈ blockMentions p.body → p.types.kindOf? x = some .boolean
  strRead : ∀ x, .read .str x ∈ blockMentions p.body →
    ∃ k, p.types.kindOf? x = some k ∧ k.grammar = .str
  bitsRead : ∀ x, .read .bits x ∈ blockMentions p.body → p.types.kindOf? x = some .bitset
  fieldRead : ∀ x f, .readField x f ∈ blockMentions p.body → ∃ t l, p.types.get? x = some t ∧
    t.kind = .bytes ∧ t.layout = some l ∧ (l.field? f).isSome = true
  fieldTarget : ∀ x f e, .assign (.field x f) e ∈ blockMentions p.body → e.grammar = .int ∧
    ∃ t l, p.types.get? x = some t ∧ t.kind = .bytes ∧ t.layout = some l ∧
      (l.field? f).isSome = true
  varTarget : ∀ x e, .assign (.var x) e ∈ blockMentions p.body →
    ∃ k, p.types.kindOf? x = some k ∧ k ≠ .bytes ∧ k.grammar = e.grammar
  layout : ∀ x t, p.types.get? x = some t → (t.kind = .bytes ↔ t.layout.isSome = true)

/-- Whatever text is parsed, each name in the script is declared with a kind for its place, and of no
tree are the parts missing. -/
theorem regular_of_parse {text base : String} {p : Program}
    (h : Program.parse text base = .ok p) : p.Regular ∧ PartsNonempty := by
  have hw := Program.parse_wellKinded h
  have hfits := (blockWellKinded_iff p.body).1 hw.body
  exact ⟨{
    declared := fun c hc => (hfits c hc).declared
    intRead := fun x hx => HasGrammar.exists_kind (hfits _ hx)
    boolRead := fun x hx => HasGrammar.boolean (hfits _ hx)
    strRead := fun x hx => HasGrammar.exists_kind (hfits _ hx)
    bitsRead := fun x hx => HasGrammar.bitset (hfits _ hx)
    fieldRead := fun x f hx => HasField.exists_layout (hfits _ hx)
    fieldTarget := fun x f e hx => ⟨(hfits _ hx).2, HasField.exists_layout (hfits _ hx).1⟩
    varTarget := fun x e hx => by
      obtain ⟨k, hk, hg⟩ := HasGrammar.exists_kind (hfits _ hx)
      exact ⟨k, hk, Expr.ne_bytes hg, hg⟩
    layout := hw.layouts }, partsNonempty⟩

theorem regular_mixed : ∃ p,
    Program.parse ("var\n n: counter\n m: bitset\n d: bytes \x7b a: 0 2 \x7d\nendvar\nrun\n" ++
        "if n < d:a\nd:a = -n\nelse\nm = m + [n]\nendif\nendrun\n") Oid.mib2 = .ok p ∧
    blockReads p.body = ["n", "d", "n", "m", "n"] ∧
    blockTargets p.body = [.field "d" "a", .var "m"] ∧ p.Regular := by
  obtain ⟨p, hp, h⟩ := Program.exists_parse
    ("var\n n: counter\n m: bitset\n d: bytes \x7b a: 0 2 \x7d\nendvar\nrun\n" ++
      "if n < d:a\nd:a = -n\nelse\nm = m + [n]\nendif\nendrun\n") Oid.mib2
    (fun p => blockReads p.body = ["n", "d", "n", "m", "n"] ∧
      blockTargets p.body = [.field "d" "a", .var "m"])
    (by decide +kernel)
  obtain ⟨hreads, htargets⟩ := of_decide_eq_true h
  exact ⟨p, hp, hreads, htargets, (regular_of_parse hp).1⟩

end ScriptedAgent.Script
