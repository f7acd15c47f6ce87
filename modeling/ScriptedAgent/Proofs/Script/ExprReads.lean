import ScriptedAgent.Proofs.Script.Reads
import ScriptedAgent.Script.Expr.Printer
import ScriptedAgent.Script.Expr.Reader
import ScriptedAgent.Script.WellKinded

/-!
# Printed expressions are read back

In front of a token that continues no expression, the tokens of an expression that fits the table
are read as this expression. The calls allowed are twice the number of tokens for a factor, one more
for a term and two more for an expression. A tree that associates to the left is read by induction
on it: its left side brings the production into its loop, and the right side is one turn more.
-/

namespace ScriptedAgent.Script

open Parse

/-- None of the operators `ops`. -/
def Past (ops : List Symbol) (u : Token) : Prop := ∀ s ∈ ops, u ≠ .symbol s

instance (ops : List Symbol) (u : Token) : Decidable (Past ops u) :=
  inferInstanceAs (Decidable (∀ s ∈ ops, _))

theorem Past.of_subset {ops ops' : List Symbol} (h : ops ⊆ ops') {u : Token} (hu : Past ops' u) :
    Past ops u :=
  fun s hs => hu s (h hs)

/-- The operators that continue a term. -/
def termOps : List Symbol := [.star, .slash]

/-- The operators that continue an integer expression. -/
def intOps : List Symbol := [.plus, .minus, .star, .slash]

def boolTermOps : List Symbol := .amp :: intOps

def boolOps : List Symbol := .pipe :: boolTermOps

variable {T : TypeTable}

/-! ## Names -/

/-- The kind of a variable whose grammar only variables of one kind have. -/
theorem kindOf?_of_hasGrammar {x : String} {g : Grammar} {k : Kind} (h : HasGrammar T x g)
    (hg : ∀ k', k'.grammar = g → k' = k) : T.kindOf? x = some k := by
  obtain ⟨k', hk, hk'⟩ := Option.map_eq_some_iff.1 h
  rw [hk, hg k' hk']

theorem checkField_eq {x f : String} (h : HasField T x f) :
    checkField T x f = step (pure ()) := by
  obtain ⟨hkind, hfield⟩ := h
  unfold checkField
  cases ht : T.get? x with
  | none => simp [TypeTable.kindOf?, ht] at hkind
  | some t =>
    cases hl : t.layout with
    | none => simp [TypeTable.field?, ht, hl] at hfield
    | some l =>
      have hf : (l.field? f).isSome = true := by simpa [TypeTable.field?, ht, hl] using hfield
      simp [hf, hl]

theorem fieldOf_reads {x f : String} (h : HasField T x f) :
    Reads (fieldOf T x) [.ident f] (pure f) fun _ => True := by
  refine .expectIdent ?_
  rw [checkField_eq h]
  exact .map (.step .refl) fun _ _ => .refl

theorem intName_reads {x : String} (h : HasGrammar T x .int) :
    Reads (intName T x) [] (pure (.var x)) fun _ => True := by
  unfold HasGrammar at h
  refine .step ?_
  split
  · rename_i hk
    simp [hk] at h
  · rename_i hk
    simp [hk, Kind.grammar] at h
  · rename_i k _ hk
    have hg : k.grammar = .int := by simpa [hk] using h
    rw [if_pos hg]
    exact .refl

theorem intName_field_reads {x f : String} (h : HasField T x f) :
    Reads (intName T x) [.symbol .colon, .ident f] (pure (.field x f)) fun _ => True := by
  refine .step ?_
  rw [h.1]
  exact .expect ((fieldOf_reads h).map fun _ _ => .refl)

/-! ## Integers -/

theorem intFactors_finish (t : IntTerm) (m : Nat) :
    Reads (intFactors T (m + 1) t) [] (pure t) (Past termOps) := by
  refine .step (.peek_behind fun u hu => ?_)
  split
  · exact absurd rfl (hu .star (by decide))
  · exact absurd rfl (hu .slash (by decide))
  · exact .refl

theorem intTerms_finish (e : IntExpr) (m : Nat) :
    Reads (intTerms T (m + 1) e) [] (pure e) (Past intOps) := by
  refine .step (.peek_behind fun u hu => ?_)
  split
  · exact absurd rfl (hu .plus (by decide))
  · exact absurd rfl (hu .minus (by decide))
  · exact .refl

theorem IntTerm.reads_of_enters {t : IntTerm} {N : Nat}
    (ht : Enters N (intTerm T N) t.tokens (intFactors T · t) fun _ => True)
    (hN : t.tokens.length + 1 < N) : Reads (intTerm T N) t.tokens (pure t) (Past termOps) :=
  ht.finish hN (intFactors_finish t) fun _ _ => trivial

theorem IntExpr.reads_of_enters {e : IntExpr} {N : Nat}
    (he : Enters N (intExpr T N) e.tokens (intTerms T · e) (Past termOps))
    (hN : e.tokens.length + 1 < N) : Reads (intExpr T N) e.tokens (pure e) (Past intOps) :=
  he.finish hN (intTerms_finish e) fun _ => .of_subset (by decide)

mutual

theorem IntExpr.enters : ∀ (e : IntExpr) {N : Nat}, e.WellKinded T →
    2 * e.tokens.length + 3 ≤ N →
      Enters N (intExpr T N) e.tokens (intTerms T · e) (Past termOps)
  | .term t, n + 1, hw, hN => by
    simp only [IntExpr.tokens] at hN
    have ht := IntTerm.reads_of_enters (t.enters (N := n) hw (by omega)) (by omega)
    exact .start (.step (ht.map fun _ _ => .refl))
  | .add e t, N, hw, hN => by
    simp only [IntExpr.tokens, List.length_append, List.length_cons] at hN
    refine (e.enters hw.1 (by omega)).turn (by omega) (by decide) fun m hm => ?_
    have ht := IntTerm.reads_of_enters (t.enters (N := m) hw.2 (by omega)) (by omega)
    exact .step (.peek (.next (ht.map fun _ _ => .refl)))
  | .sub e t, N, hw, hN => by
    simp only [IntExpr.tokens, List.length_append, List.length_cons] at hN
    refine (e.enters hw.1 (by omega)).turn (by omega) (by decide) fun m hm => ?_
    have ht := IntTerm.reads_of_enters (t.enters (N := m) hw.2 (by omega)) (by omega)
    exact .step (.peek (.next (ht.map fun _ _ => .refl)))

theorem IntTerm.enters : ∀ (t : IntTerm) {N : Nat}, t.WellKinded T →
    2 * t.tokens.length + 2 ≤ N →
      Enters N (intTerm T N) t.tokens (intFactors T · t) fun _ => True
  | .factor f, n + 1, hw, hN => by
    simp only [IntTerm.tokens] at hN
    have hf := f.reads (N := n) hw (by omega)
    exact .start (.step (hf.map fun _ _ => .refl))
  | .mul t f, N, hw, hN => by
    simp only [IntTerm.tokens, List.length_append, List.length_cons] at hN
    refine (t.enters hw.1 (by omega)).turn (by omega) trivial fun m hm => ?_
    have hf := f.reads (N := m) hw.2 (by omega)
    exact .step (.peek (.next (hf.map fun _ _ => .refl)))
  | .div t f, N, hw, hN => by
    simp only [IntTerm.tokens, List.length_append, List.length_cons] at hN
    refine (t.enters hw.1 (by omega)).turn (by omega) trivial fun m hm => ?_
    have hf := f.reads (N := m) hw.2 (by omega)
    exact .step (.peek (.next (hf.map fun _ _ => .refl)))

theorem IntFactor.reads : ∀ (f : IntFactor) {N : Nat}, f.WellKinded T →
    2 * f.tokens.length + 1 ≤ N → Reads (intFactor T N) f.tokens (pure f) fun _ => True
  | .const v, n + 1, _, _ => .step (.next .refl)
  | .var x, n + 1, hw, _ => .step (.next (intName_reads hw))
  | .field x f, n + 1, hw, _ => .step (.next (intName_field_reads hw))
  | .neg f, n + 1, hw, hN => by
    simp only [IntFactor.tokens, List.length_cons] at hN
    have hf := f.reads (N := n) hw (by omega)
    exact .step (.next (hf.map fun _ _ => .refl))
  | .group e, n + 1, hw, hN => by
    simp only [IntFactor.tokens, bracketed, List.length_append, List.length_cons] at hN
    have he := IntExpr.reads_of_enters (e.enters (N := n) hw (by omega)) (by omega)
    have hclose : Past intOps (.symbol .closeParen) := by decide
    exact .step (.next (he.bind (.expect .refl) fun _ _ => hclose))

end

theorem IntExpr.reads (e : IntExpr) {N : Nat} (hw : e.WellKinded T)
    (hN : 2 * e.tokens.length + 3 ≤ N) : Reads (intExpr T N) e.tokens (pure e) (Past intOps) :=
  reads_of_enters (e.enters hw hN) (by omega)

/-! ## How an integer expression begins -/

theorem IntTerm.tokens_first : ∀ t : IntTerm, ∃ ts, t.tokens = t.first.tokens ++ ts
  | .factor f => ⟨[], (List.append_nil _).symm⟩
  | .mul t f | .div t f => by
    obtain ⟨ts, h⟩ := t.tokens_first
    exact ⟨ts ++ _, by rw [IntTerm.tokens, h, List.append_assoc]; rfl⟩

theorem IntExpr.tokens_first : ∀ e : IntExpr, ∃ ts, e.tokens = e.first.tokens ++ ts
  | .term t => t.tokens_first
  | .add e t | .sub e t => by
    obtain ⟨ts, h⟩ := e.tokens_first
    exact ⟨ts ++ _, by rw [IntExpr.tokens, h, List.append_assoc]; rfl⟩

theorem IntTerm.first_wellKinded : ∀ t : IntTerm, t.WellKinded T → t.first.WellKinded T
  | .factor _, h => h
  | .mul t _, h | .div t _, h => t.first_wellKinded h.1

theorem IntExpr.first_wellKinded : ∀ e : IntExpr, e.WellKinded T → e.first.WellKinded T
  | .term t, h => t.first_wellKinded h
  | .add e _, h | .sub e _, h => e.first_wellKinded h.1

/-- The tokens that an integer or a boolean expression begins with. -/
def OpensExpr : Token → Prop
  | .int _ | .ident _ | .keyword .true | .keyword .false => True
  | .symbol .minus | .symbol .bang | .symbol .openParen => True
  | _ => False

theorem IntExpr.tokens_eq_cons (e : IntExpr) : ∃ t ts, e.tokens = t :: ts ∧ OpensExpr t := by
  obtain ⟨ts, h⟩ := e.tokens_first
  rw [h]
  cases e.first <;> exact ⟨_, _, rfl, trivial⟩

/-- An integer expression that does not begin with a bracket is the left side of a comparison where
a boolean factor is due. -/
theorem IntExpr.opens_comparison (e : IntExpr) (hw : e.WellKinded T) (hg : ¬ e.first.IsGroup)
    {n : Nat} {us : List Token} {q : Parse BoolFactor} {F : Token → Prop}
    (h : Reads (comparison T n) (e.tokens ++ us) q F) :
    Reads (boolFactor T (n + 1)) (e.tokens ++ us) q F := by
  have hfirst := e.first_wellKinded hw
  obtain ⟨ts, heq⟩ := e.tokens_first
  rw [heq, List.append_assoc] at h ⊢
  cases hf : e.first with
  | const v =>
    rw [hf] at h
    exact .step (.peek h)
  | var x =>
    rw [hf] at h hfirst
    have hk : T.kindOf? x ≠ some .boolean := fun hk => by
      simp [IntFactor.WellKinded, HasGrammar, hk, Kind.grammar] at hfirst
    refine .step (.peek ?_)
    dsimp only
    rw [if_neg hk]
    exact h
  | field x f =>
    rw [hf] at h hfirst
    have hk : T.kindOf? x ≠ some .boolean := by
      rw [hfirst.1]
      decide
    refine .step (.peek ?_)
    dsimp only
    rw [if_neg hk]
    exact h
  | neg f =>
    rw [hf] at h
    exact .step (.peek h)
  | group e =>
    rw [hf] at hg
    exact absurd trivial hg

/-! ## Booleans -/

theorem boolFactors_finish (t : BoolTerm) (m : Nat) :
    Reads (boolFactors T (m + 1) t) [] (pure t) (Past boolTermOps) :=
  .step (.decline .refl fun _ hu => hu .amp (by decide))

theorem boolTerms_finish (e : BoolExpr) (m : Nat) :
    Reads (boolTerms T (m + 1) e) [] (pure e) (Past boolOps) :=
  .step (.decline .refl fun _ hu => hu .pipe (by decide))

theorem BoolTerm.reads_of_enters {t : BoolTerm} {N : Nat}
    (ht : Enters N (boolTerm T N) t.tokens (boolFactors T · t) (Past intOps))
    (hN : t.tokens.length + 1 < N) : Reads (boolTerm T N) t.tokens (pure t) (Past boolTermOps) :=
  ht.finish hN (boolFactors_finish t) fun _ => .of_subset (by decide)

theorem BoolExpr.reads_of_enters {e : BoolExpr} {N : Nat}
    (he : Enters N (boolExpr T N) e.tokens (boolTerms T · e) (Past boolTermOps))
    (hN : e.tokens.length + 1 < N) : Reads (boolExpr T N) e.tokens (pure e) (Past boolOps) :=
  he.finish hN (boolTerms_finish e) fun _ => .of_subset (by decide)

theorem comparisonOf?_symbol (op : Comparison) : comparisonOf? (.symbol op.symbol) = some op := by
  cases op <;> rfl

theorem comparison_reads {op : Comparison} {l r : IntExpr} {n : Nat} (hl : l.WellKinded T)
    (hr : r.WellKinded T) (hln : 2 * l.tokens.length + 3 ≤ n) (hrn : 2 * r.tokens.length + 3 ≤ n) :
    Reads (comparison T n) (l.tokens ++ .symbol op.symbol :: r.tokens) (pure (.compare op l r))
      (Past intOps) := by
  have hop : Past intOps (.symbol op.symbol) := by cases op <;> decide
  refine .step ((l.reads hl hln).bind (.next ?_) fun _ _ => hop)
  rw [comparisonOf?_symbol]
  exact (r.reads hr hrn).map fun _ _ => .refl

mutual

theorem BoolExpr.enters : ∀ (e : BoolExpr) {N : Nat}, e.WellKinded T → e.Expressible →
    2 * e.tokens.length + 4 ≤ N →
      Enters N (boolExpr T N) e.tokens (boolTerms T · e) (Past boolTermOps)
  | .term t, n + 1, hw, he, hN => by
    simp only [BoolExpr.tokens] at hN
    have ht := BoolTerm.reads_of_enters (t.enters (N := n) hw he (by omega)) (by omega)
    exact .start (.step (ht.map fun _ _ => .refl))
  | .or e t, N, hw, he, hN => by
    simp only [BoolExpr.tokens, List.length_append, List.length_cons] at hN
    refine (e.enters hw.1 he.1 (by omega)).turn (by omega) (by decide) fun m hm => ?_
    have ht := BoolTerm.reads_of_enters (t.enters (N := m) hw.2 he.2 (by omega)) (by omega)
    exact .step (.accept (ht.map fun _ _ => .refl))

theorem BoolTerm.enters : ∀ (t : BoolTerm) {N : Nat}, t.WellKinded T → t.Expressible →
    2 * t.tokens.length + 3 ≤ N →
      Enters N (boolTerm T N) t.tokens (boolFactors T · t) (Past intOps)
  | .factor f, n + 1, hw, he, hN => by
    simp only [BoolTerm.tokens] at hN
    have hf := f.reads (N := n) hw he (by omega)
    exact .start (.step (hf.map fun _ _ => .refl))
  | .and t f, N, hw, he, hN => by
    simp only [BoolTerm.tokens, List.length_append, List.length_cons] at hN
    refine (t.enters hw.1 he.1 (by omega)).turn (by omega) (by decide) fun m hm => ?_
    have hf := f.reads (N := m) hw.2 he.2 (by omega)
    exact .step (.accept (hf.map fun _ _ => .refl))

theorem BoolFactor.reads : ∀ (f : BoolFactor) {N : Nat}, f.WellKinded T → f.Expressible →
    2 * f.tokens.length + 2 ≤ N → Reads (boolFactor T N) f.tokens (pure f) (Past intOps)
  | .const true, n + 1, _, _, _ => .step (.peek (.next .refl))
  | .const false, n + 1, _, _, _ => .step (.peek (.next .refl))
  | .var x, n + 1, hw, _, _ => by
    have hk : T.kindOf? x = some .boolean := kindOf?_of_hasGrammar hw fun k => by
      cases k <;> decide
    refine .step (.peek ?_)
    dsimp only
    rw [if_pos hk]
    exact .next .refl
  | .not f, n + 1, hw, he, hN => by
    simp only [BoolFactor.tokens, List.length_cons] at hN
    have hf := f.reads (N := n) hw he (by omega)
    exact .step (.peek (.next (hf.map fun _ _ => .refl)))
  | .group e, n + 1, hw, he, hN => by
    simp only [BoolFactor.tokens, bracketed, List.length_append, List.length_cons] at hN
    have he := BoolExpr.reads_of_enters (e.enters (N := n) hw he (by omega)) (by omega)
    have hclose : Past boolOps (.symbol .closeParen) := by decide
    exact .step (.peek (.next (he.bind (.expect .refl) fun _ _ => hclose)))
  | .compare op l r, n + 1, hw, he, hN => by
    simp only [BoolFactor.tokens, List.length_append, List.length_cons] at hN
    exact l.opens_comparison hw.1 he.2.2 (comparison_reads hw.1 hw.2 (by omega) (by omega))

end

theorem BoolExpr.reads (e : BoolExpr) {N : Nat} (hw : e.WellKinded T) (he : e.Expressible)
    (hN : 2 * e.tokens.length + 4 ≤ N) : Reads (boolExpr T N) e.tokens (pure e) (Past boolOps) :=
  reads_of_enters (e.enters hw he hN) (by omega)

mutual

theorem BoolExpr.tokens_eq_cons : ∀ e : BoolExpr, ∃ t ts, e.tokens = t :: ts ∧ OpensExpr t
  | .term t => t.tokens_eq_cons
  | .or e _ => by
    obtain ⟨t, ts, h, ht⟩ := e.tokens_eq_cons
    exact ⟨t, ts ++ _, by rw [BoolExpr.tokens, h]; rfl, ht⟩

theorem BoolTerm.tokens_eq_cons : ∀ e : BoolTerm, ∃ t ts, e.tokens = t :: ts ∧ OpensExpr t
  | .factor f => f.tokens_eq_cons
  | .and e _ => by
    obtain ⟨t, ts, h, ht⟩ := e.tokens_eq_cons
    exact ⟨t, ts ++ _, by rw [BoolTerm.tokens, h]; rfl, ht⟩

theorem BoolFactor.tokens_eq_cons : ∀ f : BoolFactor, ∃ t ts, f.tokens = t :: ts ∧ OpensExpr t
  | .const true | .const false | .var _ | .not _ | .group _ => ⟨_, _, rfl, trivial⟩
  | .compare _ l _ => by
    obtain ⟨t, ts, h, ht⟩ := l.tokens_eq_cons
    exact ⟨t, ts ++ _, by rw [BoolFactor.tokens, h]; rfl, ht⟩

end

/-! ## Bit sets -/

theorem bitsTerms_finish (e : BitsExpr) (m : Nat) :
    Reads (bitsTerms T (m + 1) e) [] (pure e) (Past [.plus]) :=
  .step (.decline .refl fun _ hu => hu .plus (by decide))

theorem intList_reads : ∀ (es : List IntExpr) {N : Nat}, (∀ e ∈ es, e.WellKinded T) →
    2 * (commaSeparated (es.map IntExpr.tokens)).length + 4 ≤ N →
      Reads (intList T N) (commaSeparated (es.map IntExpr.tokens)) (pure es)
        (· = .symbol .closeBracket)
  | [], n + 1, _, _ => .step (.peek_behind fun u hu => by rw [if_pos hu]; exact .refl)
  | [e], n + 1, hw, hN => by
    simp only [List.map, commaSeparated] at hN ⊢
    have he := e.reads (N := n) (hw e (by simp)) (by omega)
    have hlast : ∀ u, u = .symbol .closeBracket → Past intOps u := by
      rintro _ rfl
      decide
    obtain ⟨t, ts, heq, ht⟩ := e.tokens_eq_cons
    refine .step (.peek_of heq ?_)
    rw [if_neg (by rintro rfl; exact ht)]
    refine (he.weaken hlast).map fun u hu => .decline .refl ?_
    rintro _ rfl
    rw [hu]
    nofun
  | e :: e' :: es, n + 1, hw, hN => by
    obtain ⟨hwe, hwes⟩ := List.forall_mem_cons.1 hw
    simp only [List.map, commaSeparated, List.length_append, List.length_cons] at hN
    have he := e.reads (N := n) hwe (by omega)
    have hes := intList_reads (e' :: es) (N := n) hwes (by simp only [List.map]; omega)
    have hcomma : Past intOps (.symbol .comma) := by decide
    obtain ⟨t, ts, heq, ht⟩ := e.tokens_eq_cons
    refine .step (.peek_of (congrArg (· ++ _) heq) ?_)
    rw [if_neg (by rintro rfl; exact ht)]
    exact he.bind (.accept (hes.map fun _ _ => .refl)) fun _ _ => hcomma

mutual

theorem BitsExpr.enters : ∀ (e : BitsExpr) {N : Nat}, e.WellKinded T →
    2 * e.tokens.length + 3 ≤ N →
      Enters N (bitsExpr T N) e.tokens (bitsTerms T · e) fun _ => True
  | .term t, n + 1, hw, hN => by
    simp only [BitsExpr.tokens] at hN
    have ht := t.reads (N := n) hw (by omega)
    exact .start (.step (ht.map fun _ _ => .refl))
  | .union e t, N, hw, hN => by
    simp only [BitsExpr.tokens, List.length_append, List.length_cons] at hN
    refine (e.enters hw.1 (by omega)).turn (by omega) trivial fun m hm => ?_
    have ht := t.reads (N := m) hw.2 (by omega)
    exact .step (.accept (ht.map fun _ _ => .refl))

theorem BitsTerm.reads : ∀ (t : BitsTerm) {N : Nat}, t.WellKinded T →
    2 * t.tokens.length + 2 ≤ N → Reads (bitsTerm T N) t.tokens (pure t) fun _ => True
  | .set es, n + 1, hw, hN => by
    simp only [BitsTerm.tokens, List.length_append, List.length_cons] at hN
    have hes := intList_reads es (N := n) hw (by omega)
    exact .step (.next (hes.bind (.expect .refl) fun _ _ => rfl))
  | .var x, n + 1, hw, _ => by
    have hk : T.kindOf? x = some .bitset := kindOf?_of_hasGrammar hw fun k => by
      cases k <;> decide
    refine .step (.next ?_)
    dsimp only
    rw [hk]
    exact .refl
  | .group e, n + 1, hw, hN => by
    simp only [BitsTerm.tokens, bracketed, List.length_append, List.length_cons] at hN
    have he := (e.enters (N := n) hw (by omega)).finish (by omega) (bitsTerms_finish e)
      fun _ _ => trivial
    have hclose : Past [.plus] (.symbol .closeParen) := by decide
    exact .step (.next (he.bind (.expect .refl) fun _ _ => hclose))

end

theorem BitsExpr.reads (e : BitsExpr) {N : Nat} (hw : e.WellKinded T)
    (hN : 2 * e.tokens.length + 3 ≤ N) : Reads (bitsExpr T N) e.tokens (pure e) (Past [.plus]) :=
  (e.enters hw hN).finish (by omega) (bitsTerms_finish e) fun _ _ => trivial

/-! ## Strings -/

theorem strTerms_finish (e : StrExpr) (m : Nat) :
    Reads (strTerms T (m + 1) e) [] (pure e) (Past [.plus]) :=
  .step (.decline .refl fun _ hu => hu .plus (by decide))

mutual

theorem StrExpr.enters : ∀ (e : StrExpr) {N : Nat}, e.WellKinded T → e.Expressible →
    2 * e.tokens.length + 3 ≤ N →
      Enters N (strExpr T N) e.tokens (strTerms T · e) fun _ => True
  | .term t, n + 1, hw, he, hN => by
    simp only [StrExpr.tokens] at hN
    have ht := t.reads (N := n) hw he (by omega)
    exact .start (.step (ht.map fun _ _ => .refl))
  | .append e t, N, hw, he, hN => by
    simp only [StrExpr.tokens, List.length_append, List.length_cons] at hN
    refine (e.enters hw.1 he.1 (by omega)).turn (by omega) trivial fun m hm => ?_
    have ht := t.reads (N := m) hw.2 he.2 (by omega)
    exact .step (.accept (ht.map fun _ _ => .refl))

theorem StrTerm.reads : ∀ (t : StrTerm) {N : Nat}, t.WellKinded T → t.Expressible →
    2 * t.tokens.length + 2 ≤ N → Reads (strTerm T N) t.tokens (pure t) fun _ => True
  | .literal s, n + 1, _, _, _ => .step (.next .refl)
  | .var x, n + 1, hw, _, _ => by
    obtain ⟨k, hk, hg⟩ := Option.map_eq_some_iff.1 hw
    refine .step (.next ?_)
    dsimp only
    rw [hk]
    dsimp only
    rw [if_pos hg]
    exact .refl
  | .group e, n + 1, hw, he, hN => by
    simp only [StrTerm.tokens, bracketed, List.length_append, List.length_cons] at hN
    have he := (e.enters (N := n) hw he (by omega)).finish (by omega) (strTerms_finish e)
      fun _ _ => trivial
    have hclose : Past [.plus] (.symbol .closeParen) := by decide
    exact .step (.next (he.bind (.expect .refl) fun _ _ => hclose))
  | .ofInt e, n + 1, hw, he, hN => by
    simp only [StrTerm.tokens, bracketed, List.length_append, List.length_cons] at hN
    have he := e.reads (N := n) hw (by omega)
    have hclose : Past intOps (.symbol .closeParen) := by decide
    exact .step (.next (.expect (he.bind (.expect .refl) fun _ _ => hclose)))
  | .ofBool e, n + 1, hw, he, hN => by
    simp only [StrTerm.tokens, bracketed, List.length_append, List.length_cons] at hN
    have he := e.reads (N := n) hw he (by omega)
    have hclose : Past boolOps (.symbol .closeParen) := by decide
    exact .step (.next (.expect (he.bind (.expect .refl) fun _ _ => hclose)))
  | .ofBits e, n + 1, hw, he, hN => by
    simp only [StrTerm.tokens, bracketed, List.length_append, List.length_cons] at hN
    have he := e.reads (N := n) hw (by omega)
    have hclose : Past [.plus] (.symbol .closeParen) := by decide
    exact .step (.next (.expect (he.bind (.expect .refl) fun _ _ => hclose)))

end

theorem StrExpr.reads (e : StrExpr) {N : Nat} (hw : e.WellKinded T) (he : e.Expressible)
    (hN : 2 * e.tokens.length + 3 ≤ N) : Reads (strExpr T N) e.tokens (pure e) (Past [.plus]) :=
  (e.enters hw he hN).finish (by omega) (strTerms_finish e) fun _ _ => trivial

end ScriptedAgent.Script
