import ScriptedAgent.Proofs.Script.RoundTrip

/-!
# Comparisons that begin with a bracket

Where a condition is due, a bracket opens a boolean group, and what is in it goes on to be read as
one. If it is the left side of a comparison there is no comparison operator in front of its closing
bracket, and the parser stops there (`IntExpr.stops_of_isGroup`). So a comparison is parsed exactly
if its left side begins with no bracket (`Program.parse_compared_iff`).
-/

namespace ScriptedAgent.Script

open Parse Lexer

variable {T : TypeTable}

/-! ## Expressions -/

/-- `p` takes a token of `ts` or more and stops with this fault, whatever follows. -/
def Parse.Stops {α : Type} (p : Parse α) (ts : List Token) (e : ParseFault) : Prop :=
  ∃ u us vs, ts = u :: us ++ vs ∧ Reads p (u :: us) (missing e) fun _ => True

theorem Parse.Stops.append {α : Type} {p : Parse α} {ts : List Token} {e : ParseFault}
    (h : Stops p ts e) (ws : List Token) : Stops p (ts ++ ws) e := by
  obtain ⟨u, us, vs, rfl, hread⟩ := h
  exact ⟨u, us, vs ++ ws, by rw [List.append_assoc], hread⟩

/-- The fault of a comparison that ends at a closing bracket. -/
def unclosedComparison : ParseFault := .expected "a comparison operator" (.symbol .closeParen)

theorem boolExpr_stops {n : Nat} {ts : List Token} {e : ParseFault}
    (h : Stops (boolFactor T n) ts e) : Stops (boolExpr T (n + 2)) ts e := by
  obtain ⟨u, us, vs, hts, hread⟩ := h
  exact ⟨u, us, vs, hts, .step (.stop (.step (.stop hread)))⟩

theorem boolExpr_group_stops {n : Nat} {ts : List Token} {e : ParseFault}
    (h : Stops (boolExpr T n) ts e) :
    Stops (boolExpr T (n + 3)) (.symbol .openParen :: ts) e := by
  obtain ⟨u, us, vs, rfl, hread⟩ := h
  exact boolExpr_stops ⟨.symbol .openParen, u :: us, vs, rfl, .step (.peek (.next (.stop hread)))⟩

theorem comparison_stops {l : IntExpr} {n : Nat} (hl : l.WellKinded T)
    (hn : 2 * l.tokens.length + 3 ≤ n) :
    Reads (comparison T n) (l.tokens ++ [.symbol .closeParen]) (missing unclosedComparison)
      fun _ => True := by
  have hclose : Past intOps (.symbol .closeParen) := by decide
  exact .step ((l.reads hl hn).bind (.next .refl) fun _ _ => hclose)

theorem IntExpr.exists_group {l : IntExpr} (hw : l.WellKinded T) (hg : l.first.IsGroup) :
    ∃ (e : IntExpr) (ts : List Token), e.WellKinded T ∧
      l.tokens = .symbol .openParen :: (e.tokens ++ [.symbol .closeParen]) ++ ts := by
  have hfirst := l.first_wellKinded hw
  obtain ⟨ts, h⟩ := l.tokens_first
  cases hf : l.first with
  | group e =>
    rw [hf] at hfirst h
    exact ⟨e, ts, hfirst, h⟩
  | _ =>
    rw [hf] at hg
    exact hg.elim

/-- Behind an opening bracket an integer expression up to the closing one is no condition: where it
begins with brackets itself, those are opened first. -/
theorem IntExpr.stops_closed (e : IntExpr) {N : Nat} (hw : e.WellKinded T)
    (hN : 2 * e.tokens.length + 6 ≤ N) :
    Stops (boolExpr T N) (e.tokens ++ [.symbol .closeParen]) unclosedComparison := by
  obtain ⟨n, rfl⟩ : ∃ n, N = n + 3 := ⟨N - 3, by omega⟩
  by_cases hg : e.first.IsGroup
  · obtain ⟨e', ts, hw', heq⟩ := exists_group hw hg
    have hlength := congrArg List.length heq
    simp only [List.length_append, List.length_cons] at hlength
    have hstops := e'.stops_closed (N := n) hw' (by omega)
    rw [heq, List.append_assoc]
    exact (boolExpr_group_stops hstops).append _
  · have hread := e.opens_comparison hw hg (comparison_stops (n := n) hw (by omega))
    obtain ⟨t, ts, heq, -⟩ := e.tokens_eq_cons
    rw [heq, List.cons_append] at hread ⊢
    exact boolExpr_stops ⟨t, ts ++ [.symbol .closeParen], [], (List.append_nil _).symm, hread⟩
termination_by e.tokens.length
decreasing_by simp only [heq, List.length_append, List.length_cons]; omega

/-- An integer expression that begins with a bracket is no left side of a condition. -/
theorem IntExpr.stops_of_isGroup (l : IntExpr) {N : Nat} (hw : l.WellKinded T)
    (hg : l.first.IsGroup) (hN : 2 * l.tokens.length + 5 ≤ N) :
    Stops (boolExpr T N) l.tokens unclosedComparison := by
  obtain ⟨n, rfl⟩ : ∃ n, N = n + 3 := ⟨N - 3, by omega⟩
  obtain ⟨e, ts, hwe, heq⟩ := exists_group hw hg
  have hlength := congrArg List.length heq
  simp only [List.length_append, List.length_cons] at hlength
  rw [heq]
  exact (boolExpr_group_stops (e.stops_closed (N := n) hwe (by omega))).append ts

/-! ## Places for a condition -/

/-- A comparison as a condition. -/
def compared (l : IntExpr) (op : Comparison) (r : IntExpr) : BoolExpr :=
  .term (.factor (.compare op l r))

theorem compared_tokens (l : IntExpr) (op : Comparison) (r : IntExpr) :
    (compared l op r).tokens = l.tokens ++ .symbol op.symbol :: r.tokens := rfl

theorem compared_stops {l r : IntExpr} {op : Comparison} (hl : l.WellKinded T)
    (hg : l.first.IsGroup) {n : Nat} (hn : 2 * (compared l op r).tokens.length + 1 ≤ n) :
    Stops (boolExpr T n) (compared l op r).tokens unclosedComparison := by
  obtain ⟨t, ts, heq, -⟩ := r.tokens_eq_cons
  simp only [compared_tokens, heq, List.length_append, List.length_cons] at hn
  exact (l.stops_of_isGroup hl hg (by omega)).append _

def elseifs : List (BoolExpr × List Stmt) → Branches → Branches
  | [], rest => rest
  | (cond, body) :: arms, rest => .elseif cond body (elseifs arms rest)

/-- A statement without one of its conditions. -/
inductive Place where
  | assigned (name : String)
  | ifArm (body : List Stmt) (rest : Branches)
  /-- Behind the first arm of a branch and any number of others. -/
  | elseifArm (cond : BoolExpr) (body : List Stmt) (arms : List (BoolExpr × List Stmt))
    (arm : List Stmt) (rest : Branches)
  | whileLoop (body : List Stmt)

/-- The statement with a condition in this place. -/
def Place.stmt : Place → BoolExpr → Stmt
  | assigned x, c => .assign (.var x) (.bool c)
  | ifArm body rest, c => .branch c body rest
  | elseifArm cond body arms arm rest, c => .branch cond body (elseifs arms (.elseif c arm rest))
  | whileLoop body, c => .loop (.while c) body

/-- The rest of the statement fits the table and can be written: it does so with `true` here. -/
structure Place.Fits (T : TypeTable) (pl : Place) : Prop where
  wellKinded : (pl.stmt (.term (.factor (.const true)))).WellKinded T
  expressible : (pl.stmt (.term (.factor (.const true)))).Expressible

section

variable {c c' : BoolExpr} {e : ParseFault} {arm : List Stmt} {rest : Branches}

theorem elseifs_wellKinded (hc : c.WellKinded T) : ∀ arms : List (BoolExpr × List Stmt),
    (elseifs arms (.elseif c' arm rest)).WellKinded T →
      (elseifs arms (.elseif c arm rest)).WellKinded T
  | [], hw => ⟨hc, hw.2⟩
  | _ :: arms, hw => ⟨hw.1, hw.2.1, elseifs_wellKinded hc arms hw.2.2⟩

theorem elseifs_expressible (hc : c.Expressible) : ∀ arms : List (BoolExpr × List Stmt),
    (elseifs arms (.elseif c' arm rest)).Expressible →
      (elseifs arms (.elseif c arm rest)).Expressible
  | [], he => ⟨hc, he.2⟩
  | _ :: arms, he => ⟨he.1, he.2.1, elseifs_expressible hc arms he.2.2⟩

namespace Place.Fits

variable {pl : Place}

theorem stmt_wellKinded (h : pl.Fits T) (hc : c.WellKinded T) : (pl.stmt c).WellKinded T := by
  have hw := h.wellKinded
  cases pl with
  | assigned x =>
    obtain ⟨g, hx, hg, -⟩ := hw
    exact ⟨g, hx, hg, hc⟩
  | ifArm body rest => exact ⟨hc, hw.2⟩
  | elseifArm cond body arms arm rest =>
    exact ⟨hw.1, hw.2.1, elseifs_wellKinded hc arms hw.2.2⟩
  | whileLoop body => exact ⟨hc, hw.2⟩

theorem stmt_expressible (h : pl.Fits T) (hc : c.Expressible) : (pl.stmt c).Expressible := by
  have he := h.expressible
  cases pl with
  | assigned x => exact hc
  | ifArm body rest => exact ⟨hc, he.2⟩
  | elseifArm cond body arms arm rest =>
    exact ⟨he.1, he.2.1, elseifs_expressible hc arms he.2.2⟩
  | whileLoop body => exact ⟨hc, he.2⟩

end Place.Fits

/-! ## Statements -/

theorem elseifs_stops
    (hc : ∀ {n}, 2 * c.tokens.length + 1 ≤ n → Stops (boolExpr T n) c.tokens e) :
    ∀ (arms : List (BoolExpr × List Stmt)) {N : Nat},
      (elseifs arms (.elseif c' arm rest)).WellKinded T →
      (elseifs arms (.elseif c' arm rest)).Expressible →
      2 * (ended (elseifs arms (.elseif c arm rest)).lines).length ≤ N →
      ∃ us vs, ended (elseifs arms (.elseif c arm rest)).lines = .keyword .elseif :: us ++ vs ∧
        Reads (branches T N) (.keyword .elseif :: us) (missing e) fun _ => True
  | [], N, _, _, hN => by
    rw [elseifs, ended_elseif] at hN ⊢
    simp only [List.length_append, List.length_cons] at hN
    obtain ⟨n, rfl⟩ : ∃ n, N = n + 1 := ⟨N - 1, by omega⟩
    obtain ⟨u, us, vs, hus, hread⟩ := hc (n := n) (by omega)
    exact ⟨u :: us, _, by rw [hus, List.append_assoc]; rfl, .step (.next (.stop hread))⟩
  | (cond, body) :: arms, N, hw, he, hN => by
    obtain ⟨hwc, hwb, hwr⟩ := hw
    obtain ⟨hec, heb, her⟩ := he
    rw [elseifs, ended_elseif] at hN ⊢
    simp only [List.length_append, List.length_cons] at hN
    obtain ⟨n, rfl⟩ : ∃ n, N = n + 1 := ⟨N - 1, by omega⟩
    obtain ⟨us, vs, hus, hread⟩ := elseifs_stops hc arms (N := n) hwr her (by omega)
    have hlength := congrArg List.length hus
    simp only [List.length_append, List.length_cons] at hlength
    have hcond := cond.reads (N := n) hwc hec (by omega)
    have hbody := block_reads body (N := n) hwb heb (by omega)
    refine ⟨cond.tokens ++ .newline :: (ended (blockLines body) ++ .keyword .elseif :: us), vs,
      by simp [hus], ?_⟩
    exact .step (.next (arm_reads hcond hbody rfl (.stop hread)))

/-- A statement stops where its condition does. -/
theorem Place.Fits.stops {pl : Place} (h : pl.Fits T)
    (hc : ∀ {n}, 2 * c.tokens.length + 1 ≤ n → Stops (boolExpr T n) c.tokens e) {N : Nat}
    (hN : 2 * (ended (pl.stmt c).lines).length ≤ N) :
    Stops (statement T N) (ended (pl.stmt c).lines) e := by
  have hw := h.wellKinded
  have he := h.expressible
  cases pl with
  | assigned x =>
    obtain ⟨g, hx, rfl, -⟩ := hw
    obtain ⟨k, hk, hg⟩ := Option.map_eq_some_iff.1 hx
    rw [Place.stmt, Stmt.lines, ended_singleton] at hN ⊢
    simp only [Target.tokens, Expr.tokens, List.length_append, List.length_cons] at hN
    obtain ⟨n, rfl⟩ : ∃ n, N = n + 1 := ⟨N - 1, by omega⟩
    obtain ⟨u, us, vs, hus, hread⟩ := hc (n := n) (by omega)
    refine ⟨.ident x, .symbol .equal :: u :: us, vs ++ [.newline],
      by simp [Target.tokens, Expr.tokens, hus], .step (.peek (.step (.expectIdent ?_)))⟩
    rw [hk]
    dsimp only
    rw [hg]
    have hequal : Token.symbol .equal ≠ .symbol .colon := by decide
    exact .decline (.expect (.stop (.stop hread))) fun _ _ => hequal
  | ifArm body rest =>
    rw [Place.stmt, ended_branch] at hN ⊢
    simp only [List.length_append, List.length_cons] at hN
    obtain ⟨n, rfl⟩ : ∃ n, N = n + 2 := ⟨N - 2, by omega⟩
    obtain ⟨u, us, vs, hus, hread⟩ := hc (n := n) (by omega)
    exact ⟨.keyword .if, u :: us, _, by rw [hus, List.append_assoc]; rfl,
      .step (.peek (.next (.step (.stop hread))))⟩
  | elseifArm cond body arms arm rest =>
    obtain ⟨hwc, hwb, hwr⟩ := hw
    obtain ⟨hec, heb, her⟩ := he
    rw [Place.stmt, ended_branch] at hN ⊢
    simp only [List.length_append, List.length_cons] at hN
    obtain ⟨n, rfl⟩ : ∃ n, N = n + 2 := ⟨N - 2, by omega⟩
    obtain ⟨us, vs, hus, hread⟩ := elseifs_stops hc arms (N := n) hwr her (by omega)
    have hlength := congrArg List.length hus
    simp only [List.length_append, List.length_cons] at hlength
    have hcond := cond.reads (N := n) hwc hec (by omega)
    have hbody := block_reads body (N := n) hwb heb (by omega)
    refine ⟨.keyword .if, cond.tokens ++ .newline :: (ended (blockLines body) ++
      .keyword .elseif :: us), vs, by simp [hus], ?_⟩
    exact .step (.peek (.next (.step (arm_reads hcond hbody rfl (.stop hread)))))
  | whileLoop body =>
    rw [Place.stmt, ended_loop] at hN ⊢
    simp only [LoopControl.tokens, List.length_append, List.length_cons] at hN
    obtain ⟨n, rfl⟩ : ∃ n, N = n + 2 := ⟨N - 2, by omega⟩
    obtain ⟨u, us, vs, hus, hread⟩ := hc (n := n) (by omega)
    obtain ⟨t, ts, heq, ht⟩ := c.tokens_eq_cons
    obtain ⟨rfl, -⟩ := List.cons.inj (heq.symm.trans hus)
    refine ⟨.keyword .loop, t :: us, _, by rw [LoopControl.tokens, hus, List.append_assoc]; rfl, ?_⟩
    refine .step (.peek (.next (.step (.stop (.peek ?_)))))
    split
    · exact ht.elim
    · exact ht.elim
    · exact .stop hread

/-- A block stops where one of its statements does. -/
theorem block_stops {s : Stmt} (after : List Stmt)
    (hs : ∀ {N}, 2 * (ended s.lines).length ≤ N → Stops (statement T N) (ended s.lines) e) :
    ∀ (before : List Stmt) {N : Nat}, BlockWellKinded T before → BlockExpressible before →
      2 * (ended (blockLines (before ++ s :: after))).length + 1 ≤ N →
      Stops (block T N) (ended (blockLines (before ++ s :: after))) e
  | [], N, _, _, hN => by
    rw [List.nil_append, ended_block_cons] at hN ⊢
    simp only [List.length_append] at hN
    obtain ⟨n, rfl⟩ : ∃ n, N = n + 1 := ⟨N - 1, by omega⟩
    obtain ⟨u, us, vs, hus, hread⟩ := hs (N := n) (by omega)
    obtain ⟨t, ts, heq, hopen, heof⟩ := s.lines_eq_cons
    obtain ⟨rfl, -⟩ := List.cons.inj (heq.symm.trans hus)
    refine ⟨t, us, vs ++ ended (blockLines after), by rw [hus, List.append_assoc], ?_⟩
    refine .step (.peek ?_)
    rw [if_neg (by simp [hopen]), if_neg heof]
    exact .stop hread
  | s' :: before, N, hw, he, hN => by
    rw [List.cons_append, ended_block_cons] at hN ⊢
    obtain ⟨t, ts, heq, hopen, heof⟩ := s'.lines_eq_cons
    have hlength := congrArg List.length heq
    simp only [List.length_append, List.length_cons] at hN hlength
    obtain ⟨n, rfl⟩ : ∃ n, N = n + 1 := ⟨N - 1, by omega⟩
    obtain ⟨u, us, vs, hus, hread⟩ := block_stops after hs before (N := n) hw.2 he.2 (by omega)
    have hs' := s'.reads (N := n) hw.1 he.1 (by omega)
    refine ⟨t, ts ++ u :: us, vs, by rw [heq, hus]; simp, ?_⟩
    rw [← List.cons_append, ← heq]
    refine .step (.peek_of (congrArg (· ++ _) heq) ?_)
    rw [if_neg (by simp [hopen]), if_neg heof]
    exact hs'.bind (.stop hread) fun _ _ => trivial

/-! ## Lines -/

theorem elseifs_phrase (hT : T.Written) (hc : Phrase c.tokens) :
    ∀ arms : List (BoolExpr × List Stmt), (elseifs arms (.elseif c' arm rest)).WellKinded T →
      (elseifs arms (.elseif c' arm rest)).Expressible →
      ∀ ts ∈ (elseifs arms (.elseif c arm rest)).lines, Phrase ts
  | [], hw, he => List.forall_mem_append.2
    ⟨List.forall_mem_cons.2 ⟨.after .elseif hc, block_phrase hT arm hw.2.1 he.2.1⟩,
      rest.phrase hT hw.2.2 he.2.2⟩
  | (cond, body) :: arms, hw, he => List.forall_mem_append.2
    ⟨List.forall_mem_cons.2 ⟨.after .elseif (cond.phrase hT hw.1 he.1),
      block_phrase hT body hw.2.1 he.2.1⟩, elseifs_phrase hT hc arms hw.2.2 he.2.2⟩

theorem branch_phrase {body : List Stmt} (hc : Phrase c.tokens)
    (hb : ∀ ts ∈ blockLines body, Phrase ts) (hr : ∀ ts ∈ rest.lines, Phrase ts) :
    ∀ ts ∈ (Stmt.branch c body rest).lines, Phrase ts :=
  List.forall_mem_append.2 ⟨List.forall_mem_cons.2 ⟨.after .if hc, hb⟩, hr⟩

theorem Place.Fits.phrase (hT : T.Written) {pl : Place} (h : pl.Fits T) (hc : Phrase c.tokens) :
    ∀ ts ∈ (pl.stmt c).lines, Phrase ts := by
  have hw := h.wellKinded
  have he := h.expressible
  cases pl with
  | assigned x =>
    obtain ⟨g, hx, -⟩ := hw
    exact List.forall_mem_singleton.2 ((phrase_var hT hx).infixed (fun _ => rfl) hc)
  | ifArm body rest =>
    exact branch_phrase hc (block_phrase hT body hw.2.1 he.2.1) (rest.phrase hT hw.2.2 he.2.2)
  | elseifArm cond body arms arm rest =>
    exact branch_phrase (cond.phrase hT hw.1 he.1) (block_phrase hT body hw.2.1 he.2.1)
      (elseifs_phrase hT hc arms hw.2.2 he.2.2)
  | whileLoop body =>
    have hlines : ∀ ts ∈ (.keyword .loop :: c.tokens) :: blockLines body, Phrase ts :=
      List.forall_mem_cons.2 ⟨.after .loop hc, block_phrase hT body hw.2 he.2⟩
    exact List.forall_mem_append.2 ⟨hlines, List.forall_mem_singleton.2 (.keyword .endloop)⟩

end

theorem compared_phrase {l r : IntExpr} (op : Comparison) (hT : T.Written) (hl : l.WellKinded T)
    (hr : r.WellKinded T) (hle : l.Expressible) (hre : r.Expressible) :
    Phrase (compared l op r).tokens :=
  (l.phrase hT hl hle).infixed op.symbol_depth (r.phrase hT hr hre)

/-! ## Scripts -/

theorem blockLines_append : ∀ xs ys : List Stmt,
    blockLines (xs ++ ys) = blockLines xs ++ blockLines ys
  | [], _ => rfl
  | s :: xs, ys => by
    rw [List.cons_append, blockLines, blockLines, blockLines_append xs ys, List.append_assoc]

theorem blockWellKinded_append : ∀ {xs ys : List Stmt},
    BlockWellKinded T xs → BlockWellKinded T ys → BlockWellKinded T (xs ++ ys)
  | [], _, _, h => h
  | _ :: _, _, hx, hy => ⟨hx.1, blockWellKinded_append hx.2 hy⟩

theorem blockExpressible_append : ∀ {xs ys : List Stmt},
    BlockExpressible xs → BlockExpressible ys → BlockExpressible (xs ++ ys)
  | [], _, _, h => h
  | _ :: _, _, hx, hy => ⟨hx.1, blockExpressible_append hx.2 hy⟩

namespace Program

theorem parse_eq_error {text base : String} {e : ParseFault} {c : Cursor}
    (h : read (baseOid base) (16 * ((stream text).tokens.length + 1)) (.ofStream (stream text)) =
      missing e c) : parse text base = .error (.parse c.previous e) := by
  have hreading : reading text base =
      (.error (.fault (.parse c.previous e)), { c with steps := c.steps + 1 }) := h
  unfold parse
  rw [hreading]

theorem read_eq_missing {base : String} {n : Nat} {e : ParseFault} {ds bs : List Token}
    {c : Cursor} (hd : Reads (declarations base n) ds (pure T) (· = .keyword .run))
    (hb : Stops (block T n) bs e)
    (ha : c.ahead = ds ++ .keyword .run :: .newline :: (bs ++ [.keyword .endrun, .newline])) :
    ∃ c', read base n c = missing e c' := by
  obtain ⟨u, us, vs, rfl, hread⟩ := hb
  have hstop : Reads (read base n) (ds ++ .keyword .run :: .newline :: u :: us) (missing e)
      fun _ => True :=
    .step (hd.bind (.expect (.expect (.stop hread))) fun _ _ => rfl)
  obtain ⟨v, rest, hrest⟩ : ∃ v rest, vs ++ [.keyword .endrun, .newline] = v :: rest := by
    cases vs <;> exact ⟨_, _, rfl⟩
  obtain ⟨c', -, -, heq⟩ := hstop c v rest (by simp [ha, hrest]) trivial
  exact ⟨c', heq⟩

section

variable {decls base : String} {pl : Place} {before after : List Stmt} {l r : IntExpr}
  (op : Comparison) (hdecls : OpensLine decls.toList)
  (hparse : parse (decls ++ runText []) base = .ok ⟨T, []⟩) (hpl : pl.Fits T)
  (hbefore : BlockWellKinded T before ∧ BlockExpressible before)
  (hafter : BlockWellKinded T after ∧ BlockExpressible after)
  (hl : l.WellKinded T ∧ l.Expressible) (hr : r.WellKinded T ∧ r.Expressible)

include hdecls hparse hpl hbefore hafter hl hr

theorem parse_compared_of_group (hg : l.first.IsGroup) :
    ∃ line, parse (decls ++ runText (before ++ pl.stmt (compared l op r) :: after)) base =
      .error (.parse line unclosedComparison) := by
  have hphrase (hT : T.Written) :
      ∀ ts ∈ blockLines (before ++ pl.stmt (compared l op r) :: after), Phrase ts := by
    have hc := compared_phrase op hT hl.1 hr.1 hl.2 hr.2
    rw [blockLines_append]
    exact List.forall_mem_append.2 ⟨block_phrase hT before hbefore.1 hbefore.2,
      List.forall_mem_append.2 ⟨hpl.phrase hT hc, block_phrase hT after hafter.1 hafter.2⟩⟩
  obtain ⟨ds, k, hreads, hn, ha, -⟩ := exists_ahead hdecls hparse hphrase rfl
  have hblock :=
    block_stops after (hpl.stops (compared_stops hl.1 hg)) before hbefore.1 hbefore.2 hn
  obtain ⟨c, h⟩ := read_eq_missing hreads hblock ha
  exact ⟨c.previous, parse_eq_error h⟩

theorem parse_compared_of_not_group (hg : ¬ l.first.IsGroup) :
    parse (decls ++ runText (before ++ pl.stmt (compared l op r) :: after)) base =
      .ok ⟨T, before ++ pl.stmt (compared l op r) :: after⟩ := by
  have hw : BlockWellKinded T (before ++ pl.stmt (compared l op r) :: after) :=
    blockWellKinded_append hbefore.1 ⟨hpl.stmt_wellKinded ⟨hl.1, hr.1⟩, hafter.1⟩
  have he : BlockExpressible (before ++ pl.stmt (compared l op r) :: after) :=
    blockExpressible_append hbefore.2 ⟨hpl.stmt_expressible ⟨hl.2, hr.2, hg⟩, hafter.2⟩
  obtain ⟨ds, k, hreads, hn, ha, hend⟩ :=
    exists_ahead hdecls hparse (fun hT => block_phrase hT _ hw he) rfl
  exact parse_eq_ok_iff.2 (read_eq_ok hreads (block_reads _ hw he hn) ha hend)

/-- Among the statements of a script, a comparison as a condition is parsed as that comparison
exactly if its left side does not begin with a bracket. Otherwise the script is refused. -/
theorem parse_compared_iff :
    (parse (decls ++ runText (before ++ pl.stmt (compared l op r) :: after)) base =
      .ok ⟨T, before ++ pl.stmt (compared l op r) :: after⟩ ↔ ¬ l.first.IsGroup) ∧
    (l.first.IsGroup →
      ∃ line, parse (decls ++ runText (before ++ pl.stmt (compared l op r) :: after)) base =
        .error (.parse line unclosedComparison)) := by
  have hstop := parse_compared_of_group op hdecls hparse hpl hbefore hafter hl hr
  refine ⟨⟨fun h hg => ?_, ?_⟩, hstop⟩
  · obtain ⟨line, hline⟩ := hstop hg
    rw [h] at hline
    cases hline
  · exact parse_compared_of_not_group op hdecls hparse hpl hbefore hafter hl hr

end

/-- `( n ) * 2` -/
def sampleProduct : IntExpr :=
  .term (.mul (.factor (.group (.term (.factor (.var "n"))))) (.const 2))

/-- A second arm, the condition of which is missing. -/
def samplePlace : Place := .elseifArm (.term (.factor (.var "b"))) [] [] [.exit] (.otherwise [])

/-- The product in brackets is no left side, but it is a right side. -/
theorem parse_compared_iff_product : ∃ T,
    parse ("var\n n: integer\n b: boolean\nendvar\n" ++ runText []) Oid.mib2 = .ok ⟨T, []⟩ ∧
    (∃ line, parse ("var\n n: integer\n b: boolean\nendvar\n" ++
        runText [samplePlace.stmt (compared sampleProduct .less (.constant 7)), .exit]) Oid.mib2 =
      .error (.parse line unclosedComparison)) ∧
    parse ("var\n n: integer\n b: boolean\nendvar\n" ++
        runText [samplePlace.stmt (compared (.constant 7) .less sampleProduct), .exit]) Oid.mib2 =
      .ok ⟨T, [samplePlace.stmt (compared (.constant 7) .less sampleProduct), .exit]⟩ := by
  obtain ⟨⟨T, body⟩, hp, h⟩ := exists_parse
    ("var\n n: integer\n b: boolean\nendvar\n" ++ runText []) Oid.mib2
    (fun p => p.body.isEmpty ∧ HasGrammar p.types "n" .int ∧ HasGrammar p.types "b" .bool)
    (by decide +kernel)
  obtain ⟨hbody, hn, hb⟩ := of_decide_eq_true h
  obtain rfl : body = [] := List.isEmpty_iff.1 hbody
  have hdecls : OpensLine "var\n n: integer\n b: boolean\nendvar\n".toList :=
    WholeLines.opensLine (by decide +kernel)
  have hpl : samplePlace.Fits T := by
    constructor
    · simp [samplePlace, Place.stmt, elseifs, Stmt.WellKinded, Branches.WellKinded,
        BlockWellKinded, BoolExpr.WellKinded, BoolTerm.WellKinded, BoolFactor.WellKinded, hb]
    · simp [samplePlace, Place.stmt, elseifs, Stmt.Expressible, Branches.Expressible,
        BlockExpressible, BoolExpr.Expressible, BoolTerm.Expressible, BoolFactor.Expressible]
  have hproduct : sampleProduct.WellKinded T ∧ sampleProduct.Expressible := by
    simp [sampleProduct, IntExpr.WellKinded, IntTerm.WellKinded, IntFactor.WellKinded,
      IntExpr.Expressible, IntTerm.Expressible, IntFactor.Expressible, hn]
  have hseven : (IntExpr.constant 7).WellKinded T ∧ (IntExpr.constant 7).Expressible := by
    simp [IntExpr.constant, IntExpr.WellKinded, IntTerm.WellKinded, IntFactor.WellKinded,
      IntExpr.Expressible, IntTerm.Expressible, IntFactor.Expressible]
  have hbefore : BlockWellKinded T [] ∧ BlockExpressible [] := ⟨trivial, trivial⟩
  have hafter : BlockWellKinded T [.exit] ∧ BlockExpressible [.exit] :=
    ⟨⟨trivial, trivial⟩, trivial, trivial⟩
  exact ⟨T, hp,
    (parse_compared_iff .less hdecls hp hpl hbefore hafter hproduct hseven).2 trivial,
    (parse_compared_iff .less hdecls hp hpl hbefore hafter hseven hproduct).1.2 id⟩

/-- The grammar has a comparison wherever it has a condition, but `( 1 ) < 2` is none. -/
theorem not_parse_compared : ¬ ∀ (decls base : String) (T : TypeTable) (pl : Place)
    (l r : IntExpr) (op : Comparison), OpensLine decls.toList →
      parse (decls ++ runText []) base = .ok ⟨T, []⟩ → pl.Fits T →
      l.WellKinded T ∧ l.Expressible → r.WellKinded T ∧ r.Expressible → l.first.IsGroup →
      parse (decls ++ runText [pl.stmt (compared l op r)]) base =
        .ok ⟨T, [pl.stmt (compared l op r)]⟩ := by
  intro h
  obtain ⟨⟨T, body⟩, hp, hx⟩ := exists_parse ("var\n b: boolean\nendvar\n" ++ runText []) Oid.mib2
    (fun p => p.body.isEmpty ∧ HasGrammar p.types "b" .bool) (by decide +kernel)
  obtain ⟨hbody, hb⟩ := of_decide_eq_true hx
  obtain rfl : body = [] := List.isEmpty_iff.1 hbody
  have hpl : (Place.assigned "b").Fits T := ⟨⟨.bool, hb, rfl, trivial⟩, trivial⟩
  have hone : 0 ≤ (1 : Number).toInt := by decide
  have htwo : 0 ≤ (2 : Number).toInt := by decide
  have hparsed := h _ _ T (.assigned "b") (.term (.factor (.group (.constant 1)))) (.constant 2)
    .less (WholeLines.opensLine (by decide +kernel)) hp hpl ⟨trivial, hone⟩
    ⟨trivial, htwo⟩ trivial
  have hrefused : (parse ("var\n b: boolean\nendvar\n" ++ runText [(Place.assigned "b").stmt
      (compared (.term (.factor (.group (.constant 1)))) .less (.constant 2))])
        Oid.mib2).toOption.isSome = false := by decide +kernel
  rw [hparsed] at hrefused
  cases hrefused

end Program

end ScriptedAgent.Script
