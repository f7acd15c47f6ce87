import ScriptedAgent.Proofs.Script.Lexing
import ScriptedAgent.Script.Stmt.Printer
import ScriptedAgent.Script.WellKinded

/-!
# Lines of a printed block

Each line of a block that fits its table is a `Phrase` (`block_phrase`): its tokens can be written,
its brackets are closed, and it does not end in an operator. The names in it are those of the table,
which are identifiers that a text can hold (`TypeTable.Written`).
-/

namespace ScriptedAgent

/-- The names of variables and fields are identifiers that a script can hold. -/
def TypeTable.Written (T : TypeTable) : Prop :=
  ∀ x t, T.get? x = some t → (Script.Token.ident x).Writable ∧
    ∀ l, t.layout = some l → ∀ f ∈ l.fields, (Script.Token.ident f.name).Writable

namespace Script

open Lexer

/-! ## Rules -/

section

variable {t : Token} {ts us : List Token} {s : Symbol}

namespace Lexer

namespace Balanced

theorem nil : Balanced [] := ⟨nofun, fun _ => rfl⟩

theorem cons (ht : t.Writable) (hd : ∀ d, depthAfter d t = d) (hp : Balanced ts) :
    Balanced (t :: ts) :=
  ⟨List.forall_mem_cons.2 ⟨ht, hp.writable⟩, fun d => by rw [List.foldl_cons, hd, hp.depth]⟩

theorem append (hp : Balanced ts) (hq : Balanced us) : Balanced (ts ++ us) :=
  ⟨List.forall_mem_append.2 ⟨hp.writable, hq.writable⟩, fun d => by
    rw [List.foldl_append, hp.depth, hq.depth]⟩

theorem commaSeparated : ∀ {parts : List (List Token)}, (∀ ts ∈ parts, Balanced ts) →
    Balanced (commaSeparated parts)
  | [], _ => nil
  | [ts], h => h ts (by simp)
  | ts :: us :: rest, h => by
    obtain ⟨hts, hrest⟩ := List.forall_mem_cons.1 h
    exact hts.append ((commaSeparated hrest).cons trivial fun _ => rfl)

end Balanced

namespace Phrase

theorem single (ht : t.Writable) (hd : ∀ d, depthAfter d t = d) (he : t.continues = false) :
    Phrase [t] :=
  ⟨Balanced.nil.cons ht hd, by simp, he⟩

theorem cons (ht : t.Writable) (hd : ∀ d, depthAfter d t = d) (hp : Phrase ts) :
    Phrase (t :: ts) :=
  ⟨hp.toBalanced.cons ht hd, by simp, by rw [List.getLast_cons hp.ne_nil, hp.ends]⟩

theorem append (hp : Balanced ts) (hq : Phrase us) : Phrase (ts ++ us) :=
  ⟨hp.append hq.toBalanced, by simp [hq.ne_nil], by
    rw [List.getLast_append_of_ne_nil _ hq.ne_nil, hq.ends]⟩

/-- An operator between two phrases. -/
theorem infixed (hp : Phrase ts) (hd : ∀ d, depthAfter d (.symbol s) = d) (hq : Phrase us) :
    Phrase (ts ++ .symbol s :: us) :=
  append hp.toBalanced (hq.cons trivial hd)

theorem enclosed {opening closing : Symbol} (hp : Balanced ts)
    (ho : ∀ d, depthAfter d (.symbol opening) = d + 1)
    (hc : ∀ d, depthAfter (d + 1) (.symbol closing) = d) (he : closing.continues = false) :
    Phrase (.symbol opening :: ts ++ [.symbol closing]) where
  writable := by
    rw [List.cons_append]
    refine List.forall_mem_cons.2 ⟨trivial, List.forall_mem_append.2 ⟨hp.writable, ?_⟩⟩
    exact List.forall_mem_singleton.2 trivial
  depth d := by
    rw [List.cons_append, List.foldl_cons, ho, List.foldl_append, hp.depth]
    exact hc d
  ne_nil := by simp
  ends := by
    rw [List.getLast_append_of_ne_nil _ (List.cons_ne_nil _ _)]
    exact he

theorem bracketed (hp : Phrase ts) : Phrase (bracketed ts) :=
  enclosed hp.toBalanced (fun _ => rfl) (fun _ => rfl) rfl

theorem keyword (k : Keyword) : Phrase [.keyword k] := single trivial (fun _ => rfl) rfl

theorem after (k : Keyword) (hp : Phrase ts) : Phrase (.keyword k :: ts) :=
  hp.cons trivial fun _ => rfl

end Phrase

end Lexer

end

/-! ## Names -/

section

variable {T : TypeTable}

theorem phrase_ident {x : String} (hx : (Token.ident x).Writable) : Phrase [.ident x] :=
  .single hx (fun _ => rfl) rfl

theorem phrase_var (hT : T.Written) {x : String} {g : Grammar} (h : HasGrammar T x g) :
    Phrase [.ident x] := by
  unfold HasGrammar TypeTable.kindOf? at h
  cases ht : T.get? x with
  | none => simp [ht] at h
  | some t => exact phrase_ident (hT x t ht).1

theorem phrase_field (hT : T.Written) {x f : String} (h : HasField T x f) :
    Phrase [.ident x, .symbol .colon, .ident f] := by
  obtain ⟨hkind, hfield⟩ := h
  cases ht : T.get? x with
  | none => simp [TypeTable.kindOf?, ht] at hkind
  | some t =>
    obtain ⟨hx, hfields⟩ := hT x t ht
    cases hl : t.layout with
    | none => simp [TypeTable.field?, ht, hl] at hfield
    | some l =>
      obtain ⟨fd, hfd⟩ := Option.isSome_iff_exists.1 hfield
      have hfind : l.fields.find? (·.name == f) = some fd := by
        simpa [TypeTable.field?, ht, hl, Layout.field?] using hfd
      have hname : fd.name = f := by simpa using List.find?_some hfind
      have hf := hname ▸ hfields l hl fd (List.mem_of_find?_eq_some hfind)
      exact (phrase_ident hx).infixed (fun _ => rfl) (phrase_ident hf)

/-! ## Expressions -/

mutual

theorem IntExpr.phrase (hT : T.Written) : ∀ e : IntExpr, e.WellKinded T → e.Expressible →
    Phrase e.tokens
  | .term t, hw, he => t.phrase hT hw he
  | .add e t, hw, he => (e.phrase hT hw.1 he.1).infixed (fun _ => rfl) (t.phrase hT hw.2 he.2)
  | .sub e t, hw, he => (e.phrase hT hw.1 he.1).infixed (fun _ => rfl) (t.phrase hT hw.2 he.2)

theorem IntTerm.phrase (hT : T.Written) : ∀ t : IntTerm, t.WellKinded T → t.Expressible →
    Phrase t.tokens
  | .factor f, hw, he => f.phrase hT hw he
  | .mul t f, hw, he => (t.phrase hT hw.1 he.1).infixed (fun _ => rfl) (f.phrase hT hw.2 he.2)
  | .div t f, hw, he => (t.phrase hT hw.1 he.1).infixed (fun _ => rfl) (f.phrase hT hw.2 he.2)

theorem IntFactor.phrase (hT : T.Written) : ∀ f : IntFactor, f.WellKinded T → f.Expressible →
    Phrase f.tokens
  | .const _, _, he => .single he (fun _ => rfl) rfl
  | .var _, hw, _ => phrase_var hT hw
  | .field _ _, hw, _ => phrase_field hT hw
  | .neg f, hw, he => (f.phrase hT hw he).cons trivial fun _ => rfl
  | .group e, hw, he => (e.phrase hT hw he).bracketed

end

theorem Comparison.symbol_depth (op : Comparison) (d : Nat) :
    depthAfter d (.symbol op.symbol) = d := by
  cases op <;> rfl

mutual

theorem BoolExpr.phrase (hT : T.Written) : ∀ e : BoolExpr, e.WellKinded T → e.Expressible →
    Phrase e.tokens
  | .term t, hw, he => t.phrase hT hw he
  | .or e t, hw, he => (e.phrase hT hw.1 he.1).infixed (fun _ => rfl) (t.phrase hT hw.2 he.2)

theorem BoolTerm.phrase (hT : T.Written) : ∀ t : BoolTerm, t.WellKinded T → t.Expressible →
    Phrase t.tokens
  | .factor f, hw, he => f.phrase hT hw he
  | .and t f, hw, he => (t.phrase hT hw.1 he.1).infixed (fun _ => rfl) (f.phrase hT hw.2 he.2)

theorem BoolFactor.phrase (hT : T.Written) : ∀ f : BoolFactor, f.WellKinded T → f.Expressible →
    Phrase f.tokens
  | .const true, _, _ => .keyword .true
  | .const false, _, _ => .keyword .false
  | .var _, hw, _ => phrase_var hT hw
  | .not f, hw, he => (f.phrase hT hw he).cons trivial fun _ => rfl
  | .group e, hw, he => (e.phrase hT hw he).bracketed
  | .compare op l r, hw, he =>
    (l.phrase hT hw.1 he.1).infixed op.symbol_depth (r.phrase hT hw.2 he.2.1)

end

mutual

theorem BitsExpr.phrase (hT : T.Written) : ∀ e : BitsExpr, e.WellKinded T → e.Expressible →
    Phrase e.tokens
  | .term t, hw, he => t.phrase hT hw he
  | .union e t, hw, he => (e.phrase hT hw.1 he.1).infixed (fun _ => rfl) (t.phrase hT hw.2 he.2)

theorem BitsTerm.phrase (hT : T.Written) : ∀ t : BitsTerm, t.WellKinded T → t.Expressible →
    Phrase t.tokens
  | .set es, hw, he => by
    refine .enclosed (.commaSeparated ?_) (fun _ => rfl) (fun _ => rfl) rfl
    intro ts hts
    obtain ⟨e, hmem, rfl⟩ := List.mem_map.1 hts
    exact (e.phrase hT (hw e hmem) (he e hmem)).toBalanced
  | .var _, hw, _ => phrase_var hT hw
  | .group e, hw, he => (e.phrase hT hw he).bracketed

end

mutual

theorem StrExpr.phrase (hT : T.Written) : ∀ e : StrExpr, e.WellKinded T → e.Expressible →
    Phrase e.tokens
  | .term t, hw, he => t.phrase hT hw he
  | .append e t, hw, he => (e.phrase hT hw.1 he.1).infixed (fun _ => rfl) (t.phrase hT hw.2 he.2)

theorem StrTerm.phrase (hT : T.Written) : ∀ t : StrTerm, t.WellKinded T → t.Expressible →
    Phrase t.tokens
  | .literal _, _, _ => .single trivial (fun _ => rfl) rfl
  | .var _, hw, _ => phrase_var hT hw
  | .group e, hw, he => (e.phrase hT hw he).bracketed
  | .ofInt e, hw, he => .after .strInt (e.phrase hT hw he).bracketed
  | .ofBool e, hw, he => .after .strBool (e.phrase hT hw he).bracketed
  | .ofBits e, hw, he => .after .strBits (e.phrase hT hw he).bracketed

end

theorem Expr.phrase (hT : T.Written) {g : Grammar} : ∀ e : Expr, e.WellKinded T g →
    e.Expressible → Phrase e.tokens
  | .int e, hw, he => e.phrase hT hw.2 he
  | .bool e, hw, he => e.phrase hT hw.2 he
  | .str e, hw, he => e.phrase hT hw.2 he
  | .bits e, hw, he => e.phrase hT hw.2 he

/-! ## Statements -/

theorem assignment_phrase (hT : T.Written) {target : Target} {e : Expr}
    (hw : AssignmentWellKinded T target e) (he : e.Expressible) :
    Phrase (target.tokens ++ .symbol .equal :: e.tokens) := by
  cases target with
  | var x =>
    obtain ⟨g, hx, hw⟩ := hw
    exact (phrase_var hT hx).infixed (fun _ => rfl) (e.phrase hT hw he)
  | field x f => exact (phrase_field hT hw.1).infixed (fun _ => rfl) (e.phrase hT hw.2 he)

theorem loop_phrase (hT : T.Written) : ∀ control : LoopControl, control.WellKinded T →
    control.Expressible → Phrase (.keyword .loop :: control.tokens)
  | .forever, _, _ => .keyword .loop
  | .times e, hw, he => .after .loop (.after .times (e.phrase hT hw he))
  | .while e, hw, he => .after .loop (e.phrase hT hw he)

mutual

theorem Stmt.phrase (hT : T.Written) : ∀ s : Stmt, s.WellKinded T → s.Expressible →
    ∀ ts ∈ s.lines, Phrase ts
  | .assign _ _, hw, he => List.forall_mem_singleton.2 (assignment_phrase hT hw he)
  | .print e, hw, he => List.forall_mem_singleton.2 (.after .print (e.phrase hT hw he))
  | .sleep e _, hw, he => List.forall_mem_singleton.2 <|
    .append (Phrase.after .sleep (e.phrase hT hw he)).toBalanced (.keyword _)
  | .exit, _, _ => List.forall_mem_singleton.2 (.keyword .exit)
  | .branch cond body rest, hw, he => List.forall_mem_append.2
    ⟨List.forall_mem_cons.2 ⟨.after .if (cond.phrase hT hw.1 he.1),
      block_phrase hT body hw.2.1 he.2.1⟩, rest.phrase hT hw.2.2 he.2.2⟩
  | .loop control body, hw, he => List.forall_mem_append.2
    ⟨List.forall_mem_cons.2 ⟨loop_phrase hT control hw.1 he.1, block_phrase hT body hw.2 he.2⟩,
      List.forall_mem_singleton.2 (.keyword .endloop)⟩

theorem Branches.phrase (hT : T.Written) : ∀ r : Branches, r.WellKinded T → r.Expressible →
    ∀ ts ∈ r.lines, Phrase ts
  | .otherwise [], _, _ => List.forall_mem_singleton.2 (.keyword .endif)
  | .otherwise (s :: ss), hw, he => List.forall_mem_append.2
    ⟨List.forall_mem_cons.2 ⟨.keyword .else, block_phrase hT (s :: ss) hw he⟩,
      List.forall_mem_singleton.2 (.keyword .endif)⟩
  | .elseif cond body rest, hw, he => List.forall_mem_append.2
    ⟨List.forall_mem_cons.2 ⟨.after .elseif (cond.phrase hT hw.1 he.1),
      block_phrase hT body hw.2.1 he.2.1⟩, rest.phrase hT hw.2.2 he.2.2⟩

theorem block_phrase (hT : T.Written) : ∀ body : List Stmt, BlockWellKinded T body →
    BlockExpressible body → ∀ ts ∈ blockLines body, Phrase ts
  | [], _, _ => nofun
  | s :: ss, hw, he => List.forall_mem_append.2
    ⟨s.phrase hT hw.1 he.1, block_phrase hT ss hw.2 he.2⟩

end

end

end Script

end ScriptedAgent
