import ScriptedAgent.Proofs.Script.Declarations
import ScriptedAgent.Proofs.Script.StmtReads
import ScriptedAgent.Proofs.Script.WholeLines
import ScriptedAgent.Script.Program

/-!
# Printing and parsing

A block that fits the table of some declarations, written behind them, is parsed as the same table
and the same block (`Program.parse_runText`). The declarations are known from their script with an
empty block. Its tokens show where they end, and they are read again from the tokens they took.
-/

namespace ScriptedAgent.Script

open Parse Lexer Stateful

variable {α β : Type}

/-! ## What a parse has found -/

namespace Parse

theorem of_bind {p : Parse α} {f : α → Parse β} {b : β} {c c' : Cursor}
    (h : (p >>= f) c = (.ok b, c')) : ∃ a c₁, p c = (.ok a, c₁) ∧ f a c₁ = (.ok b, c') := by
  rw [bind_apply] at h
  split at h
  · rename_i a c₁ h₁
    exact ⟨a, c₁, h₁, h⟩
  · cases h

theorem of_step {p : Parse α} {a : α} {c c' : Cursor} (h : step p c = (.ok a, c')) :
    p { c with steps := c.steps + 1 } = (.ok a, c') :=
  h

theorem of_peek {t : Token} {c c' : Cursor} (h : peek c = (.ok t, c')) :
    c'.ending = c.ending ∧ c'.ahead = c.ahead ∧ (t = .eof ∨ ∃ ts, c.ahead = t :: ts) := by
  obtain ⟨_ | ⟨l, ls⟩, ending | e, line, previous, steps⟩ := c <;> cases h
  · exact ⟨rfl, rfl, .inl rfl⟩
  · exact ⟨rfl, rfl, .inr ⟨_, rfl⟩⟩
  · exact ⟨rfl, rfl, .inr ⟨_, rfl⟩⟩

theorem of_next {t : Token} {c c' : Cursor} (h : next c = (.ok t, c')) :
    c'.ending = c.ending ∧ (c.ahead = t :: c'.ahead ∨
      t = .eof ∧ c.ahead = [] ∧ ∃ k, c.ending = .eof k) := by
  obtain ⟨_ | ⟨l, ls⟩, ending | e, line, previous, steps⟩ := c <;> cases h
  · exact ⟨rfl, .inr ⟨rfl, rfl, _, rfl⟩⟩
  · exact ⟨rfl, .inl rfl⟩
  · exact ⟨rfl, .inl rfl⟩

theorem of_expect_eof {place : String} {c c' : Cursor} (h : expect .eof place c = (.ok (), c'))
    (hc : ∀ t ∈ c.ahead, Spelled t) : c.ahead = [] ∧ ∃ k, c.ending = .eof k := by
  obtain ⟨t, c₁, hnext, hrest⟩ := of_bind (of_step h)
  split at hrest
  · rename_i heq
    subst heq
    obtain ⟨-, ha | ⟨-, ha⟩⟩ := of_next hnext
    · exact absurd (hc .eof (ha ▸ List.mem_cons_self)) id
    · exact ha
  · cases hrest

theorem of_expect {t : Token} {place : String} {c c' : Cursor}
    (h : expect t place c = (.ok (), c')) (ht : t ≠ .eof) :
    c'.ending = c.ending ∧ c.ahead = t :: c'.ahead := by
  obtain ⟨t', c₁, hnext, hrest⟩ := of_bind (of_step h)
  split at hrest
  · rename_i heq
    cases hrest
    subst heq
    obtain ⟨he, ha | ⟨heof, -⟩⟩ := of_next hnext
    · exact ⟨he, ha⟩
    · exact absurd heof ht
  · cases hrest

theorem of_accept {t : Token} {b : Bool} {c c' : Cursor} (h : accept t c = (.ok b, c'))
    (ht : t ≠ .eof) : c'.ending = c.ending ∧ (c.ahead = t :: c'.ahead ∨ c.ahead = c'.ahead) := by
  obtain ⟨t', c₁, hpeek, hrest⟩ := of_bind h
  obtain ⟨he₁, ha₁, hahead⟩ := of_peek hpeek
  split at hrest
  · rename_i heq
    subst heq
    obtain ⟨ts, hts⟩ := hahead.resolve_left ht
    obtain ⟨t'', c₂, hnext, hdone⟩ := of_bind hrest
    cases hdone
    obtain ⟨he, ha | ⟨-, ha, -⟩⟩ := of_next hnext
    · rw [← ha₁, ha] at hts
      cases hts
      exact ⟨he.trans he₁, .inl (ha₁.symm.trans ha)⟩
    · rw [← ha₁, ha] at hts
      cases hts
  · cases hrest
    exact ⟨he₁, .inr ha₁.symm⟩

end Parse

/-- A block without a statement takes no token. -/
theorem of_block_nil {T : TypeTable} : ∀ {n : Nat} {c c' : Cursor},
    block T n c = (.ok [], c') → c'.ahead = c.ahead ∧ c'.ending = c.ending
  | n + 1, c, c', h => by
    obtain ⟨t, c₁, hpeek, hrest⟩ := of_bind (of_step h)
    obtain ⟨he, ha, -⟩ := of_peek hpeek
    split at hrest
    · cases hrest
      exact ⟨ha, he⟩
    split at hrest
    · cases hrest
    · obtain ⟨s, c₂, _, hrest⟩ := of_bind hrest
      obtain ⟨ss, c₃, _, hrest⟩ := of_bind hrest
      cases hrest

namespace Program

/-- The tokens of a script without a statement: those of its declarations, which are read again, and
those of an empty block, the last line break left out or not. -/
theorem of_read_nil {base : String} {n m : Nat} {T : TypeTable} {c c' : Cursor}
    (hc : ∀ t ∈ c.ahead, Spelled t) (h : read base n c = (.ok ⟨T, []⟩, c')) (hm : n ≤ m) :
    T.Written ∧ (∃ k, c.ending = .eof k) ∧ ∃ us,
      (c.ahead = us ++ [.keyword .run, .newline, .keyword .endrun] ∨
        c.ahead = us ++ [.keyword .run, .newline, .keyword .endrun, .newline]) ∧
      Reads (declarations base m) us (pure T) (· = .keyword .run) := by
  obtain ⟨T₁, c₁, h₁, h⟩ := of_bind (of_step h)
  obtain ⟨_, c₂, h₂, h⟩ := of_bind h
  obtain ⟨_, c₃, h₃, h⟩ := of_bind h
  obtain ⟨body, c₄, h₄, h⟩ := of_bind h
  obtain ⟨_, c₅, h₅, h⟩ := of_bind h
  obtain ⟨_, c₆, h₆, h⟩ := of_bind h
  obtain ⟨_, c₇, h₇, h⟩ := of_bind h
  cases h
  obtain ⟨hT, he₁, us, hus, hreads⟩ := declarations_repeats base hm
    { c with steps := c.steps + 1 } _ _ hc h₁
  replace hus : c.ahead = us ++ c₁.ahead := hus
  obtain ⟨he₂, ha₂⟩ := of_expect h₂ nofun
  obtain ⟨he₃, ha₃⟩ := of_expect h₃ nofun
  obtain ⟨ha₄, he₄⟩ := of_block_nil h₄
  obtain ⟨he₅, ha₅⟩ := of_expect h₅ nofun
  obtain ⟨he₆, ha₆⟩ := of_accept h₆ nofun
  have hmem : ∀ t ∈ c₆.ahead, t ∈ c.ahead := fun t ht => by
    rcases ha₆ with ha₆ | ha₆ <;> simp [hus, ha₂, ha₃, ← ha₄, ha₅, ha₆, ht]
  obtain ⟨ha₇, k, hk⟩ := of_expect_eof h₇ fun t ht => hc t (hmem t ht)
  refine ⟨hT, ⟨k, ?_⟩, us, ?_, hreads _ _ ha₂⟩
  · rw [← hk, he₆, he₅, he₄, he₃, he₂, he₁]
  · rcases ha₆ with ha₆ | ha₆
    · exact .inr (by rw [hus, ha₂, ha₃, ← ha₄, ha₅, ha₆, ha₇])
    · exact .inl (by rw [hus, ha₂, ha₃, ← ha₄, ha₅, ha₆, ha₇])

theorem parse_eq_ok_iff {text base : String} {p : Program} : parse text base = .ok p ↔
    ∃ c, read (baseOid base) (16 * ((stream text).tokens.length + 1)) (.ofStream (stream text)) =
      (.ok p, c) := by
  unfold parse
  constructor
  · intro h
    split at h
    · rename_i c heq
      cases h
      exact ⟨c, heq⟩
    · cases h
    · cases h
  · rintro ⟨c, h⟩
    have hreading : reading text base = (.ok p, c) := h
    rw [hreading]

/-- The names in the table of a script are identifiers of its text. -/
theorem types_written {text base : String} {p : Program} (h : parse text base = .ok p) :
    p.types.Written := by
  obtain ⟨c, hread⟩ := parse_eq_ok_iff.1 h
  obtain ⟨T, c₁, hdecls, h⟩ := of_bind (of_step hread)
  have hT : T.Written := by
    refine (declarations_repeats _ (Nat.le_refl _) _ _ _ ?_ hdecls).1
    exact spelled_take _ _
  obtain ⟨_, _, _, h⟩ := of_bind h
  obtain ⟨_, _, _, h⟩ := of_bind h
  obtain ⟨body, _, _, h⟩ := of_bind h
  obtain ⟨_, _, _, h⟩ := of_bind h
  obtain ⟨_, _, _, h⟩ := of_bind h
  obtain ⟨_, _, _, h⟩ := of_bind h
  cases h
  exact hT

end Program

/-! ## The tokens of a script -/

theorem stream_append (text more : String) :
    stream (text ++ more) = all ⟨text.toList ++ more.toList, 1, 0, true⟩ := by
  rw [← String.toList_append]
  rfl

/-- The lines of a `run` block. -/
def runLines (body : List Stmt) : List (List Token) :=
  [.keyword .run] :: blockLines body ++ [[.keyword .endrun]]

theorem toList_runText (body : List Stmt) :
    (runText body).toList = (runLines body).flatMap fun ts => lineChars ts ++ ['\n'] :=
  String.toList_ofList

theorem ended_runLines (body : List Stmt) : ended (runLines body) =
    .keyword .run :: .newline :: (ended (blockLines body) ++ [.keyword .endrun, .newline]) := by
  rw [runLines, ended_append, ended_cons]
  rfl

theorem runLines_phrase {body : List Stmt} (h : ∀ ts ∈ blockLines body, Phrase ts) :
    ∀ ts ∈ runLines body, Phrase ts :=
  List.forall_mem_append.2 ⟨List.forall_mem_cons.2 ⟨.keyword .run, h⟩,
    List.forall_mem_singleton.2 (.keyword .endrun)⟩

/-- The tokens of a `run` block at the end of a text, where no bracket is open. -/
theorem all_runText {body : List Stmt} (h : ∀ ts ∈ blockLines body, Phrase ts) (line : Nat)
    (fresh : Bool) : (all ⟨(runText body).toList, line, 0, fresh⟩).bare = ended (runLines body) ∧
      ∃ k, (all ⟨(runText body).toList, line, 0, fresh⟩).ending = .eof k := by
  obtain ⟨line', fresh', hp⟩ := passes_lines [] line fresh (runLines_phrase h)
  rw [List.append_nil, ← toList_runText] at hp
  obtain ⟨hbare, hending⟩ := all_of_passes hp
  exact ⟨hbare.trans (List.append_nil _), line', hending⟩

/-- The same for an empty block where a bracket is open, which hides the line breaks. -/
theorem all_runText_of_open {depth : Nat} (hd : 0 < depth) (line : Nat) (fresh : Bool) :
    (all ⟨(runText []).toList, line, depth, fresh⟩).bare = [.keyword .run, .keyword .endrun] := by
  have hrun := passes_line_of_open (lineChars [.keyword .endrun] ++ ['\n']) line fresh
    (.keyword .run) hd
  have hend := passes_line_of_open [] (line + 1) false (.keyword .endrun) hd
  exact (all_of_passes (hrun.trans hend)).1

/-- What a script with an empty block says about its declarations: where they end, that no bracket
is open there, and that they are read from their tokens. -/
theorem of_parse_nil {decls base : String} {T : TypeTable} (hdecls : OpensLine decls.toList)
    (h : Program.parse (decls ++ runText []) base = .ok ⟨T, []⟩) : T.Written ∧ ∃ ds line fresh,
      (∀ more, Passes ⟨decls.toList ++ more, 1, 0, true⟩ ds ⟨more, line, 0, fresh⟩) ∧
      ∀ m, 16 * (ds.length + 5) ≤ m →
        Reads (declarations (baseOid base) m) ds (pure T) (· = .keyword .run) := by
  obtain ⟨c', hread⟩ := Program.parse_eq_ok_iff.1 h
  have hstream := stream_append decls (runText [])
  generalize stream (decls ++ runText []) = s at hread hstream
  have hspelled : ∀ t ∈ (Cursor.ofStream s).ahead, Spelled t := by
    subst hstream
    exact spelled_take _ _
  obtain ⟨hT, ⟨k, hend⟩, -⟩ := Program.of_read_nil hspelled hread (Nat.le_refl _)
  replace hend : s.ending = .eof k := hend
  obtain ⟨ds, line, depth, fresh, hp⟩ := exists_passes_of_opensLine hdecls ⟨k, hstream ▸ hend⟩
  have hbare := (all_of_passes (hp (runText []).toList)).1
  rw [← hstream] at hbare
  have hread := fun m (hm : 16 * (s.tokens.length + 1) ≤ m) =>
    (Program.of_read_nil hspelled hread hm).2.2
  obtain rfl | hd := Nat.eq_zero_or_pos depth
  · refine ⟨hT, ds, line, fresh, hp, fun m hm => ?_⟩
    have hempty : ∀ ts ∈ blockLines [], Phrase ts := fun _ h => absurd h List.not_mem_nil
    rw [(all_runText hempty line fresh).1, ended_runLines] at hbare
    have hlength : s.tokens.length = ds.length + 4 := by
      have h := congrArg List.length hbare
      rwa [TokenStream.bare, List.length_map, List.length_append] at h
    obtain ⟨us, hus | hus, hreads⟩ := hread m (by omega)
    · have hreverse := congrArg List.reverse (hbare.symm.trans hus)
      simp at hreverse
    · obtain rfl : ds = us := List.append_cancel_right (hbare.symm.trans hus)
      exact hreads
  · rw [all_runText_of_open hd] at hbare
    obtain ⟨us, hus | hus, -⟩ := hread _ (Nat.le_refl _)
    all_goals
      have hreverse := congrArg List.reverse (hbare.symm.trans hus)
      simp at hreverse

namespace Program

/-- The end of a script behind its `endrun`. -/
theorem finish {p : Program} {c : Cursor} {k : Nat} (ha : c.ahead = [.newline])
    (he : c.ending = .eof k) : ∃ c', (do
      let _ ← accept .newline
      expect .eof "program"
      return p : Parse Program) c = (.ok p, c') := by
  obtain ⟨_ | ⟨⟨t, l⟩, _ | ⟨_, _⟩⟩, ending, line, previous, steps⟩ := c <;> cases ha
  cases he
  exact ⟨_, rfl⟩

theorem read_eq_ok {base : String} {n k : Nat} {T : TypeTable} {body : List Stmt}
    {ds bs : List Token} {c : Cursor}
    (hd : Reads (declarations base n) ds (pure T) (· = .keyword .run))
    (hb : Reads (block T n) bs (pure body) (closesBlock · = true))
    (ha : c.ahead = ds ++ .keyword .run :: .newline :: (bs ++ [.keyword .endrun, .newline]))
    (he : c.ending = .eof k) : ∃ c', read base n c = (.ok ⟨T, body⟩, c') := by
  have hread : Reads (read base n) (ds ++ .keyword .run :: .newline :: (bs ++ [.keyword .endrun]))
      (do
        let _ ← accept .newline
        expect .eof "program"
        return ⟨T, body⟩) fun _ => True :=
    .step (hd.bind (.expect (.expect (hb.bind (.expect .refl) fun _ _ => rfl))) fun _ _ => rfl)
  obtain ⟨c₁, ha₁, he₁, heq⟩ := hread c .newline [] (by simp [ha]) trivial
  obtain ⟨c₂, h⟩ := finish ha₁ (he₁.trans he)
  exact ⟨c₂, heq.trans h⟩

/-- The tokens of a block behind declarations that are known from their script with an empty block:
those of the declarations, which are read, and the lines of the block. -/
theorem exists_ahead {decls base : String} {T : TypeTable} {body : List Stmt}
    (hdecls : OpensLine decls.toList) (hparse : parse (decls ++ runText []) base = .ok ⟨T, []⟩)
    (hbody : T.Written → ∀ ts ∈ blockLines body, Phrase ts) {s : TokenStream}
    (hs : stream (decls ++ runText body) = s) : ∃ ds k,
      Reads (declarations (baseOid base) (16 * (s.tokens.length + 1))) ds (pure T)
        (· = .keyword .run) ∧
      2 * (ended (blockLines body)).length + 1 ≤ 16 * (s.tokens.length + 1) ∧
      (Cursor.ofStream s).ahead = ds ++ .keyword .run :: .newline ::
        (ended (blockLines body) ++ [.keyword .endrun, .newline]) ∧
      s.ending = .eof k := by
  obtain ⟨hT, ds, line, fresh, hp, hreads⟩ := of_parse_nil hdecls hparse
  have hstream := stream_append decls (runText body)
  obtain ⟨hbare, hending⟩ := all_of_passes (hp (runText body).toList)
  obtain ⟨hrun, k, hend⟩ := all_runText (hbody hT) line fresh
  rw [← hstream, hs, hrun, ended_runLines] at hbare
  rw [← hstream, hs, hend] at hending
  have hlength : s.tokens.length = ds.length + (ended (blockLines body)).length + 4 := by
    have h := congrArg List.length hbare
    rw [TokenStream.bare, List.length_map] at h
    rw [h]
    simp only [List.length_append, List.length_cons, List.length_nil]
    omega
  exact ⟨ds, k, hreads _ (by omega), by omega, hbare, hending⟩

/-- Behind declarations known from their script with an empty block, the text of a block that fits
their table is parsed as this block, and the declarations as the same table. -/
theorem parse_runText {decls base : String} {T : TypeTable} {body : List Stmt}
    (hdecls : OpensLine decls.toList) (hparse : parse (decls ++ runText []) base = .ok ⟨T, []⟩)
    (hw : BlockWellKinded T body) (he : BlockExpressible body) :
    parse (decls ++ runText body) base = .ok ⟨T, body⟩ := by
  obtain ⟨ds, k, hreads, hn, ha, hend⟩ :=
    exists_ahead hdecls hparse (fun hT => block_phrase hT body hw he) rfl
  exact parse_eq_ok_iff.2 (read_eq_ok hreads (block_reads body hw he hn) ha hend)

/-- A branch of three arms under a loop, with an expression of each kind. -/
def sampleBlock : List Stmt :=
  [.loop (.while (.term (.factor (.not (.var "b")))))
    [.branch
      (.term (.and (.factor (.compare .less
        (.term (.factor (.neg (.group (.sub (.term (.factor (.var "n")))
          (.factor (.field "p" "lo"))))))) (.constant 2))) (.not (.group (.term (.factor
            (.var "b")))))))
      [.assign (.field "p" "lo") (.int (.constant 7))]
      (.elseif (.term (.factor (.var "b")))
        [.assign (.var "m") (.bits (.union (.term (.var "m")) (.set [.constant 1, .constant 2])))]
        (.otherwise [.print (.append (.term (.literal "a\"b\n")) (.ofBits (.term (.var "m"))))]))]]

theorem parse_runText_sample : ∃ T,
    parse ("var\n n: integer\n b: boolean\n m: bitset\n p: bytes \x7blo: 0 2\x7d\nendvar\n" ++
      runText []) Oid.mib2 = .ok ⟨T, []⟩ ∧ BlockWellKinded T sampleBlock ∧
    parse ("var\n n: integer\n b: boolean\n m: bitset\n p: bytes \x7blo: 0 2\x7d\nendvar\n" ++
      runText sampleBlock) Oid.mib2 = .ok ⟨T, sampleBlock⟩ := by
  obtain ⟨⟨T, body⟩, hp, h⟩ := exists_parse
    ("var\n n: integer\n b: boolean\n m: bitset\n p: bytes \x7blo: 0 2\x7d\nendvar\n" ++
      runText []) Oid.mib2
    (fun p => p.body.isEmpty ∧ HasGrammar p.types "n" .int ∧ HasGrammar p.types "b" .bool ∧
      HasGrammar p.types "m" .bits ∧ HasField p.types "p" "lo") (by decide +kernel)
  obtain ⟨hbody, hn, hb, hm, hlo⟩ := of_decide_eq_true h
  obtain rfl : body = [] := List.isEmpty_iff.1 hbody
  have hw : BlockWellKinded T sampleBlock := by
    simp [sampleBlock, BlockWellKinded, Stmt.WellKinded, LoopControl.WellKinded,
      Branches.WellKinded, AssignmentWellKinded, Expr.WellKinded, IntExpr.WellKinded,
      IntTerm.WellKinded, IntFactor.WellKinded, BoolExpr.WellKinded, BoolTerm.WellKinded,
      BoolFactor.WellKinded, BitsExpr.WellKinded, BitsTerm.WellKinded, StrExpr.WellKinded,
      StrTerm.WellKinded, IntExpr.constant, hn, hb, hm, hlo]
  have he : BlockExpressible sampleBlock := by
    simp [sampleBlock, BlockExpressible, Stmt.Expressible, LoopControl.Expressible,
      Branches.Expressible, Expr.Expressible, IntExpr.Expressible,
      IntTerm.Expressible, IntFactor.Expressible, BoolExpr.Expressible, BoolTerm.Expressible,
      BoolFactor.Expressible, BitsExpr.Expressible, BitsTerm.Expressible, StrExpr.Expressible,
      StrTerm.Expressible, IntExpr.constant, IntExpr.first, IntTerm.first, IntFactor.IsGroup]
  exact ⟨T, hp, hw, parse_runText (WholeLines.opensLine (by decide +kernel)) hp hw he⟩

end Program

end ScriptedAgent.Script
