import ScriptedAgent.Proofs.Script.Reads
import ScriptedAgent.Proofs.Script.Spelling
import ScriptedAgent.Proofs.Script.Yields

/-!
# Reading the same tokens again

`Parse.Repeats p q Q` says that what `p` reads has `Q`, and that `q` reads the same from the tokens
that `p` took, wherever they stand, as long as the token behind them is the same. So what a text is
read as does not depend on what follows it.
-/

namespace ScriptedAgent.Script.Parse

open Stateful Lexer

variable {α β : Type}

def Repeats (p q : Parse α) (Q : α → Prop) : Prop :=
  ∀ c a c', (∀ t ∈ c.ahead, Spelled t) → p c = (.ok a, c') →
    Q a ∧ c'.ending = c.ending ∧ ∃ us, c.ahead = us ++ c'.ahead ∧
      ∀ u rest, c'.ahead = u :: rest → Reads q us (pure a) (· = u)

namespace Repeats

variable {p q : Parse α} {f g : α → Parse β} {Q Q' : α → Prop} {R : β → Prop}

theorem pure {a : α} (h : Q a) : Repeats (Pure.pure a) (Pure.pure a) Q := by
  rintro c _ _ _ ⟨⟩
  exact ⟨h, rfl, [], rfl, fun _ _ _ => .refl⟩

theorem throw (e : Stop) : Repeats (MonadExcept.throw e) q Q := by
  rintro c a c' _ ⟨⟩

theorem error (e : ParseFault) : Repeats (Parse.error e) q Q := by
  rintro c a c' _ ⟨⟩

theorem and_yields (hp : Repeats p q Q) (hy : Yields p Q') : Repeats p q fun a => Q a ∧ Q' a := by
  intro c a c' hc h
  obtain ⟨hQ, hus⟩ := hp c a c' hc h
  exact ⟨⟨hQ, hy c a (by rw [h])⟩, hus⟩

theorem bind (hp : Repeats p q Q) (hf : ∀ a, Q a → Repeats (f a) (g a) R) :
    Repeats (p >>= f) (q >>= g) R := by
  intro c b c₂ hc h
  rw [bind_apply] at h
  split at h
  · rename_i a c₁ h₁
    obtain ⟨hQ, he, us, hus, hread⟩ := hp c a c₁ hc h₁
    have hc₁ : ∀ t ∈ c₁.ahead, Spelled t := fun t ht => hc t (by simp [hus, ht])
    obtain ⟨hR, he₂, vs, hvs, hread'⟩ := hf a hQ c₁ b c₂ hc₁ h
    refine ⟨hR, he₂.trans he, us ++ vs, by rw [hus, hvs, List.append_assoc], fun u rest hu => ?_⟩
    have hread' := hread' u rest hu
    cases vs with
    | nil => exact (hread u rest (hvs.trans hu)).bind hread' fun _ h => h
    | cons v vs => exact (hread v _ hvs).bind hread' fun _ _ => rfl
  · cases h

/-- Nothing need be known of what is read first. -/
theorem after (hp : Repeats p q fun _ => True) (hf : ∀ a, Repeats (f a) (g a) R) :
    Repeats (p >>= f) (q >>= g) R :=
  hp.bind fun a _ => hf a

theorem step (hp : Repeats p q Q) : Repeats (step p) (step q) Q := by
  intro c a c' hc h
  obtain ⟨hQ, he, us, hus, hread⟩ := hp { c with steps := c.steps + 1 } a c' hc h
  exact ⟨hQ, he, us, hus, fun u rest hu => (hread u rest hu).step⟩

theorem peek : Repeats Parse.peek Parse.peek fun t => t ≠ .eof → Spelled t := by
  rintro ⟨_ | ⟨l, ls⟩, ending | e, line, previous, steps⟩ a c' hc h
  all_goals cases h
  · exact ⟨fun h => absurd rfl h, rfl, [], rfl, nofun⟩
  all_goals
    refine ⟨fun _ => hc _ List.mem_cons_self, rfl, [], rfl, fun u rest hu => ?_⟩
    obtain rfl : l.token = u := (List.cons.inj hu).1
    rintro c u us hc rfl
    exact ⟨{ c with steps := c.steps + 1 }, hc, rfl, peek_ahead hc⟩

theorem next : Repeats Parse.next Parse.next fun t => t ≠ .eof → Spelled t := by
  rintro ⟨_ | ⟨l, ls⟩, ending | e, line, previous, steps⟩ a c' hc h
  all_goals cases h
  · exact ⟨fun h => absurd rfl h, rfl, [], rfl, nofun⟩
  all_goals
    refine ⟨fun _ => hc _ List.mem_cons_self, rfl, [l.token], rfl, fun u rest hu => ?_⟩
    intro c u us hc _
    obtain ⟨c₁, heq, ha, he⟩ := next_ahead hc
    exact ⟨c₁, ha, he, heq⟩

theorem accept (t : Token) : Repeats (accept t) (accept t) fun _ => True := by
  refine .bind peek fun t' _ => ?_
  split
  · exact .bind next fun _ _ => .pure trivial
  · exact .pure trivial

theorem expect (t : Token) (place : String) :
    Repeats (expect t place) (expect t place) fun _ => True := by
  refine .step (.bind next fun t' _ => ?_)
  split
  · exact .pure trivial
  · exact .error _

theorem expectIdent (what : String) : Repeats (expectIdent what) (expectIdent what) fun x =>
    (Token.ident x).Writable := by
  refine .step (.bind next fun t ht => ?_)
  split
  · exact .pure (ht nofun)
  · exact .error _

theorem expectSize (what : String) :
    Repeats (expectSize what) (expectSize what) fun _ => True := by
  refine .step (.bind next fun t _ => ?_)
  split
  · split
    · exact .pure trivial
    · exact .error _
  · exact .error _

end Repeats

end ScriptedAgent.Script.Parse
