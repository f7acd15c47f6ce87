import ScriptedAgent.Proofs.Stateful
import ScriptedAgent.Script.Cursor

/-!
# Reading tokens that are known

`Parse.Reads p ts q F` says that in front of the tokens `ts` and a token with `F` behind them, `p`
takes just `ts` and goes on as `q`. With `pure a` for `q` it says that `ts` are read as `a`; with a
production for `q` it says how far a loop of another production comes. There is one rule to each
way of looking at a token.
-/

namespace ScriptedAgent.Script

/-- The tokens ahead without their lines. -/
def Cursor.ahead (c : Cursor) : List Token := c.tokens.map Located.token

namespace Parse

open Stateful

variable {α β : Type}

def Reads (p : Parse α) (ts : List Token) (q : Parse α) (F : Token → Prop) : Prop :=
  ∀ c u us, c.ahead = ts ++ u :: us → F u →
    ∃ c', c'.ahead = u :: us ∧ c'.ending = c.ending ∧ p c = q c'

theorem peek_ahead {c : Cursor} {t : Token} {ts : List Token} (h : c.ahead = t :: ts) :
    peek c = (.ok t, { c with steps := c.steps + 1 }) := by
  obtain ⟨_ | ⟨l, ls⟩, ending, line, previous, steps⟩ := c <;> cases h
  rfl

theorem next_ahead {c : Cursor} {t : Token} {ts : List Token} (h : c.ahead = t :: ts) :
    ∃ c', next c = (.ok t, c') ∧ c'.ahead = ts ∧ c'.ending = c.ending := by
  obtain ⟨_ | ⟨l, ls⟩, ending, line, previous, steps⟩ := c <;> cases h
  exact ⟨_, rfl, rfl, rfl⟩

namespace Reads

variable {p q r : Parse α} {f : α → Parse β} {a : α} {b : Parse β} {t : Token} {ts us : List Token}
  {F G : Token → Prop}

theorem refl : Reads p [] p F := fun c _ _ h _ => ⟨c, h, rfl, rfl⟩

theorem weaken (hp : Reads p ts q G) (h : ∀ u, F u → G u) : Reads p ts q F :=
  fun c u us hc hu => hp c u us hc (h u hu)

theorem trans (hp : Reads p ts q G) (hq : Reads q us r F) (h : ∀ u, F u → G (us.headD u)) :
    Reads p (ts ++ us) r F := by
  intro c u rest hc hu
  obtain ⟨v, vs, hv, hG⟩ : ∃ v vs, us ++ u :: rest = v :: vs ∧ G v := by
    cases us with
    | nil => exact ⟨u, rest, rfl, h u hu⟩
    | cons v vs => exact ⟨v, vs ++ u :: rest, rfl, h u hu⟩
  obtain ⟨c₁, ha, he, heq⟩ := hp c v vs (by rw [hc, List.append_assoc, hv]) hG
  obtain ⟨c₂, ha₂, he₂, heq₂⟩ := hq c₁ u rest (ha.trans hv.symm) hu
  exact ⟨c₂, ha₂, he₂.trans he, heq.trans heq₂⟩

theorem bind (hp : Reads p ts (pure a) G) (hf : Reads (f a) us b F)
    (h : ∀ u, F u → G (us.headD u)) : Reads (p >>= f) (ts ++ us) b F := by
  have hbind : Reads (p >>= f) ts (f a) G := by
    intro c u rest hc hu
    obtain ⟨c', ha, he, heq⟩ := hp c u rest hc hu
    exact ⟨c', ha, he, by rw [bind_apply, heq]; rfl⟩
  exact hbind.trans hf h

/-- What is read last. -/
theorem map (hp : Reads p ts (pure a) F) (hf : ∀ u, F u → Reads (f a) [] b (· = u)) :
    Reads (p >>= f) ts b F := by
  intro c u us hc hu
  have hbind := hp.weaken (F := (· = u)) (by rintro _ rfl; exact hu)
  have h := hbind.bind (hf u hu) (fun _ h => h)
  rw [List.append_nil] at h
  exact h c u us hc rfl

/-- Nothing is read behind a fault. -/
theorem stop {e : ParseFault} (hp : Reads p ts (missing e) F) :
    Reads (p >>= f) ts (missing e) F := by
  intro c u us hc hu
  obtain ⟨c', ha, he, heq⟩ := hp c u us hc hu
  exact ⟨c', ha, he, by rw [bind_apply, heq]; rfl⟩

theorem step (hp : Reads p ts q F) : Reads (step p) ts q F :=
  fun c u us hc hu => hp { c with steps := c.steps + 1 } u us hc hu

theorem peek_of {f : Token → Parse β} (h : ts = t :: us) (hf : Reads (f t) ts b F) :
    Reads (Parse.peek >>= f) ts b F := by
  intro c u rest hc hu
  obtain ⟨c', ha, he, heq⟩ := hf { c with steps := c.steps + 1 } u rest hc hu
  refine ⟨c', ha, he, ?_⟩
  rw [bind_apply, peek_ahead (hc.trans (congrArg (· ++ _) h))]
  exact heq

theorem peek {f : Token → Parse β} (hf : Reads (f t) (t :: ts) b F) :
    Reads (Parse.peek >>= f) (t :: ts) b F :=
  peek_of rfl hf

/-- The token behind is looked at and left. -/
theorem peek_behind {f : Token → Parse β} (hf : ∀ u, F u → Reads (f u) [] b F) :
    Reads (Parse.peek >>= f) [] b F := by
  intro c u us hc hu
  obtain ⟨c', ha, he, heq⟩ := hf u hu { c with steps := c.steps + 1 } u us hc hu
  refine ⟨c', ha, he, ?_⟩
  rw [bind_apply, peek_ahead hc]
  exact heq

theorem next {f : Token → Parse β} (hf : Reads (f t) ts b F) :
    Reads (Parse.next >>= f) (t :: ts) b F := by
  intro c u us hc hu
  obtain ⟨c₁, heq₁, ha₁, he₁⟩ := next_ahead hc
  obtain ⟨c₂, ha₂, he₂, heq₂⟩ := hf c₁ u us ha₁ hu
  refine ⟨c₂, ha₂, he₂.trans he₁, ?_⟩
  rw [bind_apply, heq₁]
  exact heq₂

theorem expect {place : String} {f : Unit → Parse β} (hf : Reads (f ()) ts b F) :
    Reads (expect t place >>= f) (t :: ts) b F := by
  have h : Reads (Parse.expect t place) [t] (pure ()) fun _ => True := by
    refine .step (.next ?_)
    rw [if_pos rfl]
    exact .refl
  exact h.bind hf fun _ _ => trivial

theorem expectIdent {what name : String} {f : String → Parse β} (hf : Reads (f name) ts b F) :
    Reads (expectIdent what >>= f) (.ident name :: ts) b F := by
  have h : Reads (Parse.expectIdent what) [.ident name] (pure name) fun _ => True :=
    .step (.next .refl)
  exact h.bind hf fun _ _ => trivial

theorem accept {f : Bool → Parse β} (hf : Reads (f true) ts b F) :
    Reads (accept t >>= f) (t :: ts) b F := by
  have h : Reads (Parse.accept t) [t] (pure true) fun _ => True := by
    refine .peek ?_
    rw [if_pos rfl]
    exact .next .refl
  exact h.bind hf fun _ _ => trivial

theorem decline {f : Bool → Parse β} (hf : Reads (f false) ts b F)
    (h : ∀ u, F u → ts.headD u ≠ t) : Reads (Parse.accept t >>= f) ts b F := by
  have hnot : Reads (Parse.accept t) [] (pure false) (· ≠ t) := by
    refine .peek_behind fun u hu => ?_
    rw [if_neg hu]
    exact .refl
  exact hnot.bind hf h

end Reads

/-! ## Loops

A production that has a loop behind it takes one call for each turn of the loop, and each turn takes
a token or more. -/

/-- Of `N` calls `p` spends one and no more than one to a token until `ts` are read, and it goes on
as a loop with the calls that are left. -/
def Enters (N : Nat) (p : Parse α) (ts : List Token) (loop : Nat → Parse α) (F : Token → Prop) :
    Prop :=
  ∃ M, N ≤ M + ts.length + 1 ∧ Reads p ts (loop M) F

namespace Enters

variable {N n : Nat} {p : Parse α} {loop loop' : Nat → Parse α} {a : α} {t : Token}
  {ts us : List Token} {F G : Token → Prop}

theorem start (hp : Reads p ts (loop n) F) : Enters (n + 1) p ts loop F := ⟨n, by omega, hp⟩

/-- One more turn. -/
theorem turn (hp : Enters N p ts loop G) (hN : ts.length + 1 < N) (ht : G t)
    (hf : ∀ m, N ≤ m + ts.length + 2 → Reads (loop (m + 1)) (t :: us) (loop' m) F) :
    Enters N p (ts ++ t :: us) loop' F := by
  obtain ⟨M, hM, hp⟩ := hp
  obtain ⟨m, rfl⟩ : ∃ m, M = m + 1 := ⟨M - 1, by omega⟩
  refine ⟨m, ?_, hp.trans (hf m (by omega)) fun _ _ => ht⟩
  rw [List.length_append, List.length_cons]
  omega

/-- The loop ends in front of a token that is none of its own. -/
theorem finish (hp : Enters N p ts loop G) (hN : ts.length + 1 < N)
    (hf : ∀ m, Reads (loop (m + 1)) [] (pure a) F) (h : ∀ u, F u → G u) :
    Reads p ts (pure a) F := by
  obtain ⟨M, hM, hp⟩ := hp
  obtain ⟨m, rfl⟩ : ∃ m, M = m + 1 := ⟨M - 1, by omega⟩
  exact List.append_nil ts ▸ hp.trans (hf m) h

end Enters

end Parse

end ScriptedAgent.Script
