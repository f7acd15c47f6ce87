import ScriptedAgent.Run.Eval
import ScriptedAgent.Run.Exact

/-!
# Truth of conditions

What a condition is where all of it counts: its truth over the values of its variables, with sums
and products over all integers, and its atoms, the variables and comparisons that it is made of. An
evaluation need not come to all of them: `Agrees` says which conditions are one and the same to it.
-/

namespace ScriptedAgent

namespace Script

/-- What the names in a condition stand for. -/
structure Facts where
  numbers : Operands
  holds : String → Bool

/-- A comparison over all integers. -/
def Comparison.exact (a b : Int) : Comparison → Bool
  | less => a < b
  | greater => b < a
  | atMost => a ≤ b
  | atLeast => b ≤ a
  | equal => a = b

/-! ## Truth -/

section

variable (ρ : Facts)

mutual

def BoolExpr.truth : BoolExpr → Bool
  | .term t => t.truth
  | .or e t => e.truth || t.truth

def BoolTerm.truth : BoolTerm → Bool
  | .factor f => f.truth
  | .and t f => t.truth && f.truth

def BoolFactor.truth : BoolFactor → Bool
  | .const b => b
  | .var x => ρ.holds x
  | .not f => !f.truth
  | .group e => e.truth
  | .compare op l r => op.exact (l.exact ρ.numbers) (r.exact ρ.numbers)

end

end

mutual

/-- The variables and the comparisons in a condition, at any depth. -/
def BoolExpr.atoms : BoolExpr → List BoolFactor
  | .term t => t.atoms
  | .or e t => e.atoms ++ t.atoms

def BoolTerm.atoms : BoolTerm → List BoolFactor
  | .factor f => f.atoms
  | .and t f => t.atoms ++ f.atoms

def BoolFactor.atoms : BoolFactor → List BoolFactor
  | .const _ => []
  | .var x => [.var x]
  | .not f => f.atoms
  | .group e => e.atoms
  | .compare op l r => [.compare op l r]

end

/-! ## Operands that are skipped -/

/-- The condition with more terms behind its own. -/
def BoolExpr.orAll (e : BoolExpr) (ts : List BoolTerm) : BoolExpr := ts.foldl .or e

/-- The term with more factors behind its own. -/
def BoolTerm.andAll (t : BoolTerm) (fs : List BoolFactor) : BoolTerm := fs.foldl .and t

variable (T : TypeTable)

mutual

/-- An evaluation from `m` comes to the same operands of both conditions. Where one term is true or
fails they may have any terms behind it, and where one factor of a term is false or fails the term
may have any factors behind it. -/
inductive BoolExpr.Agrees : Machine → BoolExpr → BoolExpr → Prop
  | refl (m : Machine) (e : BoolExpr) : BoolExpr.Agrees m e e
  | term {m : Machine} {t t' : BoolTerm} :
    BoolTerm.Agrees m t t' → BoolExpr.Agrees m (.term t) (.term t')
  | or {m m' : Machine} {e e' : BoolExpr} {t t' : BoolTerm} : BoolExpr.Agrees m e e' →
    e.eval T m = (.ok false, m') → BoolTerm.Agrees m' t t' → BoolExpr.Agrees m (.or e t) (.or e' t')
  | decided {m : Machine} {e e' : BoolExpr} : BoolExpr.Agrees m e e' →
    (e.eval T m).1 ≠ .ok false → ∀ ts ts', BoolExpr.Agrees m (e.orAll ts) (e'.orAll ts')

inductive BoolTerm.Agrees : Machine → BoolTerm → BoolTerm → Prop
  | refl (m : Machine) (t : BoolTerm) : BoolTerm.Agrees m t t
  | factor {m : Machine} {f f' : BoolFactor} :
    BoolFactor.Agrees m f f' → BoolTerm.Agrees m (.factor f) (.factor f')
  | and {m m' : Machine} {t t' : BoolTerm} {f f' : BoolFactor} : BoolTerm.Agrees m t t' →
    t.eval T m = (.ok true, m') → BoolFactor.Agrees m' f f' →
      BoolTerm.Agrees m (.and t f) (.and t' f')
  | decided {m : Machine} {t t' : BoolTerm} : BoolTerm.Agrees m t t' →
    (t.eval T m).1 ≠ .ok true → ∀ fs fs', BoolTerm.Agrees m (t.andAll fs) (t'.andAll fs')

inductive BoolFactor.Agrees : Machine → BoolFactor → BoolFactor → Prop
  | refl (m : Machine) (f : BoolFactor) : BoolFactor.Agrees m f f
  | not {m : Machine} {f f' : BoolFactor} :
    BoolFactor.Agrees m f f' → BoolFactor.Agrees m (.not f) (.not f')
  | group {m : Machine} {e e' : BoolExpr} :
    BoolExpr.Agrees m e e' → BoolFactor.Agrees m (.group e) (.group e')

end

end Script

/-! ## Facts in a store -/

namespace Store

/-- The store as a script with types of its own sees it. -/
def seenBy (s : Store) (T : TypeTable) : Store := { s with types := T }

/-- The variables of a store as facts. A boolean holds where it is true. -/
def facts (s : Store) : Script.Facts where
  numbers := s.operands
  holds x := s.read? x = some (.integer (truthValue true))

end Store

end ScriptedAgent
