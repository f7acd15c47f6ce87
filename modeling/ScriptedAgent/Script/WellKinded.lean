import ScriptedAgent.Script.Stmt
import ScriptedAgent.TypeTable

/-!
# Well-kinded scripts

A script fits a table of variables when each variable in it is declared with a kind that its place
takes, each field belongs to the layout of its variable, and each assignment has the expression that
its target is assigned from.
-/

namespace ScriptedAgent.Script

/-- `name` is declared with a kind that expressions of grammar `g` assign. -/
def HasGrammar (T : TypeTable) (name : String) (g : Grammar) : Prop :=
  (T.kindOf? name).map Kind.grammar = some g

instance (T : TypeTable) (name : String) (g : Grammar) : Decidable (HasGrammar T name g) :=
  inferInstanceAs (Decidable (_ = _))

/-- `name` is declared as a block that has `field`. -/
def HasField (T : TypeTable) (name field : String) : Prop :=
  T.kindOf? name = some .bytes ∧ (T.field? name field).isSome = true

instance (T : TypeTable) (name field : String) : Decidable (HasField T name field) :=
  inferInstanceAs (Decidable (_ ∧ _))

variable (T : TypeTable)

mutual

def IntExpr.WellKinded : IntExpr → Prop
  | .term t => t.WellKinded
  | .add e t => e.WellKinded ∧ t.WellKinded
  | .sub e t => e.WellKinded ∧ t.WellKinded

def IntTerm.WellKinded : IntTerm → Prop
  | .factor f => f.WellKinded
  | .mul t f => t.WellKinded ∧ f.WellKinded
  | .div t f => t.WellKinded ∧ f.WellKinded

def IntFactor.WellKinded : IntFactor → Prop
  | .const _ => True
  | .var x => HasGrammar T x .int
  | .field x f => HasField T x f
  | .neg f => f.WellKinded
  | .group e => e.WellKinded

end

mutual

def BoolExpr.WellKinded : BoolExpr → Prop
  | .term t => t.WellKinded
  | .or e t => e.WellKinded ∧ t.WellKinded

def BoolTerm.WellKinded : BoolTerm → Prop
  | .factor f => f.WellKinded
  | .and t f => t.WellKinded ∧ f.WellKinded

def BoolFactor.WellKinded : BoolFactor → Prop
  | .const _ => True
  | .var x => HasGrammar T x .bool
  | .not f => f.WellKinded
  | .group e => e.WellKinded
  | .compare _ l r => l.WellKinded T ∧ r.WellKinded T

end

mutual

def BitsExpr.WellKinded : BitsExpr → Prop
  | .term t => t.WellKinded
  | .union e t => e.WellKinded ∧ t.WellKinded

def BitsTerm.WellKinded : BitsTerm → Prop
  | .set es => ∀ e ∈ es, e.WellKinded T
  | .var x => HasGrammar T x .bits
  | .group e => e.WellKinded

end

mutual

def StrExpr.WellKinded : StrExpr → Prop
  | .term t => t.WellKinded
  | .append e t => e.WellKinded ∧ t.WellKinded

def StrTerm.WellKinded : StrTerm → Prop
  | .literal _ => True
  | .var x => HasGrammar T x .str
  | .group e => e.WellKinded
  | .ofInt e => e.WellKinded T
  | .ofBool e => e.WellKinded T
  | .ofBits e => e.WellKinded T

end

/-- The grammar of the variables that are assigned from the expression. -/
def Expr.grammar : Expr → Grammar
  | int _ => .int
  | bool _ => .bool
  | str _ => .str
  | bits _ => .bits

/-- An expression that variables of grammar `g` are assigned from. -/
def Expr.WellKinded (g : Grammar) : Expr → Prop
  | int e => g = .int ∧ e.WellKinded T
  | bool e => g = .bool ∧ e.WellKinded T
  | str e => g = .str ∧ e.WellKinded T
  | bits e => g = .bits ∧ e.WellKinded T

/-- A variable takes the expression of its grammar, a field an integer. -/
def AssignmentWellKinded : Target → Expr → Prop
  | .var x, e => ∃ g, HasGrammar T x g ∧ e.WellKinded T g
  | .field x f, e => HasField T x f ∧ e.WellKinded T .int

def LoopControl.WellKinded : LoopControl → Prop
  | forever => True
  | times e => e.WellKinded T
  | «while» e => e.WellKinded T

mutual

def Stmt.WellKinded : Stmt → Prop
  | .assign target e => AssignmentWellKinded T target e
  | .print e => e.WellKinded T
  | .sleep e _ => e.WellKinded T
  | .exit => True
  | .branch cond body rest => cond.WellKinded T ∧ BlockWellKinded body ∧ rest.WellKinded
  | .loop control body => control.WellKinded T ∧ BlockWellKinded body

def Branches.WellKinded : Branches → Prop
  | .otherwise body => BlockWellKinded body
  | .elseif cond body rest => cond.WellKinded T ∧ BlockWellKinded body ∧ rest.WellKinded

def BlockWellKinded : List Stmt → Prop
  | [] => True
  | s :: ss => s.WellKinded ∧ BlockWellKinded ss

end

end ScriptedAgent.Script
