import ScriptedAgent.Script.Expr
import ScriptedAgent.Script.Token

/-!
# Expressions as tokens

The tokens of an expression in the notation of scripts. A number below zero has no notation of its
own, and a comparison whose left side begins with a bracket would be read as a boolean group; the
expressions without either are the expressible ones.
-/

namespace ScriptedAgent.Script

def bracketed (ts : List Token) : List Token :=
  .symbol .openParen :: ts ++ [.symbol .closeParen]

/-- Lists of tokens, a comma between any two. -/
def commaSeparated : List (List Token) → List Token
  | [] => []
  | [ts] => ts
  | ts :: rest => ts ++ .symbol .comma :: commaSeparated rest

mutual

def IntExpr.tokens : IntExpr → List Token
  | .term t => t.tokens
  | .add e t => e.tokens ++ .symbol .plus :: t.tokens
  | .sub e t => e.tokens ++ .symbol .minus :: t.tokens

def IntTerm.tokens : IntTerm → List Token
  | .factor f => f.tokens
  | .mul t f => t.tokens ++ .symbol .star :: f.tokens
  | .div t f => t.tokens ++ .symbol .slash :: f.tokens

def IntFactor.tokens : IntFactor → List Token
  | .const n => [.int n]
  | .var x => [.ident x]
  | .field x f => [.ident x, .symbol .colon, .ident f]
  | .neg f => .symbol .minus :: f.tokens
  | .group e => bracketed e.tokens

end

def Comparison.symbol : Comparison → Symbol
  | less => .less
  | greater => .greater
  | atMost => .atMost
  | atLeast => .atLeast
  | equal => .equal

mutual

def BoolExpr.tokens : BoolExpr → List Token
  | .term t => t.tokens
  | .or e t => e.tokens ++ .symbol .pipe :: t.tokens

def BoolTerm.tokens : BoolTerm → List Token
  | .factor f => f.tokens
  | .and t f => t.tokens ++ .symbol .amp :: f.tokens

def BoolFactor.tokens : BoolFactor → List Token
  | .const true => [.keyword .true]
  | .const false => [.keyword .false]
  | .var x => [.ident x]
  | .not f => .symbol .bang :: f.tokens
  | .group e => bracketed e.tokens
  | .compare op l r => l.tokens ++ .symbol op.symbol :: r.tokens

end

mutual

def BitsExpr.tokens : BitsExpr → List Token
  | .term t => t.tokens
  | .union e t => e.tokens ++ .symbol .plus :: t.tokens

def BitsTerm.tokens : BitsTerm → List Token
  | .set es =>
    .symbol .openBracket :: commaSeparated (es.map IntExpr.tokens) ++ [.symbol .closeBracket]
  | .var x => [.ident x]
  | .group e => bracketed e.tokens

end

mutual

def StrExpr.tokens : StrExpr → List Token
  | .term t => t.tokens
  | .append e t => e.tokens ++ .symbol .plus :: t.tokens

def StrTerm.tokens : StrTerm → List Token
  | .literal s => [.str s]
  | .var x => [.ident x]
  | .group e => bracketed e.tokens
  | .ofInt e => .keyword .strInt :: bracketed e.tokens
  | .ofBool e => .keyword .strBool :: bracketed e.tokens
  | .ofBits e => .keyword .strBits :: bracketed e.tokens

end

def Expr.tokens : Expr → List Token
  | int e => e.tokens
  | bool e => e.tokens
  | str e => e.tokens
  | bits e => e.tokens

mutual

def IntExpr.Expressible : IntExpr → Prop
  | .term t => t.Expressible
  | .add e t => e.Expressible ∧ t.Expressible
  | .sub e t => e.Expressible ∧ t.Expressible

def IntTerm.Expressible : IntTerm → Prop
  | .factor f => f.Expressible
  | .mul t f => t.Expressible ∧ f.Expressible
  | .div t f => t.Expressible ∧ f.Expressible

def IntFactor.Expressible : IntFactor → Prop
  | .const n => 0 ≤ n.toInt
  | .var _ | .field .. => True
  | .neg f => f.Expressible
  | .group e => e.Expressible

end

/-- The factor an expression begins with. -/
def IntTerm.first : IntTerm → IntFactor
  | .factor f => f
  | .mul t _ => t.first
  | .div t _ => t.first

def IntExpr.first : IntExpr → IntFactor
  | .term t => t.first
  | .add e _ => e.first
  | .sub e _ => e.first

def IntFactor.IsGroup : IntFactor → Prop
  | .group _ => True
  | _ => False

mutual

def BoolExpr.Expressible : BoolExpr → Prop
  | .term t => t.Expressible
  | .or e t => e.Expressible ∧ t.Expressible

def BoolTerm.Expressible : BoolTerm → Prop
  | .factor f => f.Expressible
  | .and t f => t.Expressible ∧ f.Expressible

def BoolFactor.Expressible : BoolFactor → Prop
  | .const _ | .var _ => True
  | .not f => f.Expressible
  | .group e => e.Expressible
  | .compare _ l r => l.Expressible ∧ r.Expressible ∧ ¬ l.first.IsGroup

end

mutual

def BitsExpr.Expressible : BitsExpr → Prop
  | .term t => t.Expressible
  | .union e t => e.Expressible ∧ t.Expressible

def BitsTerm.Expressible : BitsTerm → Prop
  | .set es => ∀ e ∈ es, e.Expressible
  | .var _ => True
  | .group e => e.Expressible

end

mutual

def StrExpr.Expressible : StrExpr → Prop
  | .term t => t.Expressible
  | .append e t => e.Expressible ∧ t.Expressible

def StrTerm.Expressible : StrTerm → Prop
  | .literal _ | .var _ => True
  | .group e => e.Expressible
  | .ofInt e => e.Expressible
  | .ofBool e => e.Expressible
  | .ofBits e => e.Expressible

end

def Expr.Expressible : Expr → Prop
  | int e => e.Expressible
  | bool e => e.Expressible
  | str e => e.Expressible
  | bits e => e.Expressible

end ScriptedAgent.Script
