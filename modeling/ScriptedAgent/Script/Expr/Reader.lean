import ScriptedAgent.Script.Cursor
import ScriptedAgent.Script.Expr

/-!
# Expressions from tokens

Each production reads one level of an expression and, behind it, as many operators of that level as
there are. A name must have the kind its place asks for. Productions take the number of calls that
may be nested in them; when it is used up they stop as exhausted.
-/

namespace ScriptedAgent.Script

open Parse

variable (T : TypeTable)

/-- `name` must be a composite variable with this field. -/
def checkField (name field : String) : Parse Unit := step do
  match T.get? name with
  | none => error (.undeclared name)
  | some t => match t.layout with
    | none => error (.notComposite name t.kind)
    | some l => if (l.field? field).isSome then return () else error (.noField name field)

/-- The field of a composite variable whose name and colon have been taken. -/
def fieldOf (name : String) : Parse String := do
  let field ← expectIdent "field name"
  checkField T name field
  return field

/-- A variable, or a field of one, as an operand of an integer expression. -/
def intName (name : String) : Parse IntFactor := step do
  match T.kindOf? name with
  | none => error (.undeclared name)
  | some .bytes => do
    expect (.symbol .colon) "composite field reference"
    return .field name (← fieldOf T name)
  | some k =>
    if k.grammar = .int then return .var name
    else error (.wrongKind name k "an integer")

mutual

def intExpr : Nat → Parse IntExpr
  | 0 => throw .exhausted
  | n + 1 => step do
    let t ← intTerm n
    intTerms n (.term t)

def intTerms : Nat → IntExpr → Parse IntExpr
  | 0, _ => throw .exhausted
  | n + 1, e => step do
    match ← peek with
    | .symbol .plus =>
      let _ ← next
      let t ← intTerm n
      intTerms n (.add e t)
    | .symbol .minus =>
      let _ ← next
      let t ← intTerm n
      intTerms n (.sub e t)
    | _ => return e

def intTerm : Nat → Parse IntTerm
  | 0 => throw .exhausted
  | n + 1 => step do
    let f ← intFactor n
    intFactors n (.factor f)

def intFactors : Nat → IntTerm → Parse IntTerm
  | 0, _ => throw .exhausted
  | n + 1, t => step do
    match ← peek with
    | .symbol .star =>
      let _ ← next
      let f ← intFactor n
      intFactors n (.mul t f)
    | .symbol .slash =>
      let _ ← next
      let f ← intFactor n
      intFactors n (.div t f)
    | _ => return t

def intFactor : Nat → Parse IntFactor
  | 0 => throw .exhausted
  | n + 1 => step do
    match ← next with
    | .int v => return .const v
    | .aliasName a => match T.alias? a with
      | some v => return .const v
      | none => error (.unknownAlias a)
    | .ident name => intName T name
    | .symbol .minus =>
      let f ← intFactor n
      return .neg f
    | .symbol .openParen =>
      let e ← intExpr n
      expect (.symbol .closeParen) "bracketed expression"
      return .group e
    | t => missing (.expected "an integer factor" t)

end

def comparisonOf? : Token → Option Comparison
  | .symbol .less => some .less
  | .symbol .greater => some .greater
  | .symbol .atMost => some .atMost
  | .symbol .atLeast => some .atLeast
  | .symbol .equal => some .equal
  | _ => none

def comparison (n : Nat) : Parse BoolFactor := step do
  let left ← intExpr T n
  let t ← next
  match comparisonOf? t with
  | none => missing (.expected "a comparison operator" t)
  | some op =>
    let right ← intExpr T n
    return .compare op left right

mutual

def boolExpr : Nat → Parse BoolExpr
  | 0 => throw .exhausted
  | n + 1 => step do
    let t ← boolTerm n
    boolTerms n (.term t)

def boolTerms : Nat → BoolExpr → Parse BoolExpr
  | 0, _ => throw .exhausted
  | n + 1, e => step do
    if ← accept (.symbol .pipe) then
      let t ← boolTerm n
      boolTerms n (.or e t)
    else return e

def boolTerm : Nat → Parse BoolTerm
  | 0 => throw .exhausted
  | n + 1 => step do
    let f ← boolFactor n
    boolFactors n (.factor f)

def boolFactors : Nat → BoolTerm → Parse BoolTerm
  | 0, _ => throw .exhausted
  | n + 1, t => step do
    if ← accept (.symbol .amp) then
      let f ← boolFactor n
      boolFactors n (.and t f)
    else return t

/-- A bracket always opens a boolean group here, never the left side of a comparison. -/
def boolFactor : Nat → Parse BoolFactor
  | 0 => throw .exhausted
  | n + 1 => step do
    match ← peek with
    | .keyword .true =>
      let _ ← next
      return .const true
    | .keyword .false =>
      let _ ← next
      return .const false
    | .symbol .bang =>
      let _ ← next
      let f ← boolFactor n
      return .not f
    | .symbol .openParen =>
      let _ ← next
      let e ← boolExpr n
      expect (.symbol .closeParen) "bracketed expression"
      return .group e
    | .ident name =>
      if T.kindOf? name = some .boolean then
        let _ ← next
        return .var name
      else comparison T n
    | _ => comparison T n

end

/-- Integers separated by commas; the last may have a comma behind it. -/
def intList : Nat → Parse (List IntExpr)
  | 0 => throw .exhausted
  | n + 1 => step do
    if (← peek) = .symbol .closeBracket then return []
    let e ← intExpr T n
    if ← accept (.symbol .comma) then
      let es ← intList n
      return e :: es
    else return [e]

mutual

def bitsExpr : Nat → Parse BitsExpr
  | 0 => throw .exhausted
  | n + 1 => step do
    let t ← bitsTerm n
    bitsTerms n (.term t)

def bitsTerms : Nat → BitsExpr → Parse BitsExpr
  | 0, _ => throw .exhausted
  | n + 1, e => step do
    if ← accept (.symbol .plus) then
      let t ← bitsTerm n
      bitsTerms n (.union e t)
    else return e

def bitsTerm : Nat → Parse BitsTerm
  | 0 => throw .exhausted
  | n + 1 => step do
    match ← next with
    | .symbol .openBracket =>
      let es ← intList T n
      expect (.symbol .closeBracket) "bitset literal"
      return .set es
    | .ident name => match T.kindOf? name with
      | none => error (.undeclared name)
      | some .bitset => return .var name
      | some k => error (.wrongKind name k "a bitset")
    | .symbol .openParen =>
      let e ← bitsExpr n
      expect (.symbol .closeParen) "bracketed expression"
      return .group e
    | t => missing (.expected "a bitset term" t)

end

mutual

def strExpr : Nat → Parse StrExpr
  | 0 => throw .exhausted
  | n + 1 => step do
    let t ← strTerm n
    strTerms n (.term t)

def strTerms : Nat → StrExpr → Parse StrExpr
  | 0, _ => throw .exhausted
  | n + 1, e => step do
    if ← accept (.symbol .plus) then
      let t ← strTerm n
      strTerms n (.append e t)
    else return e

def strTerm : Nat → Parse StrTerm
  | 0 => throw .exhausted
  | n + 1 => step do
    match ← next with
    | .str s => return .literal s
    | .ident name => match T.kindOf? name with
      | none => error (.undeclared name)
      | some k =>
        if k.grammar = .str then return .var name
        else error (.wrongKind name k "a string")
    | .symbol .openParen =>
      let e ← strExpr n
      expect (.symbol .closeParen) "bracketed expression"
      return .group e
    | .keyword .strInt =>
      expect (.symbol .openParen) "strInt"
      let e ← intExpr T n
      expect (.symbol .closeParen) "strInt"
      return .ofInt e
    | .keyword .strBool =>
      expect (.symbol .openParen) "strBool"
      let e ← boolExpr T n
      expect (.symbol .closeParen) "strBool"
      return .ofBool e
    | .keyword .strBits =>
      expect (.symbol .openParen) "strBits"
      let e ← bitsExpr T n
      expect (.symbol .closeParen) "strBits"
      return .ofBits e
    | t => missing (.expected "a string term" t)

end

end ScriptedAgent.Script
