import ScriptedAgent.Script.Cursor

/-!
# Declarations

The `var` block of a script: a line to a variable, with its identifier if it is exported, its kind,
names for some of its values, the layout of a composite one, and who may set it. An identifier
written without a point in front is taken below the base identifier.
-/

namespace ScriptedAgent.Script

open Parse

/-- A base identifier with one point in front and none at the end. -/
def baseOid (written : String) : String :=
  let cs := (written.toList.reverse.dropWhile (· == '.')).reverse
  String.ofList (if cs.head? = some '.' then cs else '.' :: cs)

def absoluteOid (base written : String) : String :=
  if written.toList.head? = some '.' then written else base ++ "." ++ written

/-- The identifier that a declaration begins with. -/
def declaredOid? (base : String) : Token → Option String
  | .oid s => some (absoluteOid base s)
  | .int n => some (absoluteOid base (Number.text n))
  | _ => none

/-- Pairs of a number and its alias up to the closing bracket, with or without commas. -/
def aliases : Nat → TypeTable → Parse TypeTable
  | 0, _ => throw .exhausted
  | n + 1, T => step do
    if ← accept (.symbol .closeBracket) then return T
    let negative ← accept (.symbol .minus)
    match ← next with
    | .int v =>
      expect (.symbol .equal) "alias list"
      match ← next with
      | .aliasName a => match T.bindAlias a (if negative then -v else v) with
        | .error e => error (.table e)
        | .ok T =>
          let _ ← accept (.symbol .comma)
          aliases n T
      | t => error (.expected "quoted alias name" t)
    | t => error (.expected "integer in alias list" t)

/-- Fields separated by commas; the last may have a comma behind it. -/
def fieldList : Nat → Parse (List Field)
  | 0 => throw .exhausted
  | n + 1 => step do
    if (← peek) = .symbol .closeBrace then return []
    let name ← expectIdent "field name"
    expect (.symbol .colon) "composite layout"
    let offset ← expectSize "field offset"
    let size ← expectSize "field size"
    let f : Field := ⟨name, offset, size⟩
    if ← accept (.symbol .comma) then
      let fs ← fieldList n
      return f :: fs
    else return [f]

def layout (n : Nat) : Parse Layout := step do
  expect (.symbol .openBrace) "composite layout"
  let fields ← fieldList n
  expect (.symbol .closeBrace) "composite layout"
  match Layout.ofFields? fields with
  | .ok l => return l
  | .error e => error (.layout e)

def access : Parse Access := do
  match ← peek with
  | .access a =>
    let _ ← next
    return a
  | _ => return .readonly

/-- The names a declaration gives to values, if it gives any. -/
def aliasList (n : Nat) (k : Kind) (T : TypeTable) : Parse TypeTable := do
  if k.takesAliases then
    if ← accept (.symbol .openBracket) then aliases n T else return T
  else return T

/-- The type of a variable from its kind on. -/
def typeOfKind (n : Nat) (oid : Option String) (T : TypeTable) :
    Token → Parse (VarType × TypeTable)
  | .kind k => do
    let T ← aliasList n k T
    let l ← if k = .bytes then some <$> layout n else pure none
    let a ← access
    return (⟨k, oid, l, a⟩, T)
  | t => error (.expected "a variable type" t)

def varType (base : String) (n : Nat) (T : TypeTable) : Parse (VarType × TypeTable) := step do
  let t ← next
  match declaredOid? base t with
  | none => typeOfKind n none T t
  | some oid => typeOfKind n (some oid) T (← next)

/-- Declarations up to the end of the block. -/
def varLines (base : String) : Nat → TypeTable → Parse TypeTable
  | 0, _ => throw .exhausted
  | n + 1, T => step do
    match ← next with
    | .keyword .endvar =>
      expect .newline "var block"
      return T
    | .ident name =>
      expect (.symbol .colon) "declaration"
      let (t, T) ← varType base n T
      match T.declare name t with
      | .error e => error (.table e)
      | .ok T =>
        expect .newline "declaration"
        varLines base n T
    | .eof => error .missingEndvar
    | t => error (.inVarBlock t)

/-- The variables of a script; none if it begins without a `var` block. -/
def declarations (base : String) (n : Nat) : Parse TypeTable := step do
  if ← accept (.keyword .var) then
    expect .newline "var block"
    varLines base n .empty
  else return .empty

end ScriptedAgent.Script
