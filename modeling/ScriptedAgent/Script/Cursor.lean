import ScriptedAgent.Script.Lexer
import ScriptedAgent.TypeTable

/-!
# Reading tokens

A `Parse` walks over the tokens of a text. It can look one token ahead; a lexical fault stops it
when it looks at the place of the fault and not before. It keeps the lines of the last two tokens it
took, which errors are reported at, and counts its steps: a step is one call of a procedure that
can look at a token or refuse one, or one turn of a loop. A call that begins with a turn is one step
with it.
-/

namespace ScriptedAgent.Script

inductive ParseFault where
  /-- One token was due and another was there. -/
  | unexpected (wanted : Token) (place : String) (found : Token)
  /-- A token of some class was due. -/
  | expected (what : String) (found : Token)
  | tooLarge (what : String)
  | undeclared (name : String)
  | undeclaredTarget (name : String)
  | noField (name field : String)
  | notComposite (name : String) (kind : Kind)
  | wrongKind (name : String) (kind : Kind) (wanted : String)
  | wholeComposite (name : String)
  | unknownAlias (name : String)
  | table (e : TableError)
  | layout (e : LayoutFault)
  | missingEndvar
  | inVarBlock (found : Token)
  | endInBlock
  | tooDeep
deriving DecidableEq

def ParseFault.message : ParseFault → String
  | unexpected w p f => "expected " ++ w.describe ++ " in " ++ p ++ ", found " ++ f.describe
  | expected w f => "expected " ++ w ++ ", found " ++ f.describe
  | tooLarge w => w ++ " is too large"
  | undeclared n => "undeclared variable `" ++ n ++ "`"
  | undeclaredTarget n => "assignment to undeclared variable `" ++ n ++ "`"
  | noField n f => "`" ++ n ++ "` has no field `" ++ f ++ "`"
  | notComposite n k => "`" ++ n ++ "` is " ++ k.keyword ++ ", not a composite block"
  | wrongKind n k w => "`" ++ n ++ "` is " ++ k.keyword ++ ", not " ++ w ++ " variable"
  | wholeComposite n =>
    "composite variable `" ++ n ++ "` is assigned one field at a time (`" ++ n ++ ":field = …`)"
  | unknownAlias a => "unknown alias '" ++ a ++ "'"
  | table e => e.message
  | layout e => e.message
  | missingEndvar => "missing `endvar`"
  | inVarBlock f => "unexpected " ++ f.describe ++ " in var block"
  | endInBlock => "unexpected end of input inside a block"
  | tooDeep => "too deeply nested"

/-- Why a text is not a script. -/
inductive ScriptError where
  | lex (e : LexError)
  | parse (line : Nat) (fault : ParseFault)
deriving DecidableEq

namespace ScriptError

def line : ScriptError → Nat
  | lex e => e.line
  | parse l _ => l

def message : ScriptError → String
  | lex e => "lexical error at line " ++ toString e.line ++ ": " ++ e.fault.message
  | parse l f => "parse failed at line " ++ toString l ++ ": " ++ f.message

end ScriptError

structure Cursor where
  tokens : List Located
  ending : Ending
  /-- The line of the token taken last. -/
  line : Nat
  /-- The line of the token taken before that. -/
  previous : Nat
  steps : Nat
deriving DecidableEq

def Cursor.ofStream (s : TokenStream) : Cursor := ⟨s.tokens, s.ending, 1, 1, 0⟩

/-- Why a parse stops: the text has a fault, or it was given too few steps. -/
inductive Stop where
  | fault (e : ScriptError)
  | exhausted
deriving DecidableEq

abbrev Parse := ExceptT Stop (StateM Cursor)

namespace Parse

variable {α : Type}

def step (p : Parse α) : Parse α := do
  modify fun c => { c with steps := c.steps + 1 }
  p

def fail (e : ScriptError) : Parse α := throw (.fault e)

/-- A fault at the token taken last. -/
def error (fault : ParseFault) : Parse α := step do fail (.parse (← get).line fault)

/-- A fault at the token before the one taken last, behind which something is missing. -/
def missing (fault : ParseFault) : Parse α := step do fail (.parse (← get).previous fault)

/-- The token ahead, which is not taken. -/
def peek : Parse Token := step do
  let c ← get
  match c.tokens, c.ending with
  | t :: _, _ => return t.token
  | [], .eof _ => return .eof
  | [], .fault e => fail (.lex e)

/-- Takes a token. The end of a text can be taken any number of times. -/
def next : Parse Token := step do
  let c ← get
  match c.tokens, c.ending with
  | t :: ts, _ =>
    set { c with tokens := ts, line := t.line, previous := c.line }
    return t.token
  | [], .eof line =>
    set { c with line := line, previous := c.line }
    return .eof
  | [], .fault e => fail (.lex e)

def expect (wanted : Token) (place : String) : Parse Unit := step do
  let t ← next
  if t = wanted then return ()
  error (.unexpected wanted place t)

def expectIdent (what : String) : Parse String := step do
  match ← next with
  | .ident name => return name
  | t => error (.expected what t)

/-- A number of octets. -/
def expectSize (what : String) : Parse Nat := step do
  match ← next with
  | .int n => if 0 ≤ n.toInt then return n.toInt.toNat else error (.tooLarge what)
  | t => error (.expected what t)

/-- Takes the next token if it is this one. -/
def accept (t : Token) : Parse Bool := do
  if (← peek) = t then
    let _ ← next
    return true
  return false

end Parse

end ScriptedAgent.Script
