import ScriptedAgent.Script.Token
import ScriptedAgent.Text.Hex

/-!
# The tokens of a text

`Lexer.next` takes one token off the front of a text. Blanks and comments between tokens vanish. A
line break is a token of its own, except where no statement can end: at the start of the text, after
another line break, after an operator or a comma, and between brackets. `Lexer.stream` is all tokens
of a text together with the way they end.
-/

namespace ScriptedAgent.Script

inductive LexFault where
  | outOfRange (digits : String)
  | unterminatedString
  /-- Of a character beyond ASCII, its first octet is shown. -/
  | unknownEscape (shown : Char)
  | unterminatedAlias
  | emptyAlias
  | unrecognised (octet : UInt8)
deriving DecidableEq

def LexFault.message : LexFault → String
  | outOfRange s => "integer literal " ++ s ++ " is out of range"
  | unterminatedString => "unterminated string literal"
  | unknownEscape c => "unknown escape `\\" ++ String.ofList [c] ++ "`"
  | unterminatedAlias => "unterminated alias; expected closing `'`"
  | emptyAlias => "empty alias name"
  | unrecognised b =>
    "unrecognised character " ++
      if 0x21 ≤ b ∧ b ≤ 0x7e then "`" ++ String.ofList [Char.ofNat b.toNat] ++ "`"
      else "byte " ++ Hex.number b

structure LexError where
  line : Nat
  fault : LexFault
deriving DecidableEq

structure Lexer where
  rest : List Char
  line : Nat
  /-- How many brackets are open. -/
  depth : Nat
  /-- No statement has begun, or the one that has cannot end here. -/
  fresh : Bool
deriving DecidableEq

namespace Lexer

def start (text : String) : Lexer := ⟨text.toList, 1, 0, true⟩

/-- Drops blanks and comments and, with `breaks`, line breaks; gives the line it comes to. -/
def skip (breaks comment : Bool) (line : Nat) : List Char → Nat × List Char
  | [] => (line, [])
  | c :: cs =>
    if c = '\n' then
      if breaks then skip breaks false (line + 1) cs else (line, c :: cs)
    else if comment ∨ c = ' ' ∨ c = '\t' ∨ c = '\r' then skip breaks comment line cs
    else if c = '#' then skip breaks true line cs
    else (line, c :: cs)

/-- The longest run of characters each of which `p` accepts in view of what follows it. -/
def run (p : Char → List Char → Bool) : List Char → List Char × List Char
  | [] => ([], [])
  | c :: cs =>
    if p c cs then
      let r := run p cs
      (c :: r.1, r.2)
    else ([], c :: cs)

/-- Whether a text goes on with a digit. -/
def digitNext : List Char → Bool
  | c :: _ => c.isDigit
  | [] => false

def letterNext : List Char → Bool
  | c :: _ => c.isAlpha
  | [] => false

/-- Digits, and points with a digit behind them. -/
def inNumber (c : Char) (cs : List Char) : Bool := c.isDigit || (c = '.' && digitNext cs)

def isWordChar (c : Char) : Bool := c.isAlphanum || c = '_'

/-- Word characters, and hyphens with a letter behind them. -/
def inWord (c : Char) (cs : List Char) : Bool := isWordChar c || (c = '-' && letterNext cs)

def inAlias (c : Char) (_ : List Char) : Bool := isWordChar c || c = '-'

/-- Digits are an integer, and with a point among them an identifier. -/
def numberToken (cs : List Char) : Except LexFault Token :=
  if '.' ∈ cs then .ok (.oid (String.ofList cs))
  else match Number.ofText? cs with
    | some n => .ok (.int n)
    | none => .error (.outOfRange (String.ofList cs))

/-- The first octet of a character's UTF-8 form. -/
def leadOctet (c : Char) : UInt8 := ((String.utf8EncodeChar c).head?).getD 0

/-- The characters of a string up to its closing quote, and what follows that. -/
def stringBody : List Char → Except LexFault (List Char × List Char)
  | [] => .error .unterminatedString
  | c :: cs =>
    if c = '\n' then .error .unterminatedString
    else if c = '"' then .ok ([], cs)
    else if c = '\\' then match cs with
      | [] => .error .unterminatedString
      | e :: cs =>
        if e = 'n' then (stringBody cs).map fun (s, r) => ('\n' :: s, r)
        else if e = 't' then (stringBody cs).map fun (s, r) => ('\t' :: s, r)
        else if e = '"' ∨ e = '\\' then (stringBody cs).map fun (s, r) => (e :: s, r)
        else .error (.unknownEscape (Char.ofNat (leadOctet e).toNat))
    else (stringBody cs).map fun (s, r) => (c :: s, r)

/-- The name of an alias, behind its opening quote. -/
def aliasBody (cs : List Char) : Except LexFault (Token × List Char) :=
  match run inAlias cs with
  | (name, '\'' :: rest) =>
    if name.isEmpty then .error .emptyAlias else .ok (.aliasName (String.ofList name), rest)
  | _ => .error .unterminatedAlias

/-- A symbol, or the one that it makes with an equality sign behind it. -/
def withEqual (alone together : Symbol) : List Char → Token × List Char
  | '=' :: cs => (.symbol together, cs)
  | cs => (.symbol alone, cs)

/-- The symbols of one character, apart from the two that an equality sign may follow. -/
def symbol? (c : Char) : Option Symbol :=
  [.equal, .plus, .minus, .star, .slash, .bang, .amp, .pipe, .openParen, .closeParen, .openBracket,
    .closeBracket, .openBrace, .closeBrace, .colon, .comma].find? fun s => s.chars == [c]

/-- The token that begins with `c`, which is neither a blank nor a line break. -/
def token (c : Char) (cs : List Char) : Except LexFault (Token × List Char) :=
  if c.isDigit ∨ (c = '.' ∧ digitNext cs) then
    let r := run inNumber cs
    (numberToken (c :: r.1)).map fun t => (t, r.2)
  else if c = '"' then (stringBody cs).map fun (s, r) => (.str (String.ofList s), r)
  else if c = '\'' then aliasBody cs
  else if c.isAlpha ∨ c = '_' then
    let r := run inWord cs
    .ok (.ofWord (String.ofList (c :: r.1)), r.2)
  else if c = '<' then .ok (withEqual .less .atMost cs)
  else if c = '>' then .ok (withEqual .greater .atLeast cs)
  else match symbol? c with
    | some s => .ok (.symbol s, cs)
    | none => .error (.unrecognised (leadOctet c))

/-- The count of open brackets behind a token. A bracket too many closes nothing. -/
def depthAfter (depth : Nat) : Token → Nat
  | .symbol s => if s.opens then depth + 1 else if s.closes then depth - 1 else depth
  | _ => depth

/-- The next token and the text behind it. At the end of the text it is `eof`, ever again. -/
def next (l : Lexer) : Except LexError (Located × Lexer) :=
  match skip (0 < l.depth || l.fresh) false l.line l.rest with
  | (line, []) => .ok (⟨.eof, line⟩, { l with rest := [], line })
  | (line, c :: cs) =>
    if c = '\n' then
      .ok (⟨.newline, line⟩, { l with rest := cs, line := line + 1, fresh := true })
    else match token c cs with
      | .error fault => .error ⟨line, fault⟩
      | .ok (t, rest) => .ok (⟨t, line⟩, ⟨rest, line, depthAfter l.depth t, t.continues⟩)

end Lexer

/-- How the tokens of a text end. -/
inductive Ending where
  | eof (line : Nat)
  | fault (e : LexError)
deriving DecidableEq

/-- The tokens of a text up to its end or to the first fault. -/
structure TokenStream where
  tokens : List Located
  ending : Ending
deriving DecidableEq

namespace Lexer

/-- At most `n` tokens. -/
def take : Nat → Lexer → TokenStream
  | 0, l => ⟨[], .eof l.line⟩
  | n + 1, l => match l.next with
    | .error e => ⟨[], .fault e⟩
    | .ok (⟨.eof, line⟩, _) => ⟨[], .eof line⟩
    | .ok (t, l') =>
      let s := take n l'
      ⟨t :: s.tokens, s.ending⟩

/-- Every token takes a character or more, so there are no more tokens than characters. -/
def stream (text : String) : TokenStream := take (text.toList.length + 1) (start text)

end Lexer

namespace TokenStream

/-- The tokens with the one that marks the end, where the text ends without a fault. -/
def all (s : TokenStream) : List Located :=
  match s.ending with
  | .eof line => s.tokens ++ [⟨.eof, line⟩]
  | .fault _ => s.tokens

end TokenStream

end ScriptedAgent.Script
