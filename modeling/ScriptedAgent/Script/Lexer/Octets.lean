import ScriptedAgent.Script.Lexer
import ScriptedAgent.Text.Utf8

/-!
# The tokens of octets

The lexer on the octets of a script. It looks at one octet, or at one and the next, and never at a
whole character: the octets of a string are gathered one by one, its escapes replaced, and decoded
when its closing quote is found.
-/

namespace ScriptedAgent.Script

open Lexer (inNumber inWord inAlias digitNext numberToken symbol? depthAfter)

structure OctetLexer where
  rest : List UInt8
  line : Nat
  depth : Nat
  fresh : Bool
deriving DecidableEq

namespace OctetLexer

/-- The character that an octet is on its own. -/
def chr (b : UInt8) : Char := Char.ofNat b.toNat

/-- The octet ahead, if there is one. -/
def peek (bs : List UInt8) : List Char := (bs.take 1).map chr

def skip (breaks comment : Bool) (line : Nat) : List UInt8 → Nat × List UInt8
  | [] => (line, [])
  | b :: bs =>
    if chr b = '\n' then
      if breaks then skip breaks false (line + 1) bs else (line, b :: bs)
    else if comment ∨ chr b = ' ' ∨ chr b = '\t' ∨ chr b = '\r' then skip breaks comment line bs
    else if chr b = '#' then skip breaks true line bs
    else (line, b :: bs)

/-- The longest run of octets each of which `p` accepts in view of the next. -/
def run (p : Char → List Char → Bool) : List UInt8 → List UInt8 × List UInt8
  | [] => ([], [])
  | b :: bs =>
    if p (chr b) (peek bs) then
      let r := run p bs
      (b :: r.1, r.2)
    else ([], b :: bs)

/-- The octets of a string up to its closing quote, and what follows that. -/
def stringBody : List UInt8 → Except LexFault (List UInt8 × List UInt8)
  | [] => .error .unterminatedString
  | b :: bs =>
    if chr b = '\n' then .error .unterminatedString
    else if chr b = '"' then .ok ([], bs)
    else if chr b = '\\' then match bs with
      | [] => .error .unterminatedString
      | e :: bs =>
        if chr e = 'n' then (stringBody bs).map fun (s, r) => ('\n'.toUInt8 :: s, r)
        else if chr e = 't' then (stringBody bs).map fun (s, r) => ('\t'.toUInt8 :: s, r)
        else if chr e = '"' ∨ chr e = '\\' then (stringBody bs).map fun (s, r) => (e :: s, r)
        else .error (.unknownEscape (chr e))
    else (stringBody bs).map fun (s, r) => (b :: s, r)

def aliasBody (bs : List UInt8) : Except LexFault (Token × List UInt8) :=
  let r := run inAlias bs
  match r.2 with
  | [] => .error .unterminatedAlias
  | b :: rest =>
    if chr b = '\'' then
      if r.1.isEmpty then .error .emptyAlias else .ok (.aliasName (Text.repaired r.1), rest)
    else .error .unterminatedAlias

def withEqual (alone together : Symbol) (bs : List UInt8) : Token × List UInt8 :=
  if peek bs = ['='] then (.symbol together, bs.tail) else (.symbol alone, bs)

/-- The token that begins with `b`, which is neither a blank nor a line break. -/
def token (b : UInt8) (bs : List UInt8) : Except LexFault (Token × List UInt8) :=
  let c := chr b
  if c.isDigit ∨ (c = '.' ∧ digitNext (peek bs)) then
    let r := run inNumber bs
    (numberToken (c :: r.1.map chr)).map fun t => (t, r.2)
  else if c = '"' then (stringBody bs).map fun (s, r) => (.str (Text.repaired s), r)
  else if c = '\'' then aliasBody bs
  else if c.isAlpha ∨ c = '_' then
    let r := run inWord bs
    .ok (.ofWord (String.ofList (c :: r.1.map chr)), r.2)
  else if c = '<' then .ok (withEqual .less .atMost bs)
  else if c = '>' then .ok (withEqual .greater .atLeast bs)
  else match symbol? c with
    | some s => .ok (.symbol s, bs)
    | none => .error (.unrecognised b)

def next (l : OctetLexer) : Except LexError (Located × OctetLexer) :=
  match skip (0 < l.depth || l.fresh) false l.line l.rest with
  | (line, []) => .ok (⟨.eof, line⟩, { l with rest := [], line })
  | (line, b :: bs) =>
    if chr b = '\n' then
      .ok (⟨.newline, line⟩, { l with rest := bs, line := line + 1, fresh := true })
    else match token b bs with
      | .error fault => .error ⟨line, fault⟩
      | .ok (t, rest) => .ok (⟨t, line⟩, ⟨rest, line, depthAfter l.depth t, t.continues⟩)

/-- The tokens up to the end mark, at most `n`. -/
def take : Nat → OctetLexer → Except LexError (List Located)
  | 0, _ => .ok []
  | n + 1, l => match l.next with
    | .error e => .error e
    | .ok (t, l) => if t.token = .eof then .ok [t] else (take n l).map (t :: ·)

/-- All tokens of a script, the end mark behind them. -/
def tokenize (bytes : List UInt8) : Except LexError (List Located) :=
  take (bytes.length + 1) ⟨bytes, 1, 0, true⟩

end OctetLexer

end ScriptedAgent.Script
