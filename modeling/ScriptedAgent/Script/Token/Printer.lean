import ScriptedAgent.Script.Token

/-!
# Writing tokens

The spelling of a token, and a line of tokens with one space between any two. The tokens that have a
spelling are the writable ones: any symbol, keyword, kind or access mode, any string, the numbers
from zero up, and names and identifiers of the forms that a script can hold.
-/

namespace ScriptedAgent.Script

/-- A character inside a string literal. -/
def escaped (c : Char) : List Char :=
  if c = '\n' then ['\\', 'n']
  else if c = '\t' then ['\\', 't']
  else if c = '"' ∨ c = '\\' then ['\\', c]
  else [c]

/-- Words joined by hyphens, each a list of its characters. -/
def hyphenated (first : List Char) (more : List (List Char)) : List Char :=
  first ++ more.flatMap ('-' :: ·)

/-- Numerals joined by points. -/
def dotted (arcs : List (List Char)) : List Char := arcs.flatMap ('.' :: ·)

/-- A letter, and then letters, digits and underscores. -/
def IsWord : List Char → Prop
  | [] => False
  | c :: cs => c.isAlpha = true ∧ ∀ d ∈ cs, d.isAlphanum = true ∨ d = '_'

def IsNumeral (cs : List Char) : Prop := cs ≠ [] ∧ ∀ c ∈ cs, c.isDigit = true

/-- Words joined by hyphens, of which the first may begin with an underscore. -/
def IsIdentifier (cs : List Char) : Prop :=
  ∃ c first more, cs = hyphenated (c :: first) more ∧ (c.isAlpha = true ∨ c = '_') ∧
    (∀ d ∈ first, d.isAlphanum = true ∨ d = '_') ∧ ∀ w ∈ more, IsWord w

def IsAliasName (cs : List Char) : Prop :=
  cs ≠ [] ∧ ∀ c ∈ cs, c.isAlphanum = true ∨ c = '_' ∨ c = '-'

/-- Numerals with a point before each, or without the first point if there are two or more. -/
def IsOidLiteral (cs : List Char) : Prop :=
  ∃ arcs : List (List Char), (∀ a ∈ arcs, IsNumeral a) ∧
    (arcs ≠ [] ∧ cs = dotted arcs ∨ 2 ≤ arcs.length ∧ '.' :: cs = dotted arcs)

namespace Token

def chars : Token → List Char
  | ident s => s.toList
  | int n => (Number.text n).toList
  | str s => '"' :: s.toList.flatMap escaped ++ ['"']
  | aliasName s => '\'' :: s.toList ++ ['\'']
  | oid s => s.toList
  | keyword k => k.text.toList
  | kind k => k.keyword.toList
  | access a => a.keyword.toList
  | symbol s => s.chars
  | newline => ['\n']
  | eof => []

/-- The tokens that a line can hold. -/
def Writable : Token → Prop
  | ident s => IsIdentifier s.toList ∧ ofWord s = ident s
  | int n => 0 ≤ n.toInt
  | aliasName s => IsAliasName s.toList
  | oid s => IsOidLiteral s.toList
  | newline | eof => False
  | _ => True

end Token

/-- A line of tokens, one space between any two. -/
def lineChars : List Token → List Char
  | [] => []
  | [t] => t.chars
  | t :: ts => t.chars ++ ' ' :: lineChars ts

end ScriptedAgent.Script
