import ScriptedAgent.Kind
import ScriptedAgent.Number

/-!
# Tokens of a script

What the text of a script is made of, how each token is spelled, and how an error message names
one.
-/

namespace ScriptedAgent.Script

inductive Keyword where
  | var | endvar | run | endrun | «if» | elseif | «else» | endif | loop | times | endloop | print
  | sleep | secs | msecs | exit | «true» | «false» | strInt | strBool | strBits
deriving DecidableEq

namespace Keyword

def all : List Keyword :=
  [var, endvar, run, endrun, «if», elseif, «else», endif, loop, times, endloop, print, sleep, secs,
    msecs, exit, «true», «false», strInt, strBool, strBits]

def text : Keyword → String
  | var => "var"
  | endvar => "endvar"
  | run => "run"
  | endrun => "endrun"
  | «if» => "if"
  | elseif => "elseif"
  | «else» => "else"
  | endif => "endif"
  | loop => "loop"
  | times => "times"
  | endloop => "endloop"
  | print => "print"
  | sleep => "sleep"
  | secs => "secs"
  | msecs => "msecs"
  | exit => "exit"
  | «true» => "true"
  | «false» => "false"
  | strInt => "strInt"
  | strBool => "strBool"
  | strBits => "strBits"

def ofText? (word : String) : Option Keyword := all.find? (·.text == word)

end Keyword

inductive Symbol where
  | equal | plus | minus | star | slash | less | greater | atMost | atLeast | bang | amp | pipe
  | openParen | closeParen | openBracket | closeBracket | openBrace | closeBrace | colon | comma
deriving DecidableEq

namespace Symbol

def chars : Symbol → List Char
  | equal => ['=']
  | plus => ['+']
  | minus => ['-']
  | star => ['*']
  | slash => ['/']
  | less => ['<']
  | greater => ['>']
  | atMost => ['<', '=']
  | atLeast => ['>', '=']
  | bang => ['!']
  | amp => ['&']
  | pipe => ['|']
  | openParen => ['(']
  | closeParen => [')']
  | openBracket => ['[']
  | closeBracket => [']']
  | openBrace => ['\x7b']
  | closeBrace => ['\x7d']
  | colon => [':']
  | comma => [',']

/-- The symbols after which a statement goes on over a line break. -/
def continues : Symbol → Bool
  | equal | plus | minus | star | slash | less | greater | atMost | atLeast | bang | amp | pipe
  | comma => true
  | _ => false

def opens : Symbol → Bool
  | openParen | openBracket | openBrace => true
  | _ => false

def closes : Symbol → Bool
  | closeParen | closeBracket | closeBrace => true
  | _ => false

end Symbol

inductive Token where
  | ident (name : String)
  | int (n : Number)
  | str (s : String)
  /-- A name in single quotes that stands for a number. -/
  | aliasName (name : String)
  /-- A dotted identifier, as written. -/
  | oid (text : String)
  | keyword (k : Keyword)
  | kind (k : Kind)
  | access (a : Access)
  | symbol (s : Symbol)
  | newline
  | eof
deriving DecidableEq

namespace Token

def continues : Token → Bool
  | symbol s => s.continues
  | _ => false

/-- How an error message names a token. -/
def describe : Token → String
  | ident s => "identifier `" ++ s ++ "`"
  | int n => "integer " ++ Number.text n
  | str s => "string \"" ++ s ++ "\""
  | aliasName s => "alias '" ++ s ++ "'"
  | oid s => "OID " ++ s
  | keyword k => "`" ++ k.text ++ "`"
  | kind k => "type `" ++ k.keyword ++ "`"
  | access _ => "access mode"
  | symbol s => "`" ++ String.ofList s.chars ++ "`"
  | newline => "end of line"
  | eof => "end of input"

/-- The token a word is: a keyword, a kind, an access mode or, failing these, an identifier. -/
def ofWord (word : String) : Token :=
  match Keyword.ofText? word with
  | some k => keyword k
  | none => match Kind.ofKeyword? word with
    | some k => kind k
    | none => match Access.ofKeyword? word with
      | some a => access a
      | none => ident word

end Token

/-- A token and the line it starts on. -/
structure Located where
  token : Token
  line : Nat
deriving DecidableEq

end ScriptedAgent.Script
