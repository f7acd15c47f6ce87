import ScriptedAgent.Script.Declarations
import ScriptedAgent.Script.Stmt.Reader

/-!
# Programs

A script is its declarations and the statements of its `run` block. `Program.parse` reads one from
text; the number of nested calls it allows itself is proportional to the number of tokens.
-/

namespace ScriptedAgent.Script

structure Program where
  types : TypeTable
  body : List Stmt

namespace Program

open Parse

/-- A whole script, with at most one line break behind it. -/
def read (base : String) (n : Nat) : Parse Program := step do
  let types ← declarations base n
  expect (.keyword .run) "program"
  expect .newline "program"
  let body ← block types n
  expect (.keyword .endrun) "program"
  let _ ← accept .newline
  expect .eof "program"
  return ⟨types, body⟩

/-- The parse of a text, with the cursor where it stopped. -/
def reading (text base : String) : Except Stop Program × Cursor :=
  let s := Lexer.stream text
  (read (baseOid base) (16 * (s.tokens.length + 1))).run (.ofStream s)

/-- Reads a script whose identifiers without a point in front belong below `base`. -/
def parse (text base : String) : Except ScriptError Program :=
  match reading text base with
  | (.ok p, _) => .ok p
  | (.error (.fault e), _) => .error e
  | (.error .exhausted, c) => .error (.parse c.line .tooDeep)

end Program

end ScriptedAgent.Script
