import ScriptedAgent.Run.Exec
import ScriptedAgent.Settings

/-!
# The program

Runs the script that the command line names, with the initial values it gives, and prints the lines
of the script. No manager takes part, so a script that waits for one ends with an error.
-/

namespace ScriptedAgent

def usage : String :=
  "Usage: [-v] [-p PORT] [-c READ] [-C WRITE] [-V NAME=VALUE]... [--poll-timeout SECS] " ++
    "[--base-oid OID] [--log-stderr] <SCRIPT>"

def UsageError.message : UsageError → String
  | missingScript => "error: no script given\n\n" ++ usage
  | unknownArgument => "error: unexpected argument\n\n" ++ usage
  | emptyValue => "error: an argument has no value\n\n" ++ usage
  | badValue => "error: an argument has a bad value\n\n" ++ usage
  | repeatedOption => "error: an option is given twice\n\n" ++ usage
  | needlessValue => "error: an option takes no value\n\n" ++ usage
  | helpAsked => "Scriptable SNMP device simulator\n\n" ++ usage
  | versionAsked => "0.1.0"

/-- The most turns a loop that is not counted may take. -/
def loopBound : Nat := 0x4000000000000000

/-- The lines a script prints and the message of the error that ends it, if one does. -/
def outcome (s : Settings) (text : String) : Except String (Array String × Option String) := do
  let program ← (Script.Program.parse text s.baseOid).mapError fun e => s.script ++ ": " ++ e.message
  let (store, applied) := Initializer.applyAll (.load program.types) s.inits
  applied.mapError InitError.message
  match program.run loopBound (.start store (.ofItems program.types [])) with
  | none => throw "the script does not end"
  | some (.ok (), m) => return (m.printed, none)
  | some (.error e, m) => return (m.printed, some e.message)

/-- Prints what comes of a script; gives the exit code. -/
def report (s : Settings) (text : String) : IO UInt32 := do
  match outcome s text with
  | .error e =>
    IO.eprintln e
    return 1
  | .ok (lines, failure) =>
    lines.forM IO.println
    match failure with
    | none => return 0
    | some e =>
      IO.eprintln e
      return 1

def start (args : List String) : IO UInt32 := do
  match Options.parse args with
  | .error .helpAsked =>
    IO.println UsageError.helpAsked.message
    return 0
  | .error .versionAsked =>
    IO.println UsageError.versionAsked.message
    return 0
  | .error e =>
    IO.eprintln e.message
    return 2
  | .ok options => match Settings.ofOptions options with
    | .error e =>
      IO.eprintln e.message
      return 1
    | .ok settings => report settings (← IO.FS.readFile settings.script)

end ScriptedAgent

def main (args : List String) : IO UInt32 := ScriptedAgent.start args
