import ScriptedAgent.Oid

/-!
# The command line

The options the program is started with. An option may have its value attached to it, with or
without an equality sign behind its letter, or take the next argument. What an option has been given
is looked at once the next option or the script comes up, or the line ends; faults that are seen in
an argument by itself, such as an unknown option, come first.
-/

namespace ScriptedAgent

inductive CliOption where
  | port | community | writeCommunity | var | pollTimeout | baseOid | logStderr | version | help
deriving DecidableEq

namespace CliOption

def all : List CliOption :=
  [port, community, writeCommunity, var, pollTimeout, baseOid, logStderr, version, help]

def long : CliOption → String
  | port => "port"
  | community => "community"
  | writeCommunity => "write-community"
  | var => "var"
  | pollTimeout => "poll-timeout"
  | baseOid => "base-oid"
  | logStderr => "log-stderr"
  | version => "version"
  | help => "help"

def short? : CliOption → Option Char
  | port => some 'p'
  | community => some 'c'
  | writeCommunity => some 'C'
  | var => some 'V'
  | version => some 'v'
  | help => some 'h'
  | pollTimeout | baseOid | logStderr => none

def takesValue : CliOption → Bool
  | logStderr | version | help => false
  | _ => true

def ofLong? (name : String) : Option CliOption := all.find? (·.long == name)

def ofShort? (c : Char) : Option CliOption := all.find? (·.short? == some c)

end CliOption

/-- Why a command line gives no options: it is wrong, or it asks for a text instead. -/
inductive UsageError where
  | missingScript
  | unknownArgument
  | emptyValue
  | badValue
  | repeatedOption
  | needlessValue
  | helpAsked
  | versionAsked
deriving DecidableEq

/-- The options given so far. -/
structure Given where
  script : Option String
  port : Option Nat
  community : Option String
  writeCommunity : Option String
  vars : List String
  pollTimeout : Option Nat
  baseOid : Option String
  logStderr : Bool
deriving DecidableEq

namespace Given

def none : Given := ⟨.none, .none, .none, .none, [], .none, .none, false⟩

def readPort (s : String) : Except UsageError Nat :=
  match Decimal.signed? s.toList with
  | some n => if 0 ≤ n ∧ n < 65536 then .ok n.toNat else .error .badValue
  | .none => .error .badValue

def readSeconds (s : String) : Except UsageError Nat :=
  match Decimal.unsigned? s.toList with
  | some n => if n < 0x10000000000000000 then .ok n else .error .badValue
  | .none => .error .badValue

def once {α : Type} (old : Option α) (value : Except UsageError α) : Except UsageError (Option α) :=
  if old.isSome then .error .repeatedOption else value.map some

/-- An option with its value. -/
def setOption (g : Given) (o : CliOption) (v : String) : Except UsageError Given :=
  match o with
  | .port => return { g with port := ← once g.port (readPort v) }
  | .community => return { g with community := ← once g.community (.ok v) }
  | .writeCommunity => return { g with writeCommunity := ← once g.writeCommunity (.ok v) }
  | .var => return { g with vars := g.vars ++ [v] }
  | .pollTimeout => return { g with pollTimeout := ← once g.pollTimeout (readSeconds v) }
  | .baseOid => return { g with baseOid := ← once g.baseOid (.ok v) }
  | .logStderr | .version | .help => .error .needlessValue

/-- An option that takes no value. -/
def setFlag (g : Given) (o : CliOption) : Except UsageError Given :=
  match o with
  | .logStderr => if g.logStderr then .error .repeatedOption else .ok { g with logStderr := true }
  | .version => .error .versionAsked
  | .help => .error .helpAsked
  | _ => .error .emptyValue

def setScript (g : Given) (v : String) : Except UsageError Given :=
  if v.isEmpty then .error .emptyValue else .ok { g with script := some v }

end Given

/-- What has been read but not yet looked at. -/
inductive Pending where
  | nothing
  /-- An option, and its value once there is one. -/
  | option (o : CliOption) (value : Option String)
  | script (value : String)
deriving DecidableEq

structure CliState where
  given : Given
  pending : Pending
  /-- Only the script can still come. -/
  trailing : Bool
  /-- The script has been named. -/
  named : Bool
deriving DecidableEq

namespace CliState

def start : CliState := ⟨.none, .nothing, false, false⟩

/-- Looks at what is pending. -/
def settle (s : CliState) : Except UsageError CliState :=
  match s.pending with
  | .nothing => .ok s
  | .option _ none => .error .emptyValue
  | .option o (some v) => return { s with given := ← s.given.setOption o v, pending := .nothing }
  | .script v => return { s with given := ← s.given.setScript v, pending := .nothing }

/-- An option that takes a value, with the one attached to it if there is one. -/
def option (s : CliState) (o : CliOption) (attached : Option String) : Except UsageError CliState := do
  let s ← s.settle
  match attached with
  | some v => return { s with given := ← s.given.setOption o v }
  | none => return { s with pending := .option o none }

def flag (s : CliState) (o : CliOption) : Except UsageError CliState := do
  let s ← s.settle
  return { s with given := ← s.given.setFlag o }

/-- An argument behind two hyphens. -/
def longArg (s : CliState) (body : List Char) : Except UsageError CliState :=
  let (name, attached) := match Text.cut '=' body with
    | some (n, v) => (n, some (String.ofList v))
    | none => (body, none)
  match CliOption.ofLong? (String.ofList name) with
  | none => .error .unknownArgument
  | some o =>
    if o.takesValue then s.option o attached
    else if attached.isSome then .error .needlessValue
    else s.flag o

/-- The value attached to a letter. -/
def attachedTo : List Char → Option String
  | [] => none
  | '=' :: cs => some (String.ofList cs)
  | cs => some (String.ofList cs)

/-- An argument behind one hyphen: flags, and at the end perhaps an option with its value. -/
def shortArg (s : CliState) : List Char → Except UsageError CliState
  | [] => .ok s
  | c :: cs => match CliOption.ofShort? c with
    | none => .error .unknownArgument
    | some o =>
      if o.takesValue then s.option o (attachedTo cs)
      else do
        let s ← s.flag o
        shortArg s cs

def scriptArg (s : CliState) (arg : String) : Except UsageError CliState :=
  if s.named then .error .unknownArgument
  else do
    let s ← s.settle
    return { s with pending := .script arg, named := true }

/-- An argument that is not an option. -/
def plainArg (s : CliState) (arg : String) : Except UsageError CliState :=
  match s.pending with
  | .option o none => .ok { s with pending := .option o (some arg) }
  | _ => s.scriptArg arg

def arg (s : CliState) (arg : String) : Except UsageError CliState :=
  if s.trailing then s.scriptArg arg
  else match arg.toList with
    | ['-', '-'] => .ok { s with trailing := true }
    | '-' :: '-' :: body => s.longArg body
    | '-' :: c :: cs => s.shortArg (c :: cs)
    | _ => s.plainArg arg

end CliState

/-- The options of a run that a command line gives. -/
structure Options where
  script : String
  port : Nat
  community : String
  writeCommunity : String
  vars : List String
  pollTimeout : Nat
  baseOid : String
  logStderr : Bool
deriving DecidableEq

namespace Options

def readArgs (s : CliState) : List String → Except UsageError CliState
  | [] => s.settle
  | a :: as => do readArgs (← s.arg a) as

/-- Reads the arguments behind the program's name. -/
def parse (args : List String) : Except UsageError Options := do
  let s ← readArgs .start args
  match s.given.script with
  | none => throw .missingScript
  | some script => return {
      script
      port := s.given.port.getD 161
      community := s.given.community.getD "public"
      writeCommunity := s.given.writeCommunity.getD "private"
      vars := s.given.vars
      pollTimeout := s.given.pollTimeout.getD 5
      baseOid := s.given.baseOid.getD Oid.mib2
      logStderr := s.given.logStderr }

end Options

end ScriptedAgent
