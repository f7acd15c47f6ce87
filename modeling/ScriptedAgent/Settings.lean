import ScriptedAgent.CommandLine
import ScriptedAgent.Initializer

/-!
# Settings of a run

What the options of a command line come to: the initial values have the form of initializers, and
the base identifier is one.
-/

namespace ScriptedAgent

/-- What a run is set up with. -/
structure Settings where
  script : String
  port : Nat
  community : String
  writeCommunity : String
  inits : List Initializer
  /-- At least one second. -/
  pollSeconds : Nat
  baseOid : String
  /-- The file the log goes to, or the standard error. -/
  log : Option String
deriving DecidableEq

inductive SettingsError where
  | init (e : InitError)
  | baseOid (text : String)
deriving DecidableEq

def SettingsError.message : SettingsError → String
  | init e => e.message
  | baseOid t => "bad base OID " ++ Text.quoted t

namespace Settings

def listen (s : Settings) : String := "0.0.0.0:" ++ toString s.port

def ofOptions (o : Options) : Except SettingsError Settings :=
  match Initializer.parseAll o.vars with
  | .error e => .error (.init e)
  | .ok inits =>
    if (Oid.ofText? o.baseOid).isNone then .error (.baseOid o.baseOid)
    else .ok {
      script := o.script
      port := o.port
      community := o.community
      writeCommunity := o.writeCommunity
      inits
      pollSeconds := max o.pollTimeout 1
      baseOid := o.baseOid
      log := if o.logStderr then none else some (o.script ++ ".log") }

end Settings

end ScriptedAgent
