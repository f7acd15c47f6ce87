import ScriptedAgent.Store
import ScriptedAgent.Wire.Conversion

/-!
# The agent

What the device answers to a manager's request. A Get or a walk needs either community, a Set the
one for writing; other messages are dropped. A Set first reads all its bindings as values and then
applies them one by one, so a fault found while applying comes after the bindings before it have
taken effect.
-/

namespace ScriptedAgent

namespace ErrorStatus

def noError : Number := 0
def noSuchName : Number := 2
def badValue : Number := 3
def readOnly : Number := 4
def genErr : Number := 5
def wrongType : Number := 7
def notWritable : Number := 17

/-- The status a failed set is answered with. -/
def ofSet (v : Version) (e : StoreError) : Number :=
  match v, e with
  | .v1, .unknownOid _ => noSuchName
  | .v1, .typeMismatch _ _ => badValue
  | .v1, .notWritable _ | .v1, .unsupported _ => readOnly
  | .v2c, .typeMismatch _ _ => wrongType
  | .v2c, .unknownOid _ | .v2c, .notWritable _ | .v2c, .unsupported _ => notWritable
  | _, .closed _ => genErr

end ErrorStatus

namespace Message

/-- The response with these bindings. -/
def respond (m : Message) (bindings : List Binding) : Message :=
  { m with
    kind := .response, errorStatus := ErrorStatus.noError, errorIndex := 0, bindings }

/-- The response that blames binding `i`, counted from zero, and returns all of them. -/
def refuse (m : Message) (status : Number) (i : Nat) : Message :=
  { m with kind := .response, errorStatus := status, errorIndex := Int64.ofNat (i + 1) }

/-- The response to a Set with this outcome. -/
def settle (m : Message) : Option (Nat × StoreError) → Message
  | none => m.respond m.bindings
  | some (i, e) => m.refuse (ErrorStatus.ofSet m.version e) i

end Message

namespace Store

/-- What a Get puts into a binding. Only v2c has a value for an object that is not there. -/
def getBinding (s : Store) (v : Version) (b : Binding) : Option Binding :=
  match s.get? b.oid.text with
  | some x => some ⟨b.oid, x.toWire⟩
  | none => match v with
    | .v1 => none
    | .v2c => some ⟨b.oid, .noSuchObject⟩

/-- What a step of a walk puts into a binding. Only v2c has a value for the end. -/
def nextBinding (s : Store) (v : Version) (b : Binding) : Option Binding :=
  match s.next? b.oid with
  | some (oid, x) => some ⟨oid, x.toWire⟩
  | none => match v with
    | .v1 => none
    | .v2c => some ⟨b.oid, .endOfMibView⟩

/-- The sets that bindings ask for, the first of them with number `i`. -/
def stage (s : Store) (i : Nat) : List Binding → Except (Nat × StoreError) (List (String × Value))
  | [] => .ok []
  | b :: bs => match s.varType? b.oid.text with
    | none => .error (i, .unknownOid b.oid.text)
    | some t => match Value.ofWire t b.value with
      | .error e => .error (i, .typeMismatch b.oid.text e)
      | .ok v => (stage s (i + 1) bs).map ((b.oid.text, v) :: ·)

end Store

/-- Every binding answered, or the number of the first that has no answer. -/
def answerAll (f : Binding → Option Binding) (i : Nat) : List Binding → Except Nat (List Binding)
  | [] => .ok []
  | b :: bs => match f b with
    | none => .error i
    | some b' => (answerAll f (i + 1) bs).map (b' :: ·)

structure Agent where
  readCommunity : List UInt8
  writeCommunity : List UInt8
deriving DecidableEq

namespace Agent

def ofCommunities (read write : String) : Agent := ⟨Text.utf8 read, Text.utf8 write⟩

/-- Whether the message is a request its community may make. -/
def admits (a : Agent) (m : Message) : Bool :=
  match m.kind with
  | .get | .getNext => m.community = a.writeCommunity ∨ m.community = a.readCommunity
  | .set => m.community = a.writeCommunity
  | .response => false

/-- The response to a Get or a walk. -/
def retrieve (m : Message) (f : Binding → Option Binding) : Message :=
  match answerAll f 0 m.bindings with
  | .ok bs => m.respond bs
  | .error i => m.refuse ErrorStatus.noSuchName i

/-- The answer to a message and the store after it, while no script is there to take a value. -/
def handle (a : Agent) (s : Store) (m : Message) : Option Message × Store :=
  if a.admits m then
    match m.kind with
    | .get => (some (retrieve m (s.getBinding m.version)), s)
    | .getNext => (some (retrieve m (s.nextBinding m.version)), s)
    | .set => match s.stage 0 m.bindings with
      | .error failure => (some (m.settle (some failure)), s)
      | .ok sets =>
        let (s', failure) := (s.setAll 0 sets).closed
        (some (m.settle failure), s')
    | .response => (none, s)
  else (none, s)

/-- The answer to a datagram. One that is not a message is dropped. -/
def process (a : Agent) (s : Store) (datagram : List UInt8) : Option (List UInt8) × Store :=
  match Message.decode datagram with
  | .error _ => (none, s)
  | .ok m => match a.handle s m with
    | (reply, s') => (reply.map Message.encode, s')

/-- The answers to datagrams, one after another, and the store after the last. -/
def serve (a : Agent) (s : Store) : List (List UInt8) → List (Option (List UInt8)) × Store
  | [] => ([], s)
  | d :: ds =>
    let (reply, s') := a.process s d
    let (replies, s'') := serve a s' ds
    (reply :: replies, s'')

end Agent

end ScriptedAgent
