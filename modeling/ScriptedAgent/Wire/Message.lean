import ScriptedAgent.Ipv4
import ScriptedAgent.Wire.Ber

/-!
# SNMP messages

Messages of SNMP v1 and v2c and their encoding. `Message.decode` takes a whole datagram; what is
left over inside its parts is ignored.
-/

namespace ScriptedAgent

inductive Version where
  | v1 | v2c
deriving DecidableEq

inductive PduKind where
  | get | getNext | set | response
deriving DecidableEq

/-- The value of a binding. -/
inductive WireValue where
  | null
  | integer (n : Number)
  | octets (bytes : List UInt8)
  | oid (arcs : Oid)
  | ipaddress (a : Ipv4)
  | counter (n : UInt32)
  | gauge (n : UInt32)
  | timeticks (n : UInt32)
  | noSuchObject
  | noSuchInstance
  | endOfMibView
deriving DecidableEq

structure Binding where
  oid : Oid
  value : WireValue
deriving DecidableEq

structure Message where
  version : Version
  community : List UInt8
  kind : PduKind
  requestId : Number
  errorStatus : Number
  errorIndex : Number
  bindings : List Binding
deriving DecidableEq

open Ber

namespace Version

def number : Version → Number
  | v1 => 0
  | v2c => 1

def ofNumber (n : Number) : Except DecodeError Version :=
  if n = 0 then .ok v1 else if n = 1 then .ok v2c else .error (.unsupported (.version n))

end Version

namespace PduKind

def tag : PduKind → UInt8
  | get => Tag.get
  | getNext => Tag.getNext
  | set => Tag.set
  | response => Tag.response

def ofTag (t : UInt8) : Except DecodeError PduKind :=
  if t = Tag.get then .ok get
  else if t = Tag.getNext then .ok getNext
  else if t = Tag.set then .ok set
  else if t = Tag.response then .ok response
  else if t = Tag.getBulk then .error (.unsupported .getBulk)
  else .error (.unsupported (.pdu t))

end PduKind

namespace WireValue

def typeName : WireValue → String
  | null => "null"
  | integer _ => "integer"
  | octets _ => "octet string"
  | oid _ => "oid"
  | ipaddress _ => "ipaddress"
  | counter _ => "counter"
  | gauge _ => "gauge"
  | timeticks _ => "timeticks"
  | noSuchObject => "noSuchObject"
  | noSuchInstance => "noSuchInstance"
  | endOfMibView => "endOfMibView"

/-- An unsigned number under its tag. -/
def unsigned (tag : UInt8) (n : UInt32) : List UInt8 := Ber.integer tag (Int64.ofNat n.toNat)

def encode : WireValue → List UInt8
  | null => tlv Tag.null []
  | integer n => Ber.integer Tag.integer n
  | octets bytes => tlv Tag.octetString bytes
  | oid arcs => Ber.oid arcs
  | ipaddress a => tlv Tag.ipAddress a.octets
  | counter n => unsigned Tag.counter n
  | gauge n => unsigned Tag.gauge n
  | timeticks n => unsigned Tag.timeticks n
  | noSuchObject => tlv Tag.noSuchObject []
  | noSuchInstance => tlv Tag.noSuchInstance []
  | endOfMibView => tlv Tag.endOfMibView []

/-- A null and the exceptions say all by their tag: their contents are ignored. -/
def decode (tag : UInt8) (contents : List UInt8) : Except DecodeError WireValue :=
  if tag = Tag.null then .ok null
  else if tag = Tag.integer then (decodeInteger contents).map integer
  else if tag = Tag.octetString then .ok (octets contents)
  else if tag = Tag.oid then (decodeOid contents).map oid
  else if tag = Tag.ipAddress then match Ipv4.ofOctets? contents with
    | some a => .ok (ipaddress a)
    | none => .error .badLength
  else if tag = Tag.counter then (decodeUnsigned contents).map counter
  else if tag = Tag.gauge then (decodeUnsigned contents).map gauge
  else if tag = Tag.timeticks then (decodeUnsigned contents).map timeticks
  else if tag = Tag.noSuchObject then .ok noSuchObject
  else if tag = Tag.noSuchInstance then .ok noSuchInstance
  else if tag = Tag.endOfMibView then .ok endOfMibView
  else .error (.unsupported (.value tag))

end WireValue

namespace Binding

def encode (b : Binding) : List UInt8 := tlv Tag.sequence (Ber.oid b.oid ++ b.value.encode)

def read : Reader Binding := do
  let contents ← Reader.expect Tag.sequence
  Reader.within contents do
    let oid ← Reader.oid
    let (tag, bytes) ← Reader.tlv
    let value ← ofExcept (WireValue.decode tag bytes)
    return ⟨oid, value⟩

/-- At most `n` bindings, up to the end. -/
def readAll : Nat → Reader (List Binding)
  | 0 => return []
  | n + 1 => do
    if (← get).isEmpty then return []
    let b ← read
    let bs ← readAll n
    return b :: bs

end Binding

namespace Message

def encode (m : Message) : List UInt8 :=
  tlv Tag.sequence <|
    Ber.integer Tag.integer m.version.number ++
    tlv Tag.octetString m.community ++
    tlv m.kind.tag (
      Ber.integer Tag.integer m.requestId ++
      Ber.integer Tag.integer m.errorStatus ++
      Ber.integer Tag.integer m.errorIndex ++
      tlv Tag.sequence (m.bindings.flatMap Binding.encode))

/-- The message whose sequence has been opened. -/
def read : Reader Message := do
  let version ← ofExcept (Version.ofNumber (← Reader.integer))
  let community ← Reader.octets
  let (tag, pdu) ← Reader.tlv
  let kind ← ofExcept (PduKind.ofTag tag)
  Reader.within pdu do
    let requestId ← Reader.integer
    let errorStatus ← Reader.integer
    let errorIndex ← Reader.integer
    let list ← Reader.expect Tag.sequence
    let bindings ← Reader.within list (Binding.readAll list.length)
    return { version, community, kind, requestId, errorStatus, errorIndex, bindings }

/-- A datagram is one sequence, with nothing after it. -/
def decode (datagram : List UInt8) : Except DecodeError Message :=
  match Reader.expect Tag.sequence datagram with
  | (.error e, _) => .error e
  | (.ok body, []) => (read body).1
  | (.ok _, _ :: _) => .error .trailing

end Message

end ScriptedAgent
