/-!
# Kinds of variable

The ten kinds a variable is declared with, the expressions each is assigned from, and who may set
it from outside.
-/

namespace ScriptedAgent

inductive Kind where
  | integer | boolean | string | counter | gauge | timeticks | oid | ipaddress | bitset | bytes
deriving DecidableEq

/-- The expressions a kind of variable is assigned from. A block is assigned field by field. -/
inductive Grammar where
  | int | bool | str | bits | fields
deriving DecidableEq

namespace Kind

def all : List Kind :=
  [integer, boolean, string, counter, gauge, timeticks, oid, ipaddress, bitset, bytes]

def keyword : Kind → String
  | integer => "integer"
  | boolean => "boolean"
  | string => "string"
  | counter => "counter"
  | gauge => "gauge"
  | timeticks => "timeticks"
  | oid => "oid"
  | ipaddress => "ipaddress"
  | bitset => "bitset"
  | bytes => "bytes"

def ofKeyword? (word : String) : Option Kind := all.find? (·.keyword == word)

def grammar : Kind → Grammar
  | integer | counter | gauge | timeticks => .int
  | boolean => .bool
  | string | oid | ipaddress => .str
  | bitset => .bits
  | bytes => .fields

/-- The kinds whose declaration may name values. -/
def takesAliases : Kind → Bool
  | integer | counter | gauge | bitset => true
  | _ => false

end Kind

/-- What a manager may do to an exported variable. A set of a blocking one is handed to the running
script and does not touch the store by itself. -/
inductive Access where
  | readonly | readwrite | blocking
deriving DecidableEq

namespace Access

def all : List Access := [readonly, readwrite, blocking]

def keyword : Access → String
  | readonly => "readonly"
  | readwrite => "readwrite"
  | blocking => "blocking"

def ofKeyword? (word : String) : Option Access := all.find? (·.keyword == word)

end Access

end ScriptedAgent
