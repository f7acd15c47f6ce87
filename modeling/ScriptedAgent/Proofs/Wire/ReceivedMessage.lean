import ScriptedAgent.Proofs.Wire.Message
import ScriptedAgent.Proofs.Wire.Received

/-!
# Messages as managers receive them

A message is received with each of its identifiers as that is received, and it is written as the
message that is received for it. So every message whose identifiers name objects is read back, and
everything in it but these identifiers is as it was written.
-/

namespace ScriptedAgent

open Ber

theorem Oid.Encodable.names : ∀ {arcs : Oid}, arcs.Encodable → arcs.Names
  | _ :: _ :: _, h => UInt32.le_iff_toNat_le.2 h.1

theorem Oid.Names.received_encodable {arcs : Oid} (h : arcs.Names) : arcs.received.Encodable :=
  (of_decodeOid (decodeOid_encodeOid_received h)).1

namespace WireValue

def received : WireValue → WireValue
  | oid arcs => oid arcs.received
  | v => v

/-- An identifier names an object. -/
def Names : WireValue → Prop
  | oid arcs => arcs.Names
  | _ => True

theorem encode_received (v : WireValue) : v.received.encode = v.encode := by
  cases v with
  | oid arcs => exact congrArg (tlv Tag.oid) (encodeOid_received arcs)
  | _ => rfl

theorem Names.received_encodable {v : WireValue} (h : v.Names) : v.received.Encodable := by
  cases v with
  | oid arcs => exact Oid.Names.received_encodable h
  | _ => trivial

theorem Encodable.names {v : WireValue} (h : v.Encodable) : v.Names := by
  cases v with
  | oid arcs => exact Oid.Encodable.names h
  | _ => trivial

theorem Encodable.received_eq {v : WireValue} (h : v.Encodable) : v.received = v := by
  cases v with
  | oid arcs => exact congrArg oid ((received_eq_iff (Oid.Encodable.names h)).2 h)
  | _ => rfl

end WireValue

namespace Binding

def received (b : Binding) : Binding := ⟨b.oid.received, b.value.received⟩

def Names (b : Binding) : Prop := b.oid.Names ∧ b.value.Names

theorem encode_received (b : Binding) : b.received.encode = b.encode := by
  have hoid : Ber.oid b.oid.received = Ber.oid b.oid :=
    congrArg (tlv Tag.oid) (encodeOid_received b.oid)
  rw [encode, encode, received, hoid, b.value.encode_received]

theorem Names.received_encodable {b : Binding} (h : b.Names) : b.received.Encodable :=
  ⟨h.1.received_encodable, h.2.received_encodable⟩

theorem Encodable.names {b : Binding} (h : b.Encodable) : b.Names :=
  ⟨Oid.Encodable.names h.1, h.2.names⟩

theorem Encodable.received_eq {b : Binding} (h : b.Encodable) : b.received = b := by
  rw [received, (received_eq_iff (Oid.Encodable.names h.1)).2 h.1, h.2.received_eq]

end Binding

namespace Message

/-- The message that is read back from the encoding of this one. -/
def received (m : Message) : Message := { m with bindings := m.bindings.map Binding.received }

/-- Every identifier in the message names an object. -/
def Names (m : Message) : Prop := ∀ b ∈ m.bindings, b.Names

theorem encode_received (m : Message) : m.received.encode = m.encode := by
  have hbs : (m.bindings.map Binding.received).flatMap Binding.encode =
      m.bindings.flatMap Binding.encode := by
    rw [List.flatMap_map]
    simp only [Binding.encode_received]
  rw [encode, encode, received, hbs]

theorem decode_encode_received {m : Message} (h : m.Names)
    (hlen : m.encode.length < 0x100000000) : decode m.encode = .ok m.received := by
  rw [← m.encode_received] at hlen ⊢
  refine decode_encode_of_encodable (fun b hb => ?_) hlen
  obtain ⟨c, hc, rfl⟩ := List.mem_map.1 hb
  exact (h c hc).received_encodable

theorem Encodable.map_received {m : Message} (h : m.Encodable) :
    m.bindings.map Binding.received = m.bindings :=
  (List.map_congr_left fun b hb => (h b hb).received_eq).trans (List.map_id m.bindings)

end Message

end ScriptedAgent
