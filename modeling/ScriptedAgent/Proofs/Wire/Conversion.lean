import ScriptedAgent.Proofs.Bitset
import ScriptedAgent.Proofs.Conversion
import ScriptedAgent.Proofs.Stateful
import ScriptedAgent.Wire.Conversion

/-!
# Values on the wire are the values that are held

A value that a variable may hold is read back from the binding it is written in, and a binding that
is read as a value is what this value is written as again (`Value.wire_inverse`). Only a bitset does
not keep the zeros at the end of its octets.
-/

namespace ScriptedAgent

/-- What a variable of kind `k` keeps of a binding: all of it, but a bitset keeps no zeros at the
end. -/
def WireValue.keptBy (k : Kind) (w : WireValue) : WireValue :=
  match k, w with
  | .bitset, .octets bytes => .octets (Bitset.unpadded bytes)
  | _, w => w

namespace Value

variable {t : VarType} {k : Kind} {v : Value} {w : WireValue}

theorem ofWire_eq_ok_iff :
    ofWire t w = .ok v ↔ ofWireKind t.kind w = .ok v ∧ t.check v = .ok () := by
  unfold ofWire
  constructor
  · intro h
    split at h
    · cases h
    · split at h
      · cases h
      · rename_i hcheck
        cases h
        exact ⟨‹_›, hcheck⟩
  · rintro ⟨hw, hcheck⟩
    simp only [hw, hcheck]

theorem ofWireKind_toWire (ha : t.Admits v) (hc : v.Canonical) :
    ofWireKind t.kind v.toWire = .ok v := by
  cases v with
  | integer n =>
    rcases ha with ⟨hk, -⟩ | ⟨hk, -⟩ <;> rw [hk] <;> rfl
  | string x =>
    rw [show t.kind = _ from ha, toWire, ofWireKind, Text.ofUtf8?_utf8]
  | counter u | gauge u | timeticks u | ipaddress a =>
    rw [show t.kind = _ from ha]
    rfl
  | oid x =>
    obtain ⟨arcs, hn, rfl⟩ := hc
    rw [ha.1, toWire, Oid.ofText?_text hn]
    rfl
  | bits s =>
    rw [show t.kind = _ from ha, toWire, ofWireKind, Bitset.ofOctets_of_packs s.packs_octets]
  | block b =>
    rw [ha.1]
    rfl

/-- The text that arcs are held in is read as the same arcs, or it is not admitted. -/
theorem canonical_of_admits_text {arcs : Oid} (h : t.Admits (.oid arcs.text)) :
    Oid.ofText? arcs.text = some arcs ∧ Canonical (.oid arcs.text) := by
  obtain ⟨-, arcs', harcs⟩ := h
  obtain rfl := Oid.eq_of_ofText?_text harcs
  exact ⟨harcs, arcs', Oid.names_of_ofText? harcs, rfl⟩

theorem toWire_of_ofWireKind (ha : t.Admits v) (h : ofWireKind t.kind w = .ok v) :
    v.Canonical ∧ v.toWire = w.keptBy t.kind := by
  generalize t.kind = k at h
  unfold ofWireKind at h
  split at h
  · cases h
    exact ⟨trivial, rfl⟩
  · cases h
    exact ⟨trivial, rfl⟩
  · cases h
    exact ⟨trivial, rfl⟩
  · cases h
    exact ⟨trivial, rfl⟩
  · cases h
    exact ⟨trivial, rfl⟩
  · split at h
    · rename_i x hx
      cases h
      exact ⟨trivial, congrArg WireValue.octets (Text.utf8_of_ofUtf8? hx)⟩
    · cases h
  · rename_i arcs
    cases h
    obtain ⟨harcs, hc⟩ := canonical_of_admits_text ha
    exact ⟨hc, by rw [toWire, harcs]; rfl⟩
  · cases h
    exact ⟨trivial, rfl⟩
  · rename_i bytes
    cases h
    exact ⟨trivial, congrArg WireValue.octets (Bitset.octets_ofOctets bytes)⟩
  · cases h
    exact ⟨trivial, rfl⟩
  · cases h

theorem admits_of_ofWire (h : ofWire t w = .ok v) : t.Admits v :=
  VarType.check_eq_ok_iff.1 (ofWire_eq_ok_iff.1 h).2

/-- A value that a variable may hold, in canonical text, is read back from its binding. A binding is
read as a value that the variable may hold, and that is written as what the variable keeps of it.
The positions of a bitset from fewer than 2²⁹ octets are of 32 bits. -/
theorem wire_inverse (t : VarType) :
    (∀ v, t.check v = .ok () → v.Canonical → ofWire t v.toWire = .ok v) ∧
    ∀ w v, ofWire t w = .ok v →
      t.check v = .ok () ∧ v.Canonical ∧ v.toWire = w.keptBy t.kind ∧
        ∀ bytes s, w = .octets bytes → v = .bits s → bytes.length < 2 ^ 29 →
          ∀ p ∈ s, p < 2 ^ 32 := by
  refine ⟨fun v hcheck hc => ?_, fun w v h => ?_⟩
  · exact ofWire_eq_ok_iff.2 ⟨ofWireKind_toWire (VarType.check_eq_ok_iff.1 hcheck) hc, hcheck⟩
  · obtain ⟨hw, hcheck⟩ := ofWire_eq_ok_iff.1 h
    obtain ⟨hc, hkept⟩ := toWire_of_ofWireKind (admits_of_ofWire h) hw
    refine ⟨hcheck, hc, hkept, ?_⟩
    rintro bytes s rfl rfl hlen p hp
    have hk : t.kind = .bitset := admits_of_ofWire h
    rw [hk] at hkept
    have hoctets : s.octets = Bitset.unpadded bytes := WireValue.octets.inj hkept
    have hshort : s.octets.length ≤ bytes.length := hoctets ▸ Bitset.length_unpadded_le bytes
    have := Bitset.length_octets_le_iff.1 hshort p hp
    omega

/-- The positions 7 and 8, from octets with a zero behind them. -/
theorem wire_inverse_padded :
    let t := VarType.ofKind .bitset
    let s := Bitset.ofList [7, 8]
    ofWire t (.octets [0x01, 0x80, 0x00]) = .ok (.bits s) ∧ t.check (.bits s) = .ok () ∧
      toWire (.bits s) = .octets [0x01, 0x80] ∧
      ofWire t (.octets [0x01, 0x80]) = .ok (.bits s) ∧ ∀ p ∈ s, p < 2 ^ 32 := by
  intro t s
  obtain ⟨hwritten, hread⟩ := wire_inverse t
  have hpadded : ofWire t (.octets [0x01, 0x80, 0x00]) = .ok (.bits s) := by decide +kernel
  obtain ⟨hcheck, hc, hkept, hlt⟩ := hread _ _ hpadded
  have hback := hwritten _ hcheck hc
  rw [hkept] at hback
  exact ⟨hpadded, hcheck, hkept, hback, hlt _ s rfl rfl (by decide)⟩

end Value

end ScriptedAgent
