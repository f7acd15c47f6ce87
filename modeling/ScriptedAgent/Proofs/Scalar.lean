import ScriptedAgent.Proofs.Conversion
import ScriptedAgent.Proofs.Ipv4
import ScriptedAgent.Proofs.Stateful

/-!
# Scalars and what they are stored as

A scalar that a variable takes is read from it again, and a value that a variable may hold is stored
again for the scalar it is read as (`Value.scalar_inverse`). Only the texts of identifiers and of
addresses come back in one form of many (`Scalar.Respells`).
-/

namespace ScriptedAgent

/-- `s'` is `s` as a variable of kind `k` gives it back: an identifier in the text of its arcs, an
address in the text of its octets, and any other scalar as it is. -/
def Scalar.Respells (k : Kind) (s s' : Scalar) : Prop :=
  match k, s, s' with
  | .oid, .str x, .str y =>
    ∃ arcs : Oid, Oid.ofText? x = some arcs ∧ Oid.ofText? y = some arcs ∧ y = arcs.text
  | .ipaddress, .str x, .str y =>
    ∃ a : Ipv4, Ipv4.ofText? x = some a ∧ Ipv4.ofText? y = some a ∧ y = a.text
  | _, s, s' => s' = s

namespace Value

variable {t : VarType} {k : Kind} {s : Scalar} {v : Value}

theorem exists_respells (h : ofScalar k s = .ok v) :
    ∃ s', v.toScalar k = .ok s' ∧ s.Respells k s' := by
  unfold ofScalar at h
  split at h
  · split at h
    · cases h
      exact ⟨_, rfl, rfl⟩
    · cases h
  · obtain ⟨u, rfl, rfl⟩ := ofUnsigned_eq_ok_iff.1 h
    exact ⟨_, rfl, rfl⟩
  · obtain ⟨u, rfl, rfl⟩ := ofUnsigned_eq_ok_iff.1 h
    exact ⟨_, rfl, rfl⟩
  · obtain ⟨u, rfl, rfl⟩ := ofUnsigned_eq_ok_iff.1 h
    exact ⟨_, rfl, rfl⟩
  · rename_i b
    cases h
    exact ⟨.bool b, by rw [toScalar, ofTruthValue?_eq_some_iff.2 rfl], rfl⟩
  · cases h
    exact ⟨_, rfl, rfl⟩
  · split at h
    · rename_i arcs harcs
      cases h
      exact ⟨_, rfl, arcs, harcs, Oid.ofText?_text (Oid.names_of_ofText? harcs), rfl⟩
    · cases h
  · split at h
    · rename_i a ha
      cases h
      exact ⟨_, rfl, a, ha, a.ofText?_text, rfl⟩
    · cases h
  · cases h
    exact ⟨_, rfl, rfl⟩
  · cases h

theorem ofScalar_of_toScalar (ha : t.Admits v) (hc : v.Canonical)
    (h : v.toScalar t.kind = .ok s) : ofScalar t.kind s = .ok v := by
  cases v with
  | integer n =>
    rcases ha with ⟨hk, hn⟩ | ⟨hk, rfl | rfl⟩
    · rw [hk] at h ⊢
      cases h
      rw [ofScalar, if_pos (by simpa [Number.isInt32] using hn)]
    · rw [hk] at h ⊢
      cases h
      rfl
    · rw [hk] at h ⊢
      cases h
      rfl
  | string x | bits b =>
    have hk : t.kind = _ := ha
    rw [hk] at h ⊢
    cases h
    rfl
  | counter u | gauge u | timeticks u =>
    have hk : t.kind = _ := ha
    rw [hk] at h ⊢
    cases h
    exact ofUnsigned_eq_ok_iff.2 ⟨u, rfl, rfl⟩
  | oid x =>
    obtain ⟨arcs, hn, rfl⟩ := hc
    rw [ha.1] at h ⊢
    cases h
    rw [ofScalar, Oid.ofText?_text hn]
  | ipaddress a =>
    have hk : t.kind = _ := ha
    rw [hk] at h ⊢
    cases h
    rw [ofScalar, a.ofText?_text]
  | block b =>
    rw [ha.1] at h
    cases h

/-- What a variable that is no block takes from a scalar is a value it may hold, and is read as that
scalar, in canonical text. A value it may hold, in canonical text, is read as a scalar, and what the
variable takes from that is the same value. -/
theorem scalar_inverse (hk : t.kind ≠ .bytes) :
    (∀ s v, ofScalar t.kind s = .ok v →
      t.check v = .ok () ∧ ∃ s', v.toScalar t.kind = .ok s' ∧ s.Respells t.kind s') ∧
    ∀ v, t.check v = .ok () → v.Canonical →
      ∃ s, v.toScalar t.kind = .ok s ∧ ofScalar t.kind s = .ok v := by
  refine ⟨fun s v h => ⟨VarType.check_eq_ok_iff.2 (admits_of_ofScalar h), exists_respells h⟩,
    fun v hv hc => ?_⟩
  have ha := VarType.check_eq_ok_iff.1 hv
  obtain ⟨s, hs, -⟩ := exists_toScalar ha hk
  exact ⟨s, hs, ofScalar_of_toScalar ha hc hs⟩

/-- An identifier without its first point and with a leading zero. -/
theorem scalar_inverse_identifier :
    ofScalar .oid (.str "1.03") = .ok (.oid ".1.3") ∧ Canonical (.oid ".1.3") ∧
      (VarType.ofKind .oid).check (.oid ".1.3") = .ok () ∧
      (∃ s', toScalar .oid (.oid ".1.3") = .ok s' ∧ (Scalar.str "1.03").Respells .oid s') ∧
      ∃ s, toScalar .oid (.oid ".1.3") = .ok s ∧ ofScalar .oid s = .ok (.oid ".1.3") := by
  have hstored : ofScalar .oid (.str "1.03") = .ok (.oid ".1.3") := by decide +kernel
  have hcanonical : Canonical (.oid ".1.3") := by decide +kernel
  obtain ⟨hread, hwritten⟩ := scalar_inverse (t := .ofKind .oid) (by decide)
  obtain ⟨hcheck, hrespells⟩ := hread _ _ hstored
  exact ⟨hstored, hcanonical, hcheck, hrespells, hwritten _ hcheck hcanonical⟩

end Value

end ScriptedAgent
