import ScriptedAgent.Conversion
import ScriptedAgent.Proofs.Oid

/-!
# What a type admits

`VarType.Admits` says which values a variable of a declared type may hold, and `VarType.check`
decides it. An expression of the right grammar comes to a value that the type admits or fails for
its range or its form, and every admitted value is read back as a scalar of that grammar.
-/

namespace ScriptedAgent

theorem Number.toUInt32?_eq_some_iff {n : Number} {u : UInt32} :
    Number.toUInt32? n = some u ↔ n = Int64.ofNat u.toNat := by
  have hu := u.toNat_lt
  unfold Number.toUInt32?
  constructor
  · intro h
    split at h
    · rename_i hn
      cases h
      refine Int64.toInt_inj.1 ?_
      rw [Number.toInt_ofNat, UInt32.toNat_ofNat']
      omega
    · cases h
  · rintro rfl
    rw [Number.toInt_ofNat, if_pos (by omega), Int.toNat_natCast, UInt32.ofNat_toNat]

theorem ofTruthValue?_eq_some_iff {n : Number} {b : Bool} :
    ofTruthValue? n = some b ↔ n = truthValue b := by
  unfold ofTruthValue?
  constructor
  · intro h
    split at h
    · cases h
      assumption
    · split at h
      · cases h
        assumption
      · cases h
  · rintro rfl
    cases b <;> rfl

namespace VarType

/-- The values that a variable of this type may hold. -/
def Admits (t : VarType) : Value → Prop
  | .integer n =>
    (t.kind = .integer ∧ -0x80000000 ≤ n.toInt ∧ n.toInt < 0x80000000) ∨
      (t.kind = .boolean ∧ (n = 1 ∨ n = 2))
  | .string _ => t.kind = .string
  | .counter _ => t.kind = .counter
  | .gauge _ => t.kind = .gauge
  | .timeticks _ => t.kind = .timeticks
  | .oid s => t.kind = .oid ∧ ∃ arcs, Oid.ofText? s = some arcs
  | .ipaddress _ => t.kind = .ipaddress
  | .bits _ => t.kind = .bitset
  | .block b => t.kind = .bytes ∧ b.length = t.blockSize

theorem exists_block {t : VarType} {v : Value} {l : Layout} (hk : t.kind = .bytes)
    (hl : t.layout = some l) (h : t.Admits v) : ∃ b, v = .block b ∧ b.length = l.size := by
  cases v with
  | block b => exact ⟨b, rfl, by rw [h.2, blockSize, hl]; rfl⟩
  | _ => simp_all [Admits]

theorem check_eq_ok_iff {t : VarType} {v : Value} : t.check v = .ok () ↔ t.Admits v := by
  obtain ⟨k, o, l, a⟩ := t
  cases k <;> cases v <;>
    simp [check, Admits, Number.isInt32, ofTruthValue?, Option.isSome_iff_exists]
  split <;> simp_all

theorem admits_zero (t : VarType) : t.Admits t.zero := by
  rw [← check_eq_ok_iff]
  obtain ⟨k, o, l, a⟩ := t
  cases k <;> simp [zero, check, Number.isInt32, truthValue, ofTruthValue?]
  decide +kernel

end VarType

/-- An identifier is held in the text of its arcs. -/
def Value.Canonical : Value → Prop
  | oid x => Oid.Canonical x
  | _ => True

instance : DecidablePred Value.Canonical
  | .oid x => inferInstanceAs (Decidable (Oid.Canonical x))
  | .integer _ | .string _ | .counter _ | .gauge _ | .timeticks _ | .ipaddress _ | .bits _
  | .block _ => inferInstanceAs (Decidable True)

/-- The expressions that come to a scalar. -/
def Scalar.grammar : Scalar → Grammar
  | int _ => .int
  | bool _ => .bool
  | str _ => .str
  | bits _ => .bits

/-- A value is out of range or has a bad form; its kind is right. -/
def ValueError.OfValue : ValueError → Prop
  | outOfRange _ _ | malformed _ _ => True
  | _ => False

namespace Value

theorem ofUnsigned_eq_ok_iff {k : Kind} {make : UInt32 → Value} {n : Number} {v : Value} :
    ofUnsigned k make n = .ok v ↔ ∃ u, v = make u ∧ n = Int64.ofNat u.toNat := by
  constructor
  · intro h
    unfold ofUnsigned at h
    split at h
    · rename_i u hu
      cases h
      exact ⟨u, rfl, Number.toUInt32?_eq_some_iff.1 hu⟩
    · cases h
  · rintro ⟨u, rfl, hn⟩
    rw [ofUnsigned, Number.toUInt32?_eq_some_iff.2 hn]

theorem ofUnsigned_error {k : Kind} {make : UInt32 → Value} {n : Number} {e : ValueError}
    (h : ofUnsigned k make n = .error e) : e = .outOfRange k n := by
  unfold ofUnsigned at h
  split at h
  · simp at h
  · simpa using h.symm

/-- What an assignment stores is admitted, whatever the expression. -/
theorem admits_of_ofScalar {t : VarType} {s : Scalar} {v : Value} (h : ofScalar t.kind s = .ok v) :
    t.Admits v := by
  unfold ofScalar at h
  split at h
  · rename_i hk
    split at h
    · rename_i n hn
      simp only [Except.ok.injEq] at h
      subst h
      exact .inl ⟨hk, by simpa [Number.isInt32] using hn⟩
    · simp at h
  · obtain ⟨u, rfl, -⟩ := ofUnsigned_eq_ok_iff.1 h
    assumption
  · obtain ⟨u, rfl, -⟩ := ofUnsigned_eq_ok_iff.1 h
    assumption
  · obtain ⟨u, rfl, -⟩ := ofUnsigned_eq_ok_iff.1 h
    assumption
  · rename_i b hk
    simp only [Except.ok.injEq] at h
    subst h
    exact .inr ⟨hk, by cases b <;> simp [truthValue]⟩
  · simp only [Except.ok.injEq] at h
    subst h
    assumption
  · rename_i x hk
    split at h
    · rename_i arcs harcs
      simp only [Except.ok.injEq] at h
      subst h
      exact ⟨hk, arcs, Oid.ofText?_text (Oid.names_of_ofText? harcs)⟩
    · simp at h
  · split at h
    · simp only [Except.ok.injEq] at h
      subst h
      assumption
    · simp at h
  · simp only [Except.ok.injEq] at h
    subst h
    assumption
  · simp at h

theorem ofValue_of_ofScalar {k : Kind} {s : Scalar} {e : ValueError} (hg : k.grammar = s.grammar)
    (h : ofScalar k s = .error e) : e.OfValue := by
  unfold ofScalar at h
  split at h
  · split at h
    · simp at h
    · simp only [Except.error.injEq] at h
      subst h
      trivial
  · rw [ofUnsigned_error h]
    trivial
  · rw [ofUnsigned_error h]
    trivial
  · rw [ofUnsigned_error h]
    trivial
  · simp at h
  · simp at h
  · split at h
    · simp at h
    · simp only [Except.error.injEq] at h
      subst h
      trivial
  · split at h
    · simp at h
    · simp only [Except.error.injEq] at h
      subst h
      trivial
  · simp at h
  · cases k <;> cases s <;> simp_all [Kind.grammar, Scalar.grammar]

theorem exists_toScalar {t : VarType} {v : Value} (h : t.Admits v) (hk : t.kind ≠ .bytes) :
    ∃ s, v.toScalar t.kind = .ok s ∧ s.grammar = t.kind.grammar := by
  cases v with
  | integer n =>
    rcases h with ⟨hi, -⟩ | ⟨hb, rfl | rfl⟩
    · exact ⟨.int n, by rw [hi, toScalar], by rw [hi]; rfl⟩
    · exact ⟨.bool true, by rw [hb]; rfl, by rw [hb]; rfl⟩
    · exact ⟨.bool false, by rw [hb]; rfl, by rw [hb]; rfl⟩
  | string x => exact ⟨.str x, by rw [h, toScalar], by rw [h]; rfl⟩
  | counter n => exact ⟨.int (Int64.ofNat n.toNat), by rw [h, toScalar], by rw [h]; rfl⟩
  | gauge n => exact ⟨.int (Int64.ofNat n.toNat), by rw [h, toScalar], by rw [h]; rfl⟩
  | timeticks n => exact ⟨.int (Int64.ofNat n.toNat), by rw [h, toScalar], by rw [h]; rfl⟩
  | oid x => exact ⟨.str x, by rw [h.1, toScalar], by rw [h.1]; rfl⟩
  | ipaddress a => exact ⟨.str a.text, by rw [h, toScalar], by rw [h]; rfl⟩
  | bits b => exact ⟨.bits b, by rw [h, toScalar], by rw [h]; rfl⟩
  | block b => exact absurd h.1 hk

end Value

end ScriptedAgent
