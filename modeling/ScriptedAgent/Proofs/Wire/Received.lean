import ScriptedAgent.Proofs.Oid
import ScriptedAgent.Proofs.Script.WellKinded
import ScriptedAgent.Proofs.Store.Exported
import ScriptedAgent.Proofs.Wire.Oid

/-!
# Identifiers as managers receive them

The text of an identifier may have any second arc, but on the wire the first two share a number of
32 bits, from which they are split again as if the second were below 40. So what a manager receives
(`Oid.received`) is the identifier that was written exactly if it is encodable, and only among those
do different identifiers differ on the wire and does a walk go upwards.
-/

namespace ScriptedAgent

open Ber

/-- What is read back from the encoding of an identifier. -/
def Oid.received : Oid → Oid
  | a :: b :: rest =>
    let (a', b') := splitFirst (joinFirst a.toNat b.toNat)
    UInt32.ofNat a' :: UInt32.ofNat b' :: rest
  | arcs => arcs

namespace Ber

theorem joinFirst_lt (a b : Nat) : joinFirst a b < 0x100000000 := by
  unfold joinFirst
  omega

theorem decodeOid_encodeOid_received :
    ∀ {arcs : Oid}, arcs.Names → decodeOid (encodeOid arcs) = .ok arcs.received
  | a :: b :: rest, _ => by
    have hlt : ∀ n ∈ subidentifiersOf (a :: b :: rest), n < 0x100000000 := by
      refine List.forall_mem_cons.2 ⟨joinFirst_lt _ _, fun n hn => ?_⟩
      obtain ⟨c, -, rfl⟩ := List.mem_map.1 hn
      exact c.toNat_lt
    have hrest : (rest.map UInt32.toNat).map UInt32.ofNat = rest := by
      rw [List.map_map]
      exact (List.map_congr_left fun c _ => UInt32.ofNat_toNat).trans (List.map_id rest)
    unfold decodeOid encodeOid
    rw [subidentifiers_base128 hlt]
    simp only [subidentifiersOf, List.map_cons, hrest]
    rfl

/-- An identifier is written as the one that is received for it. -/
theorem encodeOid_received : ∀ arcs : Oid, encodeOid arcs.received = encodeOid arcs
  | [] | [_] => rfl
  | a :: b :: rest => by
    have hn := joinFirst_lt a.toNat b.toNat
    obtain ⟨h₁, h₂, h₃⟩ := splitFirst_bounds hn
    have hfirst : (UInt32.ofNat (splitFirst (joinFirst a.toNat b.toNat)).1).toNat =
        (splitFirst (joinFirst a.toNat b.toNat)).1 := Nat.mod_eq_of_lt (by omega)
    have hsecond : (UInt32.ofNat (splitFirst (joinFirst a.toNat b.toNat)).2).toNat =
        (splitFirst (joinFirst a.toNat b.toNat)).2 := Nat.mod_eq_of_lt (by omega)
    simp only [Oid.received, encodeOid, subidentifiersOf, hfirst, hsecond, joinFirst_splitFirst hn]

theorem received_eq_iff {arcs : Oid} (h : arcs.Names) : arcs.received = arcs ↔ arcs.Encodable := by
  have hd := decodeOid_encodeOid_received h
  constructor
  · intro he
    rw [he] at hd
    exact (of_decodeOid hd).1
  · intro he
    rw [decodeOid_encodeOid he] at hd
    exact (Except.ok.inj hd).symm

theorem encodeOid_eq_iff {arcs arcs' : Oid} (h : arcs.Names) (h' : arcs'.Names) :
    encodeOid arcs = encodeOid arcs' ↔ arcs.received = arcs'.received := by
  constructor
  · intro he
    have hd := decodeOid_encodeOid_received h
    rw [he, decodeOid_encodeOid_received h'] at hd
    exact (Except.ok.inj hd).symm
  · intro he
    rw [← encodeOid_received arcs, he, encodeOid_received]

end Ber

namespace Store

/-- The identifiers that a manager receives in a walk of at most `n` steps, each from the one
received before. -/
def walk (s : Store) : Nat → Oid → List Oid
  | 0, _ => []
  | n + 1, r => match s.next? r with
    | none => []
    | some (arcs, _) => match decodeOid (encodeOid arcs) with
      | .error _ => []
      | .ok arcs' => arcs' :: walk s n arcs'

/-- A walk goes upwards. -/
theorem walk_increasing {s : Store} (h : ∀ arcs ∈ s.oids, arcs.Encodable) :
    ∀ n r, (r :: s.walk n r).Pairwise (· < ·)
  | 0, r => List.pairwise_singleton _ r
  | n + 1, r => by
    unfold walk
    split
    · exact List.pairwise_singleton _ r
    · rename_i arcs v hnext
      obtain ⟨hlt, name, hmem, -⟩ := of_next? hnext
      rw [decodeOid_encodeOid (h arcs (mem_oids_iff.2 ⟨name, hmem⟩))]
      have ih := walk_increasing h n arcs
      refine List.pairwise_cons.2 ⟨fun x hx => ?_, ih⟩
      rcases List.mem_cons.1 hx with rfl | hx
      · exact hlt
      · exact Std.lt_trans hlt ((List.pairwise_cons.1 ih).1 x hx)

end Store

namespace Oid

/-- A text that is accepted is received as it is exactly if its arcs are encodable. Two of them are
the same on the wire exactly if the same is received for both, and where all that a store exports is
encodable, a walk goes upwards. -/
theorem accepted_received {text text' : String} {arcs arcs' : Oid} (s : Store)
    (h : ofText? text = some arcs) (h' : ofText? text' = some arcs') :
    decodeOid (encodeOid arcs) = .ok arcs.received ∧
    (decodeOid (encodeOid arcs) = .ok arcs ↔ arcs.Encodable) ∧
    (encodeOid arcs = encodeOid arcs' ↔ arcs.received = arcs'.received) ∧
    ((∀ r ∈ s.oids, r.Encodable) → ∀ n r, (r :: s.walk n r).Pairwise (· < ·)) := by
  have hd := decodeOid_encodeOid_received (names_of_ofText? h)
  refine ⟨hd, ?_, ?_, s.walk_increasing⟩
  · rw [hd, Except.ok.injEq, received_eq_iff (names_of_ofText? h)]
  · exact encodeOid_eq_iff (names_of_ofText? h) (names_of_ofText? h')

theorem accepted_received_sample :
    ofText? ".2.999.16384" = some [2, 999, 16384] ∧ ofText? ".1.40" = some [1, 40] ∧
      decodeOid (encodeOid [2, 999, 16384]) = .ok [2, 999, 16384] ∧
      (encodeOid [2, 999, 16384] = encodeOid [1, 40] ↔
        received [2, 999, 16384] = received [1, 40]) ∧
      ∃ p, Script.Program.parse "var\n x: .2.999 integer\n y: 7 integer\nendvar\nrun\nendrun\n"
          mib2 = .ok p ∧
        (Store.load p.types).walk 3 [0, 0] = [[1, 3, 6, 1, 2, 1, 7], [2, 999]] ∧
        ([0, 0] :: (Store.load p.types).walk 3 [0, 0]).Pairwise (· < ·) := by
  obtain ⟨p, hp, h⟩ := Script.Program.exists_parse
    "var\n x: .2.999 integer\n y: 7 integer\nendvar\nrun\nendrun\n" mib2
    (fun p => (Store.load p.types).walk 3 [0, 0] = [[1, 3, 6, 1, 2, 1, 7], [2, 999]] ∧
      ∀ arcs ∈ (Store.load p.types).oids, arcs.Encodable)
    (by decide +kernel)
  obtain ⟨hwalk, he⟩ := of_decide_eq_true h
  have h₁ : ofText? ".2.999.16384" = some [2, 999, 16384] := by decide +kernel
  have h₂ : ofText? ".1.40" = some [1, 40] := by decide +kernel
  obtain ⟨-, hsame, hshared, hup⟩ := accepted_received (.load p.types) h₁ h₂
  exact ⟨h₁, h₂, hsame.2 (by decide), hshared, p, hp, hwalk, hup he 3 [0, 0]⟩

/-- An accepted identifier may be received as another accepted one, and a walk may come to a
standstill. -/
theorem not_accepted_survive :
    (¬ ∀ text arcs, ofText? text = some arcs → decodeOid (encodeOid arcs) = .ok arcs) ∧
    (¬ ∀ text arcs text' arcs', ofText? text = some arcs → ofText? text' = some arcs' →
      encodeOid arcs = encodeOid arcs' → arcs = arcs') ∧
    ¬ ∀ text base p n r, Script.Program.parse text base = .ok p →
      (r :: (Store.load p.types).walk n r).Pairwise (· < ·) := by
  have h₁ : ofText? ".1.40" = some [1, 40] := by decide +kernel
  have h₂ : ofText? ".2.0" = some [2, 0] := by decide +kernel
  refine ⟨fun h => ?_, fun h => ?_, fun h => ?_⟩
  · have hd := h _ _ h₁
    rw [decodeOid_encodeOid_received (by decide)] at hd
    exact absurd hd (by decide)
  · exact absurd (h _ _ _ _ h₁ h₂ (by decide)) (by decide)
  · obtain ⟨p, hp, hwalk⟩ := Script.Program.exists_parse
      "var\n x: .2.4294967295 integer\nendvar\nrun\nendrun\n" mib2
      (fun p => (Store.load p.types).walk 2 [0, 0] = [[2, 4294967215], [2, 4294967215]])
      (by decide +kernel)
    have hs := h _ _ p 2 [0, 0] hp
    rw [of_decide_eq_true hwalk] at hs
    exact absurd hs (by decide)

end Oid

end ScriptedAgent
