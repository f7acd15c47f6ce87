import Mathlib.Data.List.Basic
import Mathlib.Tactic.ByContra
import Mathlib.Tactic.SplitIfs
import Mathlib.Tactic.Tauto
import ScriptedAgent.Proofs.Stateful
import ScriptedAgent.Proofs.Wire.Digits

/-!
# Identifiers in groups of seven bits

The octets of an identifier are cut into groups, one to a number. Octets are read exactly if the
last group is finished and the numbers have 32 bits (`subidentifiers_eq_some_iff`). A number is read
back from the group it is written in, and every other group for that number ends in this one
(`base128_suffix`). The first two arcs of an identifier share a number, which two arcs can be read
back from exactly if they are encodable.
-/

namespace ScriptedAgent

/-- The identifiers that can be written: at least two arcs, of which the first is at most 2, and the
second leaves room for it in one number. -/
def Oid.Encodable : Oid → Prop
  | a :: b :: _ =>
    a.toNat ≤ 2 ∧ (a.toNat < 2 → b.toNat ≤ 39) ∧ (a.toNat = 2 → b.toNat ≤ 0xffffffff - 80)
  | _ => False

instance : DecidablePred Oid.Encodable
  | _ :: _ :: _ => inferInstanceAs (Decidable (_ ∧ _))
  | [] | [_] => inferInstanceAs (Decidable False)

namespace Ber

theorem marked_cons (g h : Nat) (gs : List Nat) :
    marked (g :: h :: gs) = UInt8.ofNat (g + 0x80) :: marked (h :: gs) := rfl

@[simp] theorem length_marked : ∀ gs, (marked gs).length = gs.length
  | [] => rfl
  | [_] => rfl
  | g :: h :: gs => by simp only [marked_cons, List.length_cons, length_marked (h :: gs)]

theorem mul_base_le_value {base acc : Nat} (hb : 0 < base) :
    ∀ {gs : List Nat}, gs ≠ [] → acc * base ≤ value base acc gs
  | g :: gs, _ => by
    rw [value_cons, value_eq]
    calc acc * base ≤ (acc * base + g) * 1 := by omega
      _ ≤ (acc * base + g) * base ^ gs.length := Nat.mul_le_mul_left _ (Nat.pow_pos hb)
      _ ≤ _ := Nat.le_add_right _ _

/-! ## Groups of octets -/

/-- Octets cut behind each one that is not marked as going on. -/
def groups : List UInt8 → List (List UInt8)
  | [] => []
  | b :: bs =>
    if b < 0x80 then [b] :: groups bs
    else match groups bs with
      | [] => [[b]]
      | g :: gs => (b :: g) :: gs

/-- All octets but the last are marked as going on. -/
def IsGroup : List UInt8 → Prop
  | [] => False
  | [b] => b < 0x80
  | b :: c :: bs => 0x80 ≤ b ∧ IsGroup (c :: bs)

/-- Seven bits of each octet. -/
def lows (g : List UInt8) : List Nat := g.map (·.toNat % 128)

/-- The number that a group stands for, however great it is. -/
def groupValue (g : List UInt8) : Nat := value 128 0 (lows g)

/-- Behind the last octet nothing is missing. -/
def Finished (bytes : List UInt8) : Prop := ∀ b ∈ bytes.getLast?, b < 0x80

theorem lt_of_mem_lows {g : List UInt8} {d : Nat} (h : d ∈ lows g) : d < 128 := by
  obtain ⟨b, -, rfl⟩ := List.mem_map.1 h
  exact Nat.mod_lt _ (by decide)

@[simp] theorem length_lows (g : List UInt8) : (lows g).length = g.length := List.length_map _

theorem flatten_groups (bytes : List UInt8) : (groups bytes).flatten = bytes := by
  induction bytes with
  | nil => rfl
  | cons b bs ih =>
    unfold groups
    split
    · rw [List.flatten_cons, ih]
      rfl
    · rcases hg : groups bs with _ | ⟨g, gs⟩ <;> rw [hg] at ih <;> simp [← ih]

theorem isGroup_of_mem_groups : ∀ {bytes : List UInt8}, Finished bytes →
    ∀ g ∈ groups bytes, IsGroup g
  | [], _ => by simp [groups]
  | [b], h => by
    have hb : b < 0x80 := h b rfl
    simp [groups, hb, IsGroup]
  | b :: c :: bs, h => by
    have ih : ∀ g ∈ groups (c :: bs), IsGroup g :=
      isGroup_of_mem_groups fun d hd => h d (by rwa [List.getLast?_cons_cons])
    rw [groups]
    split_ifs with hb
    · exact List.forall_mem_cons.2 ⟨hb, ih⟩
    · have hflat := flatten_groups (c :: bs)
      rcases hg : groups (c :: bs) with _ | ⟨_ | ⟨d, ds⟩, gs⟩
      · simp [hg] at hflat
      · exact absurd (ih [] (by simp [hg])) id
      · rw [hg] at ih
        obtain ⟨hd, hgs⟩ := List.forall_mem_cons.1 ih
        exact List.forall_mem_cons.2 ⟨⟨UInt8.not_lt.1 hb, hd⟩, hgs⟩

theorem groups_append (rest : List UInt8) : ∀ {g : List UInt8}, IsGroup g →
    groups (g ++ rest) = g :: groups rest
  | [b], h => by
    have hb : b < 0x80 := h
    rw [List.singleton_append, groups, if_pos hb]
  | b :: c :: bs, ⟨hb, hc⟩ => by
    rw [List.cons_append, groups, if_neg (UInt8.not_lt.2 hb), groups_append rest hc]

theorem groups_flatten : ∀ {gs : List (List UInt8)}, (∀ g ∈ gs, IsGroup g) →
    groups gs.flatten = gs
  | [], _ => rfl
  | g :: gs, h => by
    obtain ⟨hg, hgs⟩ := List.forall_mem_cons.1 h
    rw [List.flatten_cons, groups_append _ hg, groups_flatten hgs]

/-! ## Reading groups -/

/-- A group is read as its number if that has 32 bits, whatever number came before. -/
theorem subidentifiers_group (rest : List UInt8) :
    ∀ {g : List UInt8} {acc : Nat} {inside : Bool}, IsGroup g →
      subidentifiers acc inside (g ++ rest) =
        if value 128 acc (lows g) < 0x100000000 then
          (subidentifiers 0 false rest).map (value 128 acc (lows g) :: ·)
        else none
  | [b], acc, inside, h => by
    have hb : ¬ (0x80 : UInt8) ≤ b := UInt8.not_le.2 h
    have hv : value 128 acc (lows [b]) = acc * 128 + b.toNat % 128 := rfl
    rw [hv, List.singleton_append, subidentifiers]
    by_cases hacc : 0x2000000 ≤ acc
    · rw [if_pos hacc, if_neg (by omega)]
    · rw [if_neg hacc]
      simp only [if_neg hb]
      rw [if_pos (by omega)]
  | b :: c :: bs, acc, inside, ⟨hb, hc⟩ => by
    have hv : value 128 acc (lows (b :: c :: bs)) =
        value 128 (acc * 128 + b.toNat % 128) (lows (c :: bs)) := rfl
    rw [List.cons_append, subidentifiers]
    by_cases hacc : 0x2000000 ≤ acc
    · have hle : acc * 128 ≤ value 128 acc (lows (b :: c :: bs)) :=
        mul_base_le_value (by decide) (by simp [lows])
      rw [if_pos hacc, if_neg (by omega)]
    · have ih := @subidentifiers_group rest (c :: bs) (acc * 128 + b.toNat % 128) true hc
      rw [if_neg hacc, hv, ← ih]
      simp only [if_pos hb]

theorem subidentifiers_flatten : ∀ {gs : List (List UInt8)}, (∀ g ∈ gs, IsGroup g) →
    subidentifiers 0 false gs.flatten =
      if ∀ g ∈ gs, groupValue g < 0x100000000 then some (gs.map groupValue) else none
  | [], _ => by simp [subidentifiers]
  | g :: gs, h => by
    obtain ⟨hg, hgs⟩ := List.forall_mem_cons.1 h
    rw [List.flatten_cons, subidentifiers_group _ hg, subidentifiers_flatten hgs, ← groupValue]
    simp only [List.forall_mem_cons, List.map_cons]
    by_cases hv : groupValue g < 0x100000000
    · rw [if_pos hv]
      simp only [hv, true_and]
      split <;> rfl
    · rw [if_neg hv, if_neg (by tauto)]

theorem subidentifiers_of_not_finished : ∀ {bytes : List UInt8} {acc : Nat} {inside : Bool},
    ¬ Finished bytes → subidentifiers acc inside bytes = none
  | [], _, _, h => absurd (by simp [Finished]) h
  | [b], acc, inside, h => by
    have hb : (0x80 : UInt8) ≤ b := by simpa [Finished] using h
    rw [subidentifiers]
    split_ifs
    · rfl
    · rfl
  | b :: c :: bs, acc, inside, h => by
    have hc : ¬ Finished (c :: bs) := by simpa [Finished] using h
    rw [subidentifiers]
    split_ifs
    · rfl
    · exact subidentifiers_of_not_finished hc
    · rw [subidentifiers_of_not_finished hc]
      rfl

/-- Octets are read exactly if the last group is finished and all numbers have 32 bits. -/
theorem subidentifiers_eq_some_iff {bytes : List UInt8} {ns : List Nat} :
    subidentifiers 0 false bytes = some ns ↔
      Finished bytes ∧ (∀ g ∈ groups bytes, groupValue g < 0x100000000) ∧
        ns = (groups bytes).map groupValue := by
  by_cases hf : Finished bytes
  · have hread := subidentifiers_flatten (isGroup_of_mem_groups hf)
    rw [flatten_groups] at hread
    rw [hread]
    split_ifs with hlt
    · simp only [Option.some.injEq, hf, true_and]
      exact ⟨fun h => ⟨hlt, h.symm⟩, fun h => h.2.symm⟩
    · simp [hlt]
  · simp [subidentifiers_of_not_finished hf, hf]

/-! ## Writing groups -/

theorem isGroup_marked : ∀ {gs : List Nat}, gs ≠ [] → (∀ g ∈ gs, g < 128) → IsGroup (marked gs)
  | [g], _, hg => by
    have hg : g < 128 := hg g (by simp)
    show UInt8.ofNat g < 0x80
    rw [UInt8.lt_iff_toNat_lt, UInt8.toNat_ofNat_of_lt' (show g < 256 by omega)]
    exact hg
  | g :: h :: gs, _, hg => by
    obtain ⟨hg, hgs⟩ := List.forall_mem_cons.1 hg
    have ih := isGroup_marked (List.cons_ne_nil h gs) hgs
    have hmore : (0x80 : UInt8) ≤ UInt8.ofNat (g + 0x80) := by
      rw [UInt8.le_iff_toNat_le, UInt8.toNat_ofNat_of_lt' (show g + 0x80 < 256 by omega)]
      exact Nat.le_add_left _ _
    rw [marked_cons]
    rcases hm : marked (h :: gs) with _ | ⟨d, ds⟩
    · rw [hm] at ih
      exact absurd ih id
    · rw [hm] at ih
      exact ⟨hmore, ih⟩

theorem lows_marked : ∀ {gs : List Nat}, (∀ g ∈ gs, g < 128) → lows (marked gs) = gs
  | [], _ => rfl
  | [g], hg => by
    have hg : g < 128 := hg g (by simp)
    show [(UInt8.ofNat g).toNat % 128] = [g]
    rw [UInt8.toNat_ofNat_of_lt' (show g < 256 by omega), Nat.mod_eq_of_lt hg]
  | g :: h :: gs, hg => by
    obtain ⟨hg, hgs⟩ := List.forall_mem_cons.1 hg
    rw [marked_cons]
    show (UInt8.ofNat (g + 0x80)).toNat % 128 :: lows (marked (h :: gs)) = g :: h :: gs
    rw [lows_marked hgs, UInt8.toNat_ofNat_of_lt' (show g + 0x80 < 256 by omega),
      Nat.add_mod_right, Nat.mod_eq_of_lt hg]

/-- The groups a number is written in. -/
theorem exists_groups {n : Nat} (h : n < 0x100000000) :
    ∃ gs, gs ≠ [] ∧ base128 n = marked gs ∧ (∀ g ∈ gs, g < 128) ∧ value 128 0 gs = n ∧
      ∀ k, n < 128 ^ (k + 1) → gs.length ≤ k + 1 := by
  have hw : n < 128 ^ 5 := by omega
  unfold base128
  split
  · rename_i hf
    have hn := value_fewest hw
    rw [hf] at hn
    exact ⟨[0], by simp, rfl, by simp, hn, fun k _ => by simp⟩
  · rename_i hf
    exact ⟨_, hf, rfl, fun g => lt_of_mem_fewest (by decide), value_fewest hw,
      fun k => length_fewest_le (by decide) hw⟩

theorem isGroup_base128 {n : Nat} (h : n < 0x100000000) :
    IsGroup (base128 n) ∧ groupValue (base128 n) = n := by
  obtain ⟨gs, hne, hgs, hlt, hv, -⟩ := exists_groups h
  rw [hgs, groupValue, lows_marked hlt]
  exact ⟨isGroup_marked hne hlt, hv⟩

theorem length_base128_le {n k : Nat} (h : n < 0x100000000) (hk : n < 128 ^ (k + 1)) :
    (base128 n).length ≤ k + 1 := by
  obtain ⟨gs, -, hgs, -, -, hlen⟩ := exists_groups h
  rw [hgs, length_marked]
  exact hlen k hk

/-- Numbers of 32 bits are read back from their groups. -/
theorem subidentifiers_base128 :
    ∀ {ns : List Nat}, (∀ n ∈ ns, n < 0x100000000) →
      subidentifiers 0 false (ns.flatMap base128) = some ns
  | [], _ => rfl
  | n :: ns, h => by
    obtain ⟨hn, hns⟩ := List.forall_mem_cons.1 h
    obtain ⟨hg, hv⟩ := isGroup_base128 hn
    have hv : value 128 0 (lows (base128 n)) = n := hv
    rw [List.flatMap_cons, subidentifiers_group _ hg, hv, if_pos hn, subidentifiers_base128 hns]
    rfl

/-! ## The shortest groups -/

theorem IsGroup.of_append : ∀ {xs ys : List UInt8}, IsGroup (xs ++ ys) → ys ≠ [] → IsGroup ys
  | [], _, h, _ => h
  | [_], _ :: _, h, _ => h.2
  | _ :: x :: xs, _, h, hne => @IsGroup.of_append (x :: xs) _ h.2 hne

theorem eq_of_lows : ∀ {g h : List UInt8}, IsGroup g → IsGroup h → lows g = lows h → g = h
  | [b], [c], hb, hc, hl => by
    have hb : b.toNat < 128 := UInt8.lt_iff_toNat_lt.1 hb
    have hc : c.toNat < 128 := UInt8.lt_iff_toNat_lt.1 hc
    have hmod : b.toNat % 128 = c.toNat % 128 := (List.cons.inj hl).1
    rw [UInt8.toNat_inj.1 (show b.toNat = c.toNat by omega)]
  | b :: b' :: bs, c :: c' :: cs, ⟨hb, hbs⟩, ⟨hc, hcs⟩, hl => by
    have hb : 128 ≤ b.toNat := UInt8.le_iff_toNat_le.1 hb
    have hc : 128 ≤ c.toNat := UInt8.le_iff_toNat_le.1 hc
    have hb' := b.toNat_lt
    have hc' := c.toNat_lt
    obtain ⟨hmod, hl⟩ := List.cons.inj hl
    have hmod : b.toNat % 128 = c.toNat % 128 := hmod
    rw [UInt8.toNat_inj.1 (show b.toNat = c.toNat by omega), eq_of_lows hbs hcs hl]
  | [_], _ :: _ :: _, _, _, hl => by simp [lows] at hl
  | _ :: _ :: _, [_], _, _, hl => by simp [lows] at hl

/-- A group ends in every other one with its number that is no shorter. -/
theorem suffix_of_groupValue {g h : List UInt8} (hg : IsGroup g) (hh : IsGroup h)
    (hlen : g.length ≤ h.length) (hv : groupValue h = groupValue g) : g <:+ h := by
  obtain ⟨xs, ys, rfl, hys⟩ : ∃ xs ys, h = xs ++ ys ∧ ys.length = g.length :=
    ⟨_, _, (List.take_append_drop (h.length - g.length) h).symm, by
      rw [List.length_drop]
      omega⟩
  have hne : ys ≠ [] := by
    rintro rfl
    rw [List.length_eq_zero_iff.1 hys.symm] at hg
    exact hg
  have hgroup := hh.of_append hne
  have hlt : groupValue g < 128 ^ g.length := by
    have h := value_lt fun d (hd : d ∈ lows g) => lt_of_mem_lows hd
    rwa [length_lows] at h
  have hsplit : groupValue (xs ++ ys) = groupValue xs * 128 ^ g.length + groupValue ys := by
    rw [groupValue, lows, List.map_append, value_append, value_eq, List.length_map, hys]
    rfl
  -- What stands in front has no room to add anything.
  have hfront : groupValue xs = 0 := by
    by_contra hpos
    have hle := Nat.mul_le_mul_right (128 ^ g.length) (Nat.pos_of_ne_zero hpos)
    omega
  have hvalue : groupValue ys = groupValue g := by
    rw [hfront] at hsplit
    omega
  have heq : ys = g := by
    refine eq_of_lows hgroup hg (eq_of_value (fun d => lt_of_mem_lows) (fun d => lt_of_mem_lows) ?_
      hvalue)
    rw [length_lows, length_lows, hys]
  exact ⟨xs, by rw [heq]⟩

/-- A number is written in the last octets of any group that stands for it. -/
theorem base128_suffix {g : List UInt8} (hg : IsGroup g) (hlt : groupValue g < 0x100000000) :
    base128 (groupValue g) <:+ g := by
  obtain ⟨hgroup, hv⟩ := isGroup_base128 hlt
  have hv' := value_lt fun d (hd : d ∈ lows g) => lt_of_mem_lows hd
  have hpos : 0 < g.length := List.length_pos_iff.2 (by rintro rfl; exact hg)
  refine suffix_of_groupValue hgroup hg ?_ hv.symm
  have hlen := length_base128_le (k := g.length - 1) hlt
  rw [Nat.sub_add_cancel hpos] at hlen
  refine hlen ?_
  rwa [length_lows] at hv'

theorem length_flatMap_base128_le : ∀ {gs : List (List UInt8)}, (∀ g ∈ gs, IsGroup g) →
    (∀ g ∈ gs, groupValue g < 0x100000000) →
      ((gs.map groupValue).flatMap base128).length ≤ gs.flatten.length
  | [], _, _ => Nat.le_refl _
  | g :: gs, h, hlt => by
    obtain ⟨hg, hgs⟩ := List.forall_mem_cons.1 h
    obtain ⟨hv, hvs⟩ := List.forall_mem_cons.1 hlt
    have hle := (base128_suffix hg hv).length_le
    have ih := length_flatMap_base128_le hgs hvs
    simp only [List.map_cons, List.flatMap_cons, List.flatten_cons, List.length_append]
    omega

/-- Numbers that are read are of 32 bits, and they are written in no more octets than they were
read from. -/
theorem of_subidentifiers {bytes : List UInt8} {ns : List Nat}
    (h : subidentifiers 0 false bytes = some ns) :
    (∀ n ∈ ns, n < 0x100000000) ∧ (ns.flatMap base128).length ≤ bytes.length := by
  obtain ⟨hf, hlt, rfl⟩ := subidentifiers_eq_some_iff.1 h
  have hle := length_flatMap_base128_le (isGroup_of_mem_groups hf) hlt
  rw [flatten_groups] at hle
  exact ⟨List.forall_mem_map.2 hlt, hle⟩

/-! ## Identifiers -/

theorem splitFirst_joinFirst {a b : Nat} (ha : a ≤ 2) (h₁ : a < 2 → b ≤ 39)
    (h₂ : a = 2 → b ≤ 0xffffffff - 80) : splitFirst (joinFirst a b) = (a, b) := by
  have hj : joinFirst a b = 40 * a + b := by
    unfold joinFirst
    omega
  rw [hj]
  unfold splitFirst
  split
  · exact Prod.ext (by simp only; omega) (by simp only; omega)
  · split <;> exact Prod.ext (by simp only; omega) (by simp only; omega)

theorem joinFirst_splitFirst {n : Nat} (h : n < 0x100000000) :
    joinFirst (splitFirst n).1 (splitFirst n).2 = n := by
  unfold splitFirst joinFirst
  split
  · simp only; omega
  · split <;> simp only <;> omega

theorem splitFirst_bounds {n : Nat} (h : n < 0x100000000) :
    (splitFirst n).1 ≤ 2 ∧ ((splitFirst n).1 < 2 → (splitFirst n).2 ≤ 39) ∧
      ((splitFirst n).1 = 2 → (splitFirst n).2 ≤ 0xffffffff - 80) := by
  unfold splitFirst
  split
  · simp only; omega
  · split <;> simp only <;> omega

theorem decodeOid_encodeOid : ∀ {arcs : Oid}, arcs.Encodable → decodeOid (encodeOid arcs) = .ok arcs
  | a :: b :: rest, ⟨ha, h₁, h₂⟩ => by
    have hlt : ∀ n ∈ subidentifiersOf (a :: b :: rest), n < 0x100000000 := by
      refine List.forall_mem_cons.2 ⟨by unfold joinFirst; omega, fun n hn => ?_⟩
      obtain ⟨c, -, rfl⟩ := List.mem_map.1 hn
      exact c.toNat_lt
    have hrest : (rest.map UInt32.toNat).map UInt32.ofNat = rest := by
      rw [List.map_map]
      exact (List.map_congr_left fun c _ => UInt32.ofNat_toNat).trans (List.map_id rest)
    unfold decodeOid encodeOid
    rw [subidentifiers_base128 hlt]
    simp only [subidentifiersOf, splitFirst_joinFirst ha h₁ h₂, List.map_cons, UInt32.ofNat_toNat,
      hrest]

/-- The numbers that an identifier was read from are those it is written as. -/
theorem subidentifiers_of_decodeOid {bytes : List UInt8} {arcs : Oid}
    (h : decodeOid bytes = .ok arcs) :
    arcs.Encodable ∧ subidentifiers 0 false bytes = some (subidentifiersOf arcs) ∧
      ∃ n ns, subidentifiersOf arcs = n :: ns ∧
        arcs.map UInt32.toNat = (splitFirst n).1 :: (splitFirst n).2 :: ns := by
  unfold decodeOid at h
  split at h
  · cases h
  · cases h
  · rename_i n ns hs
    cases h
    obtain ⟨hlt, -⟩ := of_subidentifiers hs
    obtain ⟨hn, hns⟩ := List.forall_mem_cons.1 hlt
    obtain ⟨h₁, h₂, h₃⟩ := splitFirst_bounds hn
    have hfirst : (UInt32.ofNat (splitFirst n).1).toNat = (splitFirst n).1 :=
      Nat.mod_eq_of_lt (by omega)
    have hsecond : (UInt32.ofNat (splitFirst n).2).toNat = (splitFirst n).2 :=
      Nat.mod_eq_of_lt (by omega)
    have hrest : (ns.map UInt32.ofNat).map UInt32.toNat = ns := by
      rw [List.map_map]
      exact (List.map_congr_left fun m hm => Nat.mod_eq_of_lt (hns m hm)).trans (List.map_id ns)
    have hnumbers : subidentifiersOf (((splitFirst n).1 :: (splitFirst n).2 :: ns).map
        UInt32.ofNat) = n :: ns := by
      simp only [List.map_cons, subidentifiersOf, hfirst, hsecond, joinFirst_splitFirst hn, hrest]
    refine ⟨?_, by rw [hs, hnumbers], n, ns, hnumbers, ?_⟩
    · simp only [List.map_cons, Oid.Encodable, hfirst, hsecond]
      exact ⟨h₁, h₂, h₃⟩
    · simp only [List.map_cons, hfirst, hsecond, hrest]

theorem of_decodeOid {bytes : List UInt8} {arcs : Oid} (h : decodeOid bytes = .ok arcs) :
    arcs.Encodable ∧ (encodeOid arcs).length ≤ bytes.length := by
  obtain ⟨he, hs, -⟩ := subidentifiers_of_decodeOid h
  exact ⟨he, (of_subidentifiers hs).2⟩

theorem exists_decodeOid_iff {bytes : List UInt8} :
    (∃ arcs, decodeOid bytes = .ok arcs) ↔
      bytes ≠ [] ∧ ∃ ns, subidentifiers 0 false bytes = some ns := by
  rcases bytes with _ | ⟨b, bs⟩
  · simp [decodeOid, subidentifiers]
  · have hne : subidentifiers 0 false (b :: bs) ≠ some [] := by
      intro h
      obtain ⟨-, -, hnil⟩ := subidentifiers_eq_some_iff.1 h
      have hflat := flatten_groups (b :: bs)
      rw [List.map_eq_nil_iff.1 hnil.symm] at hflat
      simp at hflat
    rw [decodeOid]
    rcases hs : subidentifiers 0 false (b :: bs) with _ | _ | ⟨n, ns⟩
    · simp
    · exact absurd hs hne
    · simp

/-- Octets are read as an identifier exactly if there are some, the last of them is not marked as
going on, and no group of them stands for more than 32 bits can hold. The arcs are then these
numbers as they are, the first one cut in two. They are written as the same numbers again, each in
octets that every group for that number ends in, so that no group is shorter. -/
theorem oid_inverse (bytes : List UInt8) :
    ((∃ arcs, decodeOid bytes = .ok arcs) ↔
      bytes ≠ [] ∧ (∀ b ∈ bytes.getLast?, b < 0x80) ∧
        ∀ g ∈ groups bytes, groupValue g < 2 ^ 32) ∧
    ∀ arcs, decodeOid bytes = .ok arcs →
      (∃ a b rest n, arcs = a :: b :: rest ∧
        (groups bytes).map groupValue = n :: rest.map UInt32.toNat ∧
        n = 40 * a.toNat + b.toNat ∧ a.toNat = if n < 40 then 0 else if n < 80 then 1 else 2) ∧
      (groups (encodeOid arcs)).map groupValue = (groups bytes).map groupValue ∧
      ∀ g ∈ groups (encodeOid arcs), ∀ h, IsGroup h → groupValue h = groupValue g → g <:+ h := by
  refine ⟨?_, fun arcs harcs => ?_⟩
  · rw [exists_decodeOid_iff]
    refine and_congr_right fun _ => ⟨?_, fun ⟨hf, hlt⟩ => ?_⟩
    · rintro ⟨ns, hs⟩
      obtain ⟨hf, hlt, -⟩ := subidentifiers_eq_some_iff.1 hs
      exact ⟨hf, hlt⟩
    · exact ⟨_, subidentifiers_eq_some_iff.2 ⟨hf, hlt, rfl⟩⟩
  · obtain ⟨-, hs, n, ns, hnumbers, harcs⟩ := subidentifiers_of_decodeOid harcs
    obtain ⟨-, hlt, hvalues⟩ := subidentifiers_eq_some_iff.1 hs
    have hwritten : groups (encodeOid arcs) =
        (groups bytes).map fun g => base128 (groupValue g) := by
      rw [encodeOid, hvalues, List.flatMap_map, List.flatMap_def]
      refine groups_flatten fun g hg => ?_
      obtain ⟨h, hh, rfl⟩ := List.mem_map.1 hg
      exact (isGroup_base128 (hlt h hh)).1
    refine ⟨?_, ?_, ?_⟩
    · obtain ⟨a, arcs, rfl⟩ := List.exists_cons_of_ne_nil (l := arcs) (by rintro rfl; simp at harcs)
      obtain ⟨b, rest, rfl⟩ := List.exists_cons_of_ne_nil (l := arcs) (by rintro rfl; simp at harcs)
      simp only [List.map_cons, List.cons.injEq] at harcs
      obtain ⟨ha, hb, hrest⟩ := harcs
      refine ⟨a, b, rest, n, rfl, by rw [hrest, ← hnumbers, hvalues], ?_, ?_⟩
      · rw [ha, hb, splitFirst]
        split_ifs <;> simp only <;> omega
      · rw [ha, splitFirst]
        split_ifs <;> rfl
    · rw [hwritten, List.map_map]
      exact List.map_congr_left fun g hg => (isGroup_base128 (hlt g hg)).2
    · intro w hw h hh hv
      rw [hwritten] at hw
      obtain ⟨g, hg, rfl⟩ := List.mem_map.1 hw
      rw [(isGroup_base128 (hlt g hg)).2] at hv
      rw [← hv]
      exact base128_suffix hh (hv ▸ hlt g hg)

/-- Padding in front of a number is read and not written; the greatest number of 32 bits is read,
and the one behind it is not. -/
example : decodeOid [0x80, 0x2b, 0x8f, 0xff, 0xff, 0xff, 0x7f] = .ok [1, 3, 0xffffffff] ∧
    encodeOid [1, 3, 0xffffffff] = [0x2b, 0x8f, 0xff, 0xff, 0xff, 0x7f] ∧
    decodeOid [0x2b, 0x90, 0x80, 0x80, 0x80, 0x00] = .error .badOid := by
  decide

end Ber

end ScriptedAgent
