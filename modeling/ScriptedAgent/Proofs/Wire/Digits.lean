import Mathlib.Algebra.Group.Nat.Defs
import ScriptedAgent.Wire.Ber

/-!
# Digits

Numbers in a fixed and in the least count of digits. `value` reads digits back; the fewest digits of
a number have its value (`value_fewest`) and no digits with that value are fewer
(`length_fewest_le`).
-/

namespace ScriptedAgent.Ber

variable {base : Nat}

/-- The number that digits stand for, behind those that came to `acc`. -/
def value (base acc : Nat) (ds : List Nat) : Nat := ds.foldl (fun n d => n * base + d) acc

theorem value_append (acc : Nat) (ds es : List Nat) :
    value base acc (ds ++ es) = value base (value base acc ds) es := List.foldl_append

theorem value_cons (acc d : Nat) (ds : List Nat) :
    value base acc (d :: ds) = value base (acc * base + d) ds := rfl

theorem value_eq (ds : List Nat) :
    ∀ acc, value base acc ds = acc * base ^ ds.length + value base 0 ds := by
  induction ds with
  | nil => intro acc; simp [value]
  | cons d ds ih =>
    intro acc
    rw [value_cons, value_cons, ih, ih (0 * base + d), List.length_cons, Nat.pow_succ]
    simp only [Nat.add_mul, Nat.zero_mul, Nat.zero_add, Nat.mul_assoc, Nat.mul_comm base]
    omega

theorem value_lt {ds : List Nat} (h : ∀ d ∈ ds, d < base) : value base 0 ds < base ^ ds.length := by
  induction ds with
  | nil => simp [value]
  | cons d ds ih =>
    obtain ⟨hd, hds⟩ := List.forall_mem_cons.1 h
    have hv := ih hds
    rw [value_cons, value_eq, Nat.zero_mul, Nat.zero_add, List.length_cons, Nat.pow_succ]
    calc d * base ^ ds.length + value base 0 ds
        < d * base ^ ds.length + base ^ ds.length := by omega
      _ = (d + 1) * base ^ ds.length := (Nat.succ_mul _ _).symm
      _ ≤ base * base ^ ds.length := Nat.mul_le_mul_right _ hd
      _ = base ^ ds.length * base := Nat.mul_comm _ _

theorem le_value {d : Nat} (hd : 0 < d) (ds : List Nat) :
    base ^ ds.length ≤ value base 0 (d :: ds) := by
  rw [value_cons, value_eq, Nat.zero_mul, Nat.zero_add]
  exact Nat.le_trans (Nat.le_mul_of_pos_left _ hd) (Nat.le_add_right _ _)

@[simp] theorem length_bigEndian (w : Nat) : ∀ n, (bigEndian base w n).length = w := by
  induction w with
  | zero => intro n; rfl
  | succ w ih => intro n; rw [bigEndian, List.length_append, ih]; rfl

theorem lt_of_mem_bigEndian (hb : 0 < base) {w : Nat} :
    ∀ {n d}, d ∈ bigEndian base w n → d < base := by
  induction w with
  | zero => intro n d h; simp [bigEndian] at h
  | succ w ih =>
    intro n d h
    rw [bigEndian, List.mem_append, List.mem_singleton] at h
    rcases h with h | rfl
    · exact ih h
    · exact Nat.mod_lt n hb

theorem value_bigEndian {w : Nat} :
    ∀ {n}, n < base ^ w → value base 0 (bigEndian base w n) = n := by
  induction w with
  | zero =>
    intro n h
    rw [Nat.pow_zero, Nat.lt_one_iff] at h
    exact h.symm
  | succ w ih =>
    intro n h
    have hdiv : n / base < base ^ w := Nat.div_lt_of_lt_mul (Nat.mul_comm _ _ ▸ h)
    rw [bigEndian, value_append, ih hdiv]
    exact Nat.div_add_mod' n base

theorem value_dropWhile : ∀ ds, value base 0 (ds.dropWhile (· == 0)) = value base 0 ds
  | [] => rfl
  | d :: ds => by
    rw [List.dropWhile_cons]
    split
    · rename_i h
      rw [value_dropWhile ds, eq_of_beq h, value_cons, Nat.zero_mul]
    · rfl

theorem value_fewest {w n : Nat} (h : n < base ^ w) : value base 0 (fewest base w n) = n := by
  rw [fewest, value_dropWhile, value_bigEndian h]

theorem lt_of_mem_fewest (hb : 0 < base) {w n d : Nat} (h : d ∈ fewest base w n) : d < base :=
  lt_of_mem_bigEndian hb ((List.dropWhile_sublist _).mem h)

/-- The first of the fewest digits is not a zero. -/
theorem pos_of_fewest {w n d : Nat} {ds : List Nat} (h : fewest base w n = d :: ds) : 0 < d := by
  have hd := List.head?_dropWhile_not (· == 0) (bigEndian base w n)
  rw [← fewest, h] at hd
  simpa [Nat.pos_iff_ne_zero] using hd

theorem length_fewest_le (hb : 1 < base) {w n k : Nat} (hw : n < base ^ w) (hk : n < base ^ k) :
    (fewest base w n).length ≤ k := by
  have hv := value_fewest hw
  cases hf : fewest base w n with
  | nil => exact Nat.zero_le k
  | cons d ds =>
    have hle : base ^ ds.length ≤ value base 0 (d :: ds) := le_value (pos_of_fewest hf) ds
    rw [← hf, hv] at hle
    exact (Nat.pow_lt_pow_iff_right hb).1 (Nat.lt_of_le_of_lt hle hk)

theorem fewest_ne_nil {w n : Nat} (hw : n < base ^ w) (hn : 0 < n) : fewest base w n ≠ [] := by
  intro h
  have hv := value_fewest hw
  rw [h] at hv
  exact absurd hv (Nat.ne_of_lt hn)

/-- Digits of one count are determined by their value. -/
theorem eq_of_value : ∀ {ds es : List Nat}, (∀ d ∈ ds, d < base) → (∀ e ∈ es, e < base) →
    ds.length = es.length → value base 0 ds = value base 0 es → ds = es
  | [], [], _, _, _, _ => rfl
  | d :: ds, e :: es, hd, he, hlen, h => by
    obtain ⟨-, hds⟩ := List.forall_mem_cons.1 hd
    obtain ⟨-, hes⟩ := List.forall_mem_cons.1 he
    have hcount : ds.length = es.length := Nat.succ.inj hlen
    have hltd := value_lt hds
    have hlte := value_lt hes
    have hpos : 0 < base ^ ds.length := Nat.zero_lt_of_lt hltd
    rw [value_cons, value_cons, value_eq, value_eq es] at h
    simp only [Nat.zero_mul, Nat.zero_add] at h
    rw [← hcount] at h hlte
    have hhead : d = e := by
      have hdiv := congrArg (· / base ^ ds.length) h
      simp only [Nat.mul_comm _ (base ^ ds.length), Nat.mul_add_div hpos, Nat.div_eq_of_lt hltd,
        Nat.div_eq_of_lt hlte, Nat.add_zero] at hdiv
      exact hdiv
    rw [hhead] at h ⊢
    rw [eq_of_value hds hes hcount (Nat.add_left_cancel h)]

/-! ## Digits as octets -/

theorem map_toNat_ofNat {ds : List Nat} (h : ∀ d ∈ ds, d < 256) :
    (ds.map UInt8.ofNat).map UInt8.toNat = ds := by
  rw [List.map_map, List.map_congr_left (g := id) fun d hd => ?_, List.map_id]
  exact Nat.mod_eq_of_lt (h d hd)

end ScriptedAgent.Ber
