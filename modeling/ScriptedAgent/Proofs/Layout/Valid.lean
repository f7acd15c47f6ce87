import Mathlib.Data.List.Chain
import Mathlib.Data.List.Sort
import ScriptedAgent.Layout.Word
import ScriptedAgent.Proofs.Layout

/-!
# The fields that make a layout

`Layout.Valid` says of fields in any order what they have to be for a layout. The checks look at the
fields by offset and compare each with the one before it only; that is enough, since a field that
ends where the next begins lies below all later ones (`fault?_eq_none_iff`). No step of the checks
leaves the range of a machine word (`wordFault?_eq`), and the layout of valid fields does not depend
on their order (`Layout.accepted_iff_valid`).
-/

namespace ScriptedAgent

namespace Field

/-- Octet `i` of a block is one of the field's. -/
def Covers (f : Field) (i : Nat) : Prop := f.offset ≤ i ∧ i < f.stop

instance (f : Field) : DecidablePred f.Covers := fun _ => inferInstanceAs (Decidable (_ ∧ _))

/-- The fields have no octet in common. -/
def Apart (f g : Field) : Prop := ∀ i, f.Covers i → ¬ g.Covers i

/-- The first field ends before the second begins. -/
def Below (f g : Field) : Prop := f.stop ≤ g.offset

/-- The field has one to eight octets, all of them within the largest block. -/
def Proper (f : Field) : Prop := 1 ≤ f.size ∧ f.size ≤ 8 ∧ f.stop ≤ Octets.maxSize

variable {f g h : Field}

theorem offset_le_stop (f : Field) : f.offset ≤ f.stop := Nat.le_add_right _ _

instance : Trans Below Below Below where
  trans {_ g _} h h' := Nat.le_trans (Nat.le_trans h g.offset_le_stop) h'

theorem Apart.symm (h : f.Apart g) : g.Apart f := fun i hg hf => h i hf hg

instance : Std.Symm Apart := ⟨fun _ _ => Apart.symm⟩

theorem Below.apart (h : f.Below g) : f.Apart g := fun _ hf hg =>
  Nat.not_lt.2 (Nat.le_trans h hg.1) hf.2

/-- A field that begins no later than another, and has no octet of it, lies below it. -/
theorem below_of_apart (hg : 1 ≤ g.size) (hle : f.offset ≤ g.offset)
    (h : f.Apart g) : f.Below g := by
  refine Nat.not_lt.1 fun hlt => h g.offset ⟨hle, hlt⟩ ⟨Nat.le_refl _, ?_⟩
  simp only [stop]
  omega

theorem Below.offset_lt (hf : 1 ≤ f.size) (h : f.Below g) :
    f.offset < g.offset := by
  simp only [Below, stop] at h
  omega

end Field

namespace Layout

open ScriptedAgent.Field

/-- What the fields of a layout have to be, in whatever order they are given. -/
structure Valid (fs : List Field) : Prop where
  ne_nil : fs ≠ []
  proper : ∀ f ∈ fs, f.Proper
  names : (fs.map Field.name).Nodup
  apart : fs.Pairwise Apart

variable {f g : Field} {fs gs below : List Field} {l : Layout} {w : Nat}

theorem Valid.perm (h : Valid fs) (hp : fs.Perm gs) : Valid gs where
  ne_nil hgs := h.ne_nil (hgs ▸ hp).eq_nil
  proper f hf := h.proper f (hp.mem_iff.2 hf)
  names := (hp.map _).nodup_iff.1 h.names
  apart := (hp.pairwise_iff Apart.symm).1 h.apart

/-! ## The checks -/

theorem fieldFault?_eq_none_iff : fieldFault? below f = none ↔
    f.Proper ∧ (∀ b ∈ below, b.name ≠ f.name) ∧ ∀ b ∈ below.head?, b.Below f := by
  unfold fieldFault? Proper Below
  split
  · simp
    omega
  · split
    · simp
      omega
    · split
      · rename_i hname
        obtain ⟨b, hb, heq⟩ := List.any_eq_true.1 hname
        simp only [reduceCtorEq, false_iff]
        exact fun h => h.2.1 b hb (beq_iff_eq.1 heq)
      · cases below with
        | nil => simp; omega
        | cons b bs => simp_all; omega

/-- Each field is compared with the one before it. -/
theorem faultFrom?_eq_none_iff : ∀ {fs below : List Field}, faultFrom? below fs = none ↔
    (∀ f ∈ fs, f.Proper) ∧ (∀ f ∈ fs, ∀ b ∈ below, b.name ≠ f.name) ∧
      (fs.map Field.name).Nodup ∧ (below.head?.toList ++ fs).IsChain Below
  | [], below => by cases below <;> simp [faultFrom?]
  | f :: fs, below => by
    have ih : faultFrom? (f :: below) fs = none ↔ _ := faultFrom?_eq_none_iff
    have hf : fieldFault? below f = none ↔ _ := fieldFault?_eq_none_iff
    have hchain : (below.head?.toList ++ f :: fs).IsChain Below ↔
        (∀ b ∈ below.head?, b.Below f) ∧ (f :: fs).IsChain Below := by
      cases below <;> simp
    have hstep : faultFrom? below (f :: fs) = none ↔
        fieldFault? below f = none ∧ faultFrom? (f :: below) fs = none := by
      rw [faultFrom?]
      split <;> simp_all
    rw [hstep, hf, ih, hchain]
    simp only [List.head?_cons, Option.toList_some, List.singleton_append, List.forall_mem_cons,
      List.map_cons, List.nodup_cons, List.mem_map]
    grind

theorem fault?_eq_none_iff : fault? fs = none ↔
    fs ≠ [] ∧ (∀ f ∈ fs, f.Proper) ∧ (fs.map Field.name).Nodup ∧ fs.Pairwise Below := by
  cases fs with
  | nil => simp [fault?]
  | cons f fs =>
    rw [fault?, faultFrom?_eq_none_iff]
    · simp [← List.isChain_iff_pairwise]
    · simp

/-- In the order of their offsets, apart fields lie one below the other. -/
theorem fault?_eq_none_iff_valid (hs : fs.Pairwise (·.offset ≤ ·.offset)) :
    fault? fs = none ↔ Valid fs := by
  rw [fault?_eq_none_iff]
  constructor
  · rintro ⟨hne, hproper, hnames, hbelow⟩
    exact ⟨hne, hproper, hnames, hbelow.imp Below.apart⟩
  · rintro ⟨hne, hproper, hnames, hapart⟩
    refine ⟨hne, hproper, hnames, (hs.and hapart).imp_of_mem fun _ hg h => ?_⟩
    exact below_of_apart (hproper _ hg).1 h.1 h.2

/-! ## The order of the fields -/

theorem insertField_eq_orderedInsert (f : Field) : ∀ fs : List Field,
    insertField f fs = fs.orderedInsert (·.offset ≤ ·.offset) f
  | [] => rfl
  | g :: gs => by
    rw [insertField, List.orderedInsert_cons, insertField_eq_orderedInsert f gs]

theorem sorted_eq_insertionSort : ∀ fs : List Field,
    sorted fs = fs.insertionSort (·.offset ≤ ·.offset)
  | [] => rfl
  | f :: fs => by
    rw [List.insertionSort_cons, ← sorted_eq_insertionSort fs, ← insertField_eq_orderedInsert]
    rfl

theorem sorted_perm (fs : List Field) : (sorted fs).Perm fs :=
  sorted_eq_insertionSort fs ▸ List.perm_insertionSort _ fs

theorem pairwise_sorted (fs : List Field) : (sorted fs).Pairwise (·.offset ≤ ·.offset) := by
  have : Std.Total (fun f g : Field => f.offset ≤ g.offset) := ⟨fun f g => Nat.le_total _ _⟩
  have : IsTrans Field (fun f g => f.offset ≤ g.offset) := ⟨fun _ _ _ => Nat.le_trans⟩
  exact sorted_eq_insertionSort fs ▸ List.pairwise_insertionSort _ fs

theorem fault?_sorted_eq_none_iff : fault? (sorted fs) = none ↔ Valid fs := by
  rw [fault?_eq_none_iff_valid (pairwise_sorted fs)]
  exact ⟨fun h => h.perm (sorted_perm fs), fun h => h.perm (sorted_perm fs).symm⟩

theorem ext_fields {l l' : Layout} (h : l.fields = l'.fields) : l = l' := by
  obtain ⟨fs, hfs⟩ := l
  obtain ⟨gs, hgs⟩ := l'
  obtain rfl : fs = gs := h
  rfl

theorem ofFields?_eq_ok_iff : ofFields? fs = .ok l ↔ l.fields = sorted fs := by
  unfold ofFields?
  constructor
  · intro h
    split at h
    · cases h
      rfl
    · cases h
  · intro h
    split
    · exact congrArg _ (ext_fields h.symm)
    · rename_i e he
      rw [← h, l.sound] at he
      cases he

theorem exists_ofFields?_iff : (∃ l, ofFields? fs = .ok l) ↔ Valid fs := by
  simp only [ofFields?_eq_ok_iff, ← fault?_sorted_eq_none_iff]
  exact ⟨fun ⟨l, hl⟩ => hl ▸ l.sound, fun h => ⟨⟨_, h⟩, rfl⟩⟩

/-! ## Accepted layouts -/

theorem valid (l : Layout) : Valid l.fields := by
  obtain ⟨hne, hproper, hnames, hbelow⟩ := fault?_eq_none_iff.1 l.sound
  exact ⟨hne, hproper, hnames, hbelow.imp Below.apart⟩

theorem pairwise_below (l : Layout) : l.fields.Pairwise Below :=
  (fault?_eq_none_iff.1 l.sound).2.2.2

theorem pairwise_offset_lt (l : Layout) : l.fields.Pairwise (·.offset < ·.offset) :=
  l.pairwise_below.imp_of_mem fun hf _ h => h.offset_lt (l.valid.proper _ hf).1

theorem apart_of_ne (hf : f ∈ l.fields) (hg : g ∈ l.fields) (hne : f ≠ g) : f.Apart g :=
  l.valid.apart.forall hf hg hne

/-- Fields that are in order of their offsets stay in that order. -/
theorem ofFields?_perm (hp : gs.Perm l.fields) : ofFields? gs = .ok l := by
  obtain ⟨l', h'⟩ := exists_ofFields?_iff.2 (l.valid.perm hp.symm)
  have hperm : l'.fields.Perm l.fields := (ofFields?_eq_ok_iff.1 h' ▸ sorted_perm gs).trans hp
  have heq : l'.fields = l.fields :=
    hperm.eq_of_pairwise (fun _ _ _ _ h h' => absurd h (Nat.lt_asymm h'))
      l'.pairwise_offset_lt l.pairwise_offset_lt
  rw [h', ext_fields heq]

theorem foldl_max_le {n : Nat} : ∀ {ns : List Nat} {a : Nat}, a ≤ n → (∀ m ∈ ns, m ≤ n) →
    ns.foldl max a ≤ n
  | [], _, ha, _ => ha
  | _ :: _, _, ha, h => by
    obtain ⟨hm, hms⟩ := List.forall_mem_cons.1 h
    rw [List.foldl_cons]
    exact foldl_max_le (Nat.max_le.2 ⟨ha, hm⟩) hms

theorem size_eq_of_getLast? (h : l.fields.getLast? = some f) : l.size = f.stop := by
  obtain ⟨fs, hfs⟩ := List.getLast?_eq_some_iff.1 h
  have hbelow := l.pairwise_below
  rw [hfs, List.pairwise_append] at hbelow
  refine Nat.le_antisymm (foldl_max_le (Nat.zero_le _) fun n hn => ?_)
    (stop_le_size (List.mem_of_getLast? h))
  obtain ⟨g, hg, rfl⟩ := List.mem_map.1 hn
  rw [hfs] at hg
  rcases List.mem_append.1 hg with hg | hg
  · exact Nat.le_trans (hbelow.2.2 g hg f List.mem_cons_self) f.offset_le_stop
  · exact Nat.le_of_eq (congrArg stop (List.mem_singleton.1 hg))

/-! ## Machine words -/

theorem word_add? (hw : 16 ≤ w) {a b : Nat} (h : a + b ≤ Octets.maxSize) :
    Word.add? w a b = some (a + b) := by
  have hpow : 2 ^ 16 ≤ 2 ^ w := Nat.pow_le_pow_right (by decide) hw
  exact if_pos (Nat.lt_of_lt_of_le (Nat.lt_succ_of_le h) hpow)

theorem wordFieldFault?_eq (hw : 16 ≤ w) (hbelow : ∀ b ∈ below, b.Proper) :
    wordFieldFault? w below f = some (fieldFault? below f) := by
  unfold wordFieldFault? fieldFault?
  split
  · rfl
  · rename_i hsize
    have hroom : f.size ≤ Octets.maxSize := by
      rw [Octets.maxSize]
      omega
    have hend : Octets.maxSize - f.size < f.offset ↔ Octets.maxSize < f.stop := by
      rw [stop]
      omega
    simp only [Word.sub?, if_pos hroom, Option.bind_eq_bind, Option.bind_some, hend]
    split
    · rfl
    · split
      · rfl
      · cases below with
        | nil => rfl
        | cons b bs =>
          have hb : b.offset + b.size ≤ Octets.maxSize := (hbelow b List.mem_cons_self).2.2
          simp only [word_add? hw hb, Option.bind_some]
          split <;> rename_i h <;> simp [stop, h]

theorem wordFaultFrom?_eq (hw : 16 ≤ w) : ∀ {fs below : List Field}, (∀ b ∈ below, b.Proper) →
    wordFaultFrom? w below fs = some (faultFrom? below fs)
  | [], _, _ => rfl
  | f :: fs, below, hbelow => by
    rw [wordFaultFrom?, faultFrom?, wordFieldFault?_eq hw hbelow, Option.bind_eq_bind,
      Option.bind_some]
    cases hf : fieldFault? below f with
    | some e => rfl
    | none =>
      have hproper := (fieldFault?_eq_none_iff.1 hf).1
      exact wordFaultFrom?_eq hw (List.forall_mem_cons.2 ⟨hproper, hbelow⟩)

/-- The sums and differences are taken where the checks before them have bounded them. -/
theorem wordFault?_eq (hw : 16 ≤ w) (fs : List Field) : wordFault? w fs = some (fault? fs) := by
  cases fs with
  | nil => rfl
  | cons f fs => exact wordFaultFrom?_eq hw (by simp)

theorem wordSize?_eq (hw : 16 ≤ w) (l : Layout) : wordSize? w l.fields = some l.size := by
  have hfold : ∀ (fs : List Field) (n : Nat), (∀ f ∈ fs, f.Proper) →
      fs.foldlM (fun size f => (Word.add? w f.offset f.size).map (max size)) n =
        some ((fs.map stop).foldl max n) := by
    intro fs
    induction fs with
    | nil => intro n _; rfl
    | cons f fs ih =>
      intro n h
      obtain ⟨hf, hfs⟩ := List.forall_mem_cons.1 h
      rw [List.foldlM_cons, word_add? hw hf.2.2]
      exact ih _ hfs
  exact hfold l.fields 0 l.valid.proper

/-- Fields are accepted as a layout exactly if they are valid. They are then the fields of the
layout in order of their offsets, the last of them ends the block, and any other order of them makes
the same layout. Machine words, if they have 16 bits or more, hold every number on the way. -/
theorem accepted_iff_valid (hw : 16 ≤ w) (fs : List Field) :
    ((∃ l, ofFields? fs = .ok l) ↔ Valid fs) ∧
    wordFault? w (sorted fs) = some (fault? (sorted fs)) ∧
    ∀ l, ofFields? fs = .ok l →
      l.fields.Perm fs ∧ l.fields.Pairwise (·.offset < ·.offset) ∧
      (∃ f, l.fields.getLast? = some f ∧ l.size = f.stop) ∧
      wordSize? w l.fields = some l.size ∧
      ∀ gs, gs.Perm fs → ofFields? gs = .ok l := by
  refine ⟨exists_ofFields?_iff, wordFault?_eq hw _, fun l h => ?_⟩
  have hperm : l.fields.Perm fs := ofFields?_eq_ok_iff.1 h ▸ sorted_perm fs
  have hlast := List.getLast?_eq_getLast_of_ne_nil l.valid.ne_nil
  exact ⟨hperm, l.pairwise_offset_lt, ⟨_, hlast, size_eq_of_getLast? hlast⟩, wordSize?_eq hw l,
    fun gs hgs => ofFields?_perm (hgs.trans hperm.symm)⟩

/-- Two fields with a gap between them, and one that begins at the last octet of the memory. -/
theorem accepted_iff_valid_gap :
    let fs : List Field := [⟨"b", 2, 2⟩, ⟨"a", 0, 1⟩]
    let far : List Field := [⟨"a", 0, 1⟩, ⟨"b", 2 ^ 64 - 1, 8⟩]
    16 ≤ 64 ∧
    (Valid fs ∧ ∃ l, ofFields? fs = .ok l ∧ l.size = 4 ∧ wordSize? 64 l.fields = some 4 ∧
      ofFields? fs.reverse = .ok l) ∧
    ¬ Valid far ∧ wordFault? 64 (sorted far) = some (some (.pastEnd ⟨"b", 2 ^ 64 - 1, 8⟩)) := by
  intro fs far
  have hw : 16 ≤ 64 := by decide
  obtain ⟨hiff, -, hok⟩ := accepted_iff_valid hw fs
  obtain ⟨hiff', hword, -⟩ := accepted_iff_valid hw far
  have hl : ofFields? fs = .ok ⟨[⟨"a", 0, 1⟩, ⟨"b", 2, 2⟩], by decide⟩ := by decide
  have hfar : fault? (sorted far) = some (.pastEnd ⟨"b", 2 ^ 64 - 1, 8⟩) := by decide
  obtain ⟨-, -, -, hsize, hperm⟩ := hok _ hl
  refine ⟨hw, ⟨hiff.1 ⟨_, hl⟩, _, hl, by decide, hsize, hperm _ fs.reverse_perm⟩, ?_, hfar ▸ hword⟩
  rw [← fault?_sorted_eq_none_iff, hfar]
  nofun

end Layout

end ScriptedAgent
