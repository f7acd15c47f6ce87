import ScriptedAgent.Proofs.Block

/-!
# Packing and unpacking a block

The fields of a layout share no octet, so the writes of a packing do not disturb one another: every
field ends with the value it is given, or with the zero of the fresh block (`value_of_writeFields`),
and the octets outside all fields stay as they were. Reading the fields one by one finds all their
values (`get?_of_unpack`). Hence the two are inverse but for the octets that no field covers
(`Layout.pack_inverse`).
-/

namespace ScriptedAgent.Layout

open ScriptedAgent.Field

variable {l : Layout} {f : Field} {fs : List Field} {values found : NameMap Nat}
  {block block' : List UInt8} {name : String} {i : Nat}

/-! ## Names -/

theorem name_of_field? (h : l.field? name = some f) : f.name = name := by
  simpa using List.find?_some h

theorem find?_name (hnames : (fs.map Field.name).Nodup) (hf : f ∈ fs) :
    fs.find? (·.name == f.name) = some f := by
  induction fs with
  | nil => cases hf
  | cons g gs ih =>
    obtain ⟨hg, hgs⟩ := List.nodup_cons.1 hnames
    rw [List.find?_cons]
    rcases List.mem_cons.1 hf with rfl | hf
    · rw [beq_self_eq_true]
    · have hne : g.name ≠ f.name := fun heq => hg (heq ▸ List.mem_map_of_mem hf)
      rw [beq_false_of_ne hne]
      exact ih hgs hf

theorem field?_name (hf : f ∈ l.fields) : l.field? f.name = some f :=
  find?_name l.valid.names hf

/-! ## Packing -/

/-- The first field of a packing gets its value, if it has one, and the others follow. -/
theorem of_writeFields_cons (h : writeFields values (f :: fs) block = .ok block') :
    ∃ block₁, writeFields values fs block₁ = .ok block' ∧ block₁.length = block.length ∧
      f.value block₁ = (values.get? f.name).getD (f.value block) ∧
      ∀ i, ¬ f.Covers i → block₁[i]? = block[i]? := by
  rw [writeFields] at h
  split at h
  · rename_i hv
    exact ⟨block, h, rfl, by rw [hv, Option.getD_none], fun _ _ => rfl⟩
  · rename_i v hv
    cases hw : f.write block v with
    | error e =>
      rw [hw] at h
      cases h
    | ok block₁ =>
      rw [hw] at h
      exact ⟨block₁, h, length_of_write hw, by rw [hv, value_of_write hw, Option.getD_some],
        fun i hi => getElem?_of_write hw hi⟩

theorem length_of_writeFields : ∀ {fs : List Field} {block : List UInt8},
    writeFields values fs block = .ok block' → block'.length = block.length
  | [], _, h => by
    cases h
    rfl
  | _ :: _, _, h => by
    obtain ⟨block₁, hrest, hlen, -⟩ := of_writeFields_cons h
    exact (length_of_writeFields hrest).trans hlen

theorem getElem?_of_writeFields : ∀ {fs : List Field} {block : List UInt8},
    writeFields values fs block = .ok block' → (∀ f ∈ fs, ¬ f.Covers i) → block'[i]? = block[i]?
  | [], _, h, _ => by
    cases h
    rfl
  | _ :: _, _, h, hi => by
    obtain ⟨hf, hfs⟩ := List.forall_mem_cons.1 hi
    obtain ⟨block₁, hrest, -, -, hother⟩ := of_writeFields_cons h
    exact (getElem?_of_writeFields hrest hfs).trans (hother i hf)

/-- A field apart from those that are written keeps its value. -/
theorem value_of_writeFields_apart (h : writeFields values fs block = .ok block')
    (ha : ∀ g ∈ fs, f.Apart g) : f.value block' = f.value block :=
  value_congr fun i hi => getElem?_of_writeFields h fun g hg => ha g hg i hi

theorem value_of_writeFields : ∀ {fs : List Field} {block : List UInt8},
    fs.Pairwise Apart → writeFields values fs block = .ok block' →
      ∀ f ∈ fs, f.value block' = (values.get? f.name).getD (f.value block)
  | g :: gs, block, hapart, h, f, hf => by
    obtain ⟨hg, hgs⟩ := List.pairwise_cons.1 hapart
    obtain ⟨block₁, hrest, -, hvalue, hother⟩ := of_writeFields_cons h
    rcases List.mem_cons.1 hf with rfl | hf
    · rw [value_of_writeFields_apart hrest hg, hvalue]
    · have hkept : f.value block₁ = f.value block :=
        value_congr fun i hi => hother i fun hi' => hg f hf i hi' hi
      rw [value_of_writeFields hgs hrest f hf, hkept]

theorem exists_writeFields_iff : ∀ {fs : List Field} {block : List UInt8},
    (∀ f ∈ fs, f.stop ≤ block.length) →
      ((∃ block', writeFields values fs block = .ok block') ↔
        ∀ f ∈ fs, ∀ v, values.get? f.name = some v → v < 256 ^ f.size)
  | [], block, _ => by simp [writeFields]
  | f :: fs, block, hstop => by
    obtain ⟨hf, hfs⟩ := List.forall_mem_cons.1 hstop
    rw [List.forall_mem_cons, writeFields]
    cases hv : values.get? f.name with
    | none => simp [exists_writeFields_iff hfs]
    | some v =>
      simp only [Option.some.injEq, forall_eq']
      by_cases hlt : v < 256 ^ f.size
      · obtain ⟨block₁, hw⟩ := exists_write hlt hf
        have ih : (∃ block', writeFields values fs block₁ = .ok block') ↔ _ :=
          exists_writeFields_iff (length_of_write hw ▸ hfs)
        rw [hw]
        simp only [hlt, true_and]
        exact ih
      · rw [write_of_le (Nat.not_lt.1 hlt)]
        simp only [hlt, false_and, iff_false]
        rintro ⟨_, h⟩
        cases h

/-! ## Unpacking -/

theorem readFields_eq : ∀ {fs : List Field} {found : NameMap Nat},
    (∀ f ∈ fs, f.stop ≤ block.length) → readFields block fs found =
      .ok (fs.foldl (fun found f => found.insert f.name (f.value block)) found)
  | [], _, _ => rfl
  | f :: fs, found, h => by
    obtain ⟨hf, hfs⟩ := List.forall_mem_cons.1 h
    rw [readFields, read_eq hf]
    exact readFields_eq hfs

/-- No name is used twice, so what has been found under one is not replaced. -/
theorem get?_foldl_insert (name : String) : ∀ {fs : List Field} {found : NameMap Nat},
    (fs.map Field.name).Nodup →
      (fs.foldl (fun found f => found.insert f.name (f.value block)) found).get? name =
        ((fs.find? (·.name == name)).map (·.value block)).or (found.get? name)
  | [], _, _ => rfl
  | f :: fs, found, h => by
    obtain ⟨hf, hfs⟩ := List.nodup_cons.1 h
    rw [List.foldl_cons, get?_foldl_insert name hfs, NameMap.get?_insert, List.find?_cons]
    by_cases hname : name = f.name
    · subst hname
      have hnone : fs.find? (·.name == f.name) = none := by
        refine List.find?_eq_none.2 fun g hg heq => hf ?_
        exact beq_iff_eq.1 heq ▸ List.mem_map_of_mem hg
      rw [hnone, beq_self_eq_true, if_pos rfl]
      rfl
    · rw [beq_false_of_ne (Ne.symm hname), if_neg hname]

theorem exists_unpack (h : block.length = l.size) : ∃ found, l.unpack block = .ok found ∧
    ∀ name, found.get? name = (l.field? name).map (·.value block) := by
  rw [unpack, if_pos h, readFields_eq fun f hf => h ▸ stop_le_size hf]
  refine ⟨_, rfl, fun name => ?_⟩
  rw [get?_foldl_insert name l.valid.names, NameMap.get?_empty, Option.or_none]
  rfl

/-! ## Both ways -/

/-- The block with zeros in the octets outside all fields. -/
def cleared (l : Layout) (block : List UInt8) : List UInt8 :=
  block.mapIdx fun i b => if ∃ f ∈ l.fields, f.Covers i then b else 0

theorem getElem?_cleared_of_covers (hf : f ∈ l.fields) (hi : f.Covers i) :
    (l.cleared block)[i]? = block[i]? := by
  have hcover : ∃ f ∈ l.fields, f.Covers i := ⟨f, hf, hi⟩
  simp [cleared, hcover]

theorem getElem?_cleared_of_not_covers (hlt : i < block.length)
    (hi : ∀ f ∈ l.fields, ¬ f.Covers i) : (l.cleared block)[i]? = some 0 := by
  have hcover : ¬ ∃ f ∈ l.fields, f.Covers i := fun ⟨f, hf, hfi⟩ => hi f hf hfi
  simp [cleared, hcover, List.getElem?_eq_getElem hlt]

theorem exists_pack_iff : (∃ block, l.pack values = .ok block) ↔
    ∀ f ∈ l.fields, ∀ v, values.get? f.name = some v → v < 256 ^ f.size :=
  exists_writeFields_iff fun _ hf =>
    Nat.le_trans (stop_le_size hf) (Nat.le_of_eq List.length_replicate.symm)

theorem length_of_pack (h : l.pack values = .ok block) : block.length = l.size :=
  (length_of_writeFields h).trans List.length_replicate

theorem value_of_pack (h : l.pack values = .ok block) (hf : f ∈ l.fields) :
    f.value block = (values.get? f.name).getD 0 := by
  have hapart : l.fields.Pairwise Apart := l.valid.apart
  rw [value_of_writeFields hapart h f hf, value_zeros]

theorem getElem?_of_pack (h : l.pack values = .ok block) (hlt : i < l.size)
    (hi : ∀ f ∈ l.fields, ¬ f.Covers i) : block[i]? = some 0 := by
  rw [getElem?_of_writeFields h hi, List.getElem?_replicate, if_pos hlt]

/-- What is read from a block packs to that block, cleared outside the fields. -/
theorem pack_of_unpack (h : block.length = l.size)
    (hfound : ∀ name, found.get? name = (l.field? name).map (·.value block)) :
    l.pack found = .ok (l.cleared block) := by
  have hget : ∀ f ∈ l.fields, found.get? f.name = some (f.value block) := fun f hf => by
    rw [hfound, field?_name hf, Option.map_some]
  obtain ⟨block', hpack⟩ := exists_pack_iff.2 fun f hf v hv => by
    rw [hget f hf] at hv
    cases hv
    exact f.value_lt block
  have hlen := length_of_pack hpack
  rw [hpack]
  -- where a field covers the octet, the values agree, and elsewhere it is zero in both
  refine congrArg _ (List.ext_getElem? fun i => ?_)
  by_cases hcover : ∃ f ∈ l.fields, f.Covers i
  · obtain ⟨f, hf, hi⟩ := hcover
    have hvalue : f.value block' = f.value block := by
      rw [value_of_pack hpack hf, hget f hf, Option.getD_some]
    rw [getElem?_cleared_of_covers hf hi]
    exact getElem?_of_value_eq (hlen.trans h.symm) hvalue hi
  · have hi : ∀ f ∈ l.fields, ¬ f.Covers i := fun f hf hfi => hcover ⟨f, hf, hfi⟩
    by_cases hlt : i < l.size
    · rw [getElem?_of_pack hpack hlt hi, getElem?_cleared_of_not_covers (h ▸ hlt) hi]
    · have hcleared : (l.cleared block).length = l.size := by
        rw [cleared, List.length_mapIdx, h]
      rw [List.getElem?_eq_none (hlen ▸ Nat.not_lt.1 hlt),
        List.getElem?_eq_none (hcleared ▸ Nat.not_lt.1 hlt)]

/-- Values pack exactly if each fits its field. Unpacking then gives every field of the layout its
value, or zero if it was given none, and nothing else; the octets outside all fields are zero.
Unpacking takes the blocks of the layout's size and no others, and packing what it finds gives the
block back, but for the octets outside all fields, which are cleared. -/
theorem pack_inverse (l : Layout) (values : NameMap Nat) (block : List UInt8) :
    ((∃ b, l.pack values = .ok b) ↔
      ∀ f ∈ l.fields, ∀ v, values.get? f.name = some v → v < 256 ^ f.size) ∧
    (∀ b, l.pack values = .ok b → b.length = l.size ∧
      (∃ found, l.unpack b = .ok found ∧
        ∀ name, found.get? name = (l.field? name).map fun _ => (values.get? name).getD 0) ∧
      ∀ i < l.size, (∀ f ∈ l.fields, ¬ f.Covers i) → b[i]? = some 0) ∧
    (block.length = l.size →
      ∃ found, l.unpack block = .ok found ∧ l.pack found = .ok (l.cleared block)) ∧
    (block.length ≠ l.size → l.unpack block = .error (.wrongSize l.size block.length)) := by
  refine ⟨exists_pack_iff, fun b h => ⟨length_of_pack h, ?_, fun i => getElem?_of_pack h⟩,
    fun hlen => ?_, fun hlen => if_neg hlen⟩
  · obtain ⟨found, hunpack, hfound⟩ := exists_unpack (length_of_pack h)
    refine ⟨found, hunpack, fun name => ?_⟩
    rw [hfound]
    refine Option.map_congr fun f hf => ?_
    rw [value_of_pack h (mem_of_field? hf), name_of_field? hf]
  · obtain ⟨found, hunpack, hfound⟩ := exists_unpack hlen
    exact ⟨found, hunpack, pack_of_unpack hlen hfound⟩

/-- Octet 3 is in no field, and `count` is given no value. -/
example :
    let l : Layout := ⟨[⟨"flags", 0, 1⟩, ⟨"count", 1, 2⟩, ⟨"id", 4, 4⟩], by decide⟩
    l.pack (.ofList [("id", 0xdeadbeef), ("flags", 0x81)]) =
        .ok [0x81, 0, 0, 0, 0xef, 0xbe, 0xad, 0xde] ∧
      l.cleared [1, 2, 3, 4, 5, 6, 7, 8] = [1, 2, 3, 0, 5, 6, 7, 8] := by
  decide

end ScriptedAgent.Layout
