import ScriptedAgent.Proofs.Block
import ScriptedAgent.Proofs.Store.Reachable

/-!
# Fields as registers

The fields of a composite variable are numbers that do not depend on one another, though the
variable holds them in one block. Each operation that succeeds gives a field the number it brings
for it, or leaves the field's number (`readField_of_perform`). So after any operations a field has
what the last of them brought for it, a write of the field or a whole block
(`readField_performAll`, `Store.registers_of_reachable`).
-/

namespace ScriptedAgent

/-- The number in the field of a block. -/
def Value.field? (f : Field) : Value → Option Nat
  | block b => some (f.value b)
  | _ => none

namespace Store

/-- What a script and a manager do to composite variables. -/
inductive Operation where
  | readField (name : String) (f : Field)
  | writeField (name : String) (f : Field) (v : Nat)
  | write (name : String) (v : Value)
  | set (oid : String) (v : Value)

/-- The store after the operation. A read leaves it as it is. -/
def perform (s : Store) : Operation → Except StoreError Store
  | .readField name f => (s.readField name f).map fun _ => s
  | .writeField name f v => s.writeField name f v
  | .write name v => s.write name v
  | .set oid v => s.set oid v

/-- The store after operations of which some may fail. -/
def performAll (s : Store) (ops : List Operation) : Store :=
  ops.foldl (fun s op => s.after (s.perform op)) s

/-- The operations that succeed, in their order. -/
def succeeding (s : Store) : List Operation → List Operation
  | [] => []
  | op :: ops => match s.perform op with
    | .ok s' => op :: s'.succeeding ops
    | .error _ => s.succeeding ops

namespace Operation

/-- An operation on a field of the variable is on one of its layout. -/
def Within (name : String) (l : Layout) : Operation → Prop
  | readField x f => x = name → f ∈ l.fields
  | writeField x f _ => x = name → f ∈ l.fields
  | _ => True

/-- The number that the operation brings for a field of a variable: the one it writes to the field,
or the one in the block it gives the variable. -/
def brings? (T : TypeTable) (name : String) (f : Field) : Operation → Option Nat
  | readField _ _ => none
  | writeField x g v => if x = name ∧ g = f then some v else none
  | write x v => if x = name then v.field? f else none
  | set oid v => if T.nameForOid? oid = some name then v.field? f else none

end Operation

variable {T : TypeTable} {s s' : Store} {name x : String} {t : VarType} {l : Layout} {f g : Field}
  {b : List UInt8} {n v : Nat} {op : Operation}

/-! ## One operation -/

theorem Reachable.after_perform (h : Reachable T s) :
    ∀ op : Operation, Reachable T (s.after (s.perform op))
  | .readField x g => by
    rw [perform]
    cases s.readField x g <;> exact h
  | .writeField x g v => h.next (.writeField x g v)
  | .write x w => h.next (.write x w)
  | .set oid w => h.next (.set oid w)

theorem Reachable.exists_block (h : Reachable T s) (ht : T.get? name = some t)
    (hk : t.kind = .bytes) (hl : t.layout = some l) :
    ∃ b, s.read? name = some (.block b) ∧ b.length = l.size := by
  obtain ⟨w, hw, hadmits⟩ := h.sound.exists_read? (h.types_eq ▸ ht)
  obtain ⟨b, rfl, hlen⟩ := VarType.exists_block hk hl hadmits
  exact ⟨b, hw, hlen⟩

theorem readField_eq (hr : s.read? name = some (.block b)) (hlen : b.length = l.size)
    (hf : f ∈ l.fields) : s.readField name f = .ok (f.value b) := by
  rw [readField, block_of_read? hr]
  simp only [Field.read_eq (hlen ▸ Layout.stop_le_size hf)]

theorem readField_put_of_ne (hne : name ≠ x) (w : Value) :
    (s.put x w).readField name f = s.readField name f := by
  rw [readField, readField, block, block, read?_put, if_neg hne]

/-- A whole value that is stored brings a number for every field of its variable, and leaves other
variables alone. -/
theorem readField_put (ht : T.get? name = some t) (hk : t.kind = .bytes) (hl : t.layout = some l)
    (hf : f ∈ l.fields) (hn : s.readField name f = .ok n) {u : VarType} {w : Value}
    (hu : T.get? x = some u) (hw : u.Admits w) :
    (s.put x w).readField name f = .ok ((if x = name then w.field? f else none).getD n) := by
  by_cases hx : x = name
  · subst hx
    obtain rfl : t = u := Option.some.inj (ht.symm.trans hu)
    obtain ⟨b, rfl, hlen⟩ := VarType.exists_block hk hl hw
    have hr : (s.put x (.block b)).read? x = some (.block b) := by rw [read?_put, if_pos rfl]
    rw [readField_eq hr hlen hf, if_pos rfl]
    rfl
  · rw [readField_put_of_ne (Ne.symm hx), hn, if_neg hx, Option.getD_none]

theorem writeField_of_lt (hr : s.read? name = some (.block b)) (hlen : b.length = l.size)
    (hf : f ∈ l.fields) (hv : v < 256 ^ f.size) : ∃ s', s.writeField name f v = .ok s' := by
  obtain ⟨b', hw⟩ := Field.exists_write hv (hlen ▸ Layout.stop_le_size hf)
  refine ⟨s.put name (.block b'), ?_⟩
  rw [writeField, block_of_read? hr]
  simp only [hw]

theorem writeField_of_le (hr : s.read? name = some (.block b)) (hv : 256 ^ f.size ≤ v) :
    s.writeField name f v = .error (.typeMismatch name (.fieldWidth f.name f.size v)) := by
  rw [writeField, block_of_read? hr]
  simp only [Field.write_of_le hv]

/-- A field that is written has the new number, and any other of the layout its old one. -/
theorem readField_of_writeField (hr : s.read? name = some (.block b)) (hlen : b.length = l.size)
    (hf : f ∈ l.fields) (hg : g ∈ l.fields) (h : s.writeField name g v = .ok s') :
    s'.readField name f = .ok (if g = f then v else f.value b) := by
  obtain ⟨b₀, b', hb, hw, rfl⟩ := of_writeField h
  obtain rfl : b = b₀ := by simpa [hr] using hb
  have hr' : (s.put name (.block b')).read? name = some (.block b') := by
    rw [read?_put, if_pos rfl]
  rw [readField_eq hr' ((Field.length_of_write hw).trans hlen) hf]
  split
  · rename_i heq
    rw [← heq, Field.value_of_write hw]
  · rename_i hne
    rw [Field.value_of_write_apart hw (Layout.apart_of_ne hg hf hne)]

/-- An operation that succeeds leaves in a field what it brings for it, or what was there. -/
theorem readField_of_perform (h : Reachable T s) (ht : T.get? name = some t) (hk : t.kind = .bytes)
    (hl : t.layout = some l) (hf : f ∈ l.fields) (hop : op.Within name l)
    (hn : s.readField name f = .ok n) (hs : s.perform op = .ok s') :
    s'.readField name f = .ok ((op.brings? T name f).getD n) := by
  have hT := h.types_eq
  cases op with
  | readField x g =>
    rw [perform] at hs
    cases hr : s.readField x g with
    | error e =>
      rw [hr] at hs
      cases hs
    | ok m =>
      rw [hr] at hs
      cases hs
      exact hn
  | writeField x g v =>
    rw [Operation.brings?]
    by_cases hx : x = name
    · subst hx
      obtain ⟨b, hr, hlen⟩ := h.exists_block ht hk hl
      obtain rfl : n = f.value b := by simpa [hn] using readField_eq hr hlen hf
      rw [readField_of_writeField hr hlen hf (hop rfl) hs]
      by_cases hg : g = f <;> simp [hg]
    · obtain ⟨_, b', -, -, rfl⟩ := of_writeField hs
      rw [readField_put_of_ne (Ne.symm hx), hn, if_neg fun h => hx h.1, Option.getD_none]
  | write x w =>
    obtain ⟨u, hu, hw, rfl⟩ := of_write hs
    exact readField_put ht hk hl hf hn (hT ▸ hu) hw
  | set oid w =>
    obtain ⟨x, u, hoid, hu, hw, rfl⟩ := of_set hs
    rw [readField_put ht hk hl hf hn (hT ▸ hu) hw, Operation.brings?, ← hT, hoid]
    simp only [Option.some.injEq]

/-! ## Many operations -/

theorem performAll_cons (s : Store) (op : Operation) (ops : List Operation) :
    s.performAll (op :: ops) = (s.after (s.perform op)).performAll ops := rfl

theorem performAll_append (s : Store) (ops ops' : List Operation) :
    s.performAll (ops ++ ops') = (s.performAll ops).performAll ops' :=
  List.foldl_append

theorem Reachable.performAll (h : Reachable T s) (ops : List Operation) :
    Reachable T (s.performAll ops) := by
  induction ops generalizing s with
  | nil => exact h
  | cons op ops ih => exact ih (h.after_perform op)

/-- The last of the operations that brings a number for a field decides what is in it. -/
theorem readField_performAll (ht : T.get? name = some t) (hk : t.kind = .bytes)
    (hl : t.layout = some l) (hf : f ∈ l.fields) {ops : List Operation} (h : Reachable T s)
    (hops : ∀ op ∈ ops, op.Within name l) (hn : s.readField name f = .ok n) :
    (s.performAll ops).readField name f =
      .ok (((s.succeeding ops).reverse.findSome? (·.brings? T name f)).getD n) := by
  induction ops generalizing s n with
  | nil => exact hn
  | cons op ops ih =>
    obtain ⟨hop, hops⟩ := List.forall_mem_cons.1 hops
    rw [performAll_cons, succeeding]
    cases hs : s.perform op with
    | error e => exact ih h hops hn
    | ok s' =>
      have hnext : Reachable T s' := by simpa only [hs, after] using h.after_perform op
      -- what the later operations bring stands before it in the reversed list
      simp only [after, List.reverse_cons, List.findSome?_append]
      rw [ih hnext hops (readField_of_perform h ht hk hl hf hop hn hs)]
      cases (s'.succeeding ops).reverse.findSome? (·.brings? T name f) <;>
        cases h : op.brings? T name f <;> simp [h]

/-- Whatever has been done to the store of a parsed script, the fields of a composite variable are
independent registers. A field has the number that the last operation to succeed brought for it. A
write of a number that fits changes no other field; one that does not fit is refused and changes
nothing. -/
theorem registers_of_reachable {text base : String} {p : Script.Program}
    (hp : Script.Program.parse text base = .ok p) (h : Reachable p.types s)
    (ht : p.types.get? name = some t) (hl : t.layout = some l) {ops : List Operation}
    (hops : ∀ op ∈ ops, op.Within name l) :
    (∀ f ∈ l.fields, ∃ n, s.readField name f = .ok n ∧
      (s.performAll ops).readField name f =
        .ok (((s.succeeding ops).reverse.findSome? (·.brings? p.types name f)).getD n)) ∧
    ∀ f ∈ l.fields, ∀ v,
      (v < 256 ^ f.size → ∃ s', (s.performAll ops).writeField name f v = .ok s' ∧
        s'.readField name f = .ok v ∧ ∀ g ∈ l.fields, g ≠ f →
          s'.readField name g = (s.performAll ops).readField name g) ∧
      (256 ^ f.size ≤ v → (s.performAll ops).writeField name f v =
          .error (.typeMismatch name (.fieldWidth f.name f.size v)) ∧
        s.performAll (ops ++ [.writeField name f v]) = s.performAll ops) := by
  have hk : t.kind = .bytes :=
    ((Script.Program.parse_wellKinded hp).layouts name t ht).2 (by rw [hl, Option.isSome_some])
  refine ⟨fun f hf => ?_, fun f hf v => ?_⟩
  · obtain ⟨b, hr, hlen⟩ := h.exists_block ht hk hl
    have hn := readField_eq hr hlen hf
    exact ⟨_, hn, readField_performAll ht hk hl hf h hops hn⟩
  · obtain ⟨b, hr, hlen⟩ := (h.performAll ops).exists_block ht hk hl
    refine ⟨fun hv => ?_, fun hv => ?_⟩
    · obtain ⟨s', hs'⟩ := writeField_of_lt hr hlen hf hv
      refine ⟨s', hs', ?_, fun g hg hne => ?_⟩
      · rw [readField_of_writeField hr hlen hf hf hs', if_pos rfl]
      · rw [readField_of_writeField hr hlen hg hf hs', if_neg (Ne.symm hne),
          readField_eq hr hlen hg]
    · have herr := writeField_of_le (f := f) hr hv
      refine ⟨herr, ?_⟩
      rw [performAll_append, performAll_cons, perform, herr]
      rfl

/-- Two fields with a gap between them, and a field written, refused and replaced with the block. -/
theorem registers_interleaved :
    let text := "var\n d: 1 bytes \x7b a: 0 1, b: 2 2 \x7d readwrite\nendvar\nrun\nendrun\n"
    let a : Field := ⟨"a", 0, 1⟩
    let b : Field := ⟨"b", 2, 2⟩
    let ops : List Operation := [.writeField "d" b 7, .writeField "d" a 300,
      .set ".1.3.6.1.2.1.1" (.block [1, 2, 3, 4]), .writeField "d" a 9, .readField "d" a,
      .set ".1.3.6.1.2.1.1" (.block [5])]
    ∃ p t l, Script.Program.parse text Oid.mib2 = .ok p ∧ p.types.get? "d" = some t ∧
      t.layout = some l ∧ Reachable p.types (load p.types) ∧ (∀ op ∈ ops, op.Within "d" l) ∧
      ((load p.types).performAll ops).readField "d" a = .ok 9 ∧
      ((load p.types).performAll ops).readField "d" b = .ok (3 + 256 * 4) := by
  intro text a b ops
  let l : Layout := ⟨[a, b], by decide⟩
  let t : VarType := ⟨.bytes, some ".1.3.6.1.2.1.1", some l, .readwrite⟩
  let last (T : TypeTable) (f : Field) : Option Nat :=
    ((load T).succeeding ops).reverse.findSome? (·.brings? T "d" f)
  obtain ⟨p, hp, hx⟩ := Script.Program.exists_parse text Oid.mib2
    (fun p => p.types.get? "d" = some t ∧ last p.types a = some 9 ∧ last p.types b = some 1027)
    (by decide +kernel)
  obtain ⟨ht, ha, hb⟩ := of_decide_eq_true hx
  have hops : ∀ op ∈ ops, op.Within "d" l := by
    simp [ops, l, Operation.Within]
  obtain ⟨hread, -⟩ := registers_of_reachable hp .loaded ht rfl hops
  obtain ⟨m, -, hm⟩ := hread a (by decide)
  obtain ⟨n, -, hn⟩ := hread b (by decide)
  refine ⟨p, t, l, hp, ht, rfl, .loaded, hops, ?_, ?_⟩
  · rw [hm, show ((load p.types).succeeding ops).reverse.findSome? _ = some 9 from ha]
    rfl
  · rw [hn, show ((load p.types).succeeding ops).reverse.findSome? _ = some 1027 from hb]
    rfl

end Store

end ScriptedAgent
