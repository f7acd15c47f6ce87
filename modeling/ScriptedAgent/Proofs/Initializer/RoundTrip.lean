import ScriptedAgent.Initializer.Printer
import ScriptedAgent.Proofs.Bitset
import ScriptedAgent.Proofs.Layout.Pack
import ScriptedAgent.Proofs.Scalar
import ScriptedAgent.Proofs.Script.RoundTrip
import ScriptedAgent.Proofs.Store.Positions

/-!
# Every value has an initializer

The argument that is written for a value is split into the name and the text of the value again
(`parse_argument`), and the variable gets this value from its text (`readValue_valueChars`). The
names of variables and fields are those of a script, so that no separator is in them.
-/

namespace ScriptedAgent

open Text

/-! ## Numbers -/

namespace Number

open Script Script.Lexer

theorem text_of_neg {n : Number} (h : n.toInt < 0) :
    ∃ k : Nat, n.toInt = -k ∧ (text n).toList = '-' :: Decimal.digits k := by
  obtain ⟨k, hk⟩ := Int.eq_negSucc_of_lt_zero h
  refine ⟨k + 1, hk, ?_⟩
  rw [text, hk]
  show ("-" ++ toString (k + 1)).toList = _
  simp [Decimal.digits, Nat.toList_repr]

theorem ofText?_text (n : Number) : ofText? (text n).toList = some n := by
  by_cases h : 0 ≤ n.toInt
  · obtain ⟨k, hk, htext⟩ := text_of_nonneg h
    rw [htext, ofText?_digits hk]
  · obtain ⟨k, hk, htext⟩ := text_of_neg (Int.not_le.1 h)
    have hsigned : Decimal.signed? ('-' :: Decimal.digits k) = some (-k : Int) := by
      rw [Decimal.signed?, Decimal.nat?_digits]
      rfl
    rw [htext, ofText?, hsigned, Option.bind_some, ofInt?_eq_some_iff, hk]

theorem of_mem_text {n : Number} {c : Char} (h : c ∈ (text n).toList) : c = '-' ∨ c.isDigit := by
  by_cases hn : 0 ≤ n.toInt
  · obtain ⟨k, -, htext⟩ := text_of_nonneg hn
    exact .inr (Decimal.isDigit_of_mem_digits (htext ▸ h))
  · obtain ⟨k, -, htext⟩ := text_of_neg (Int.not_le.1 hn)
    rw [htext, List.mem_cons] at h
    exact h.imp_right Decimal.isDigit_of_mem_digits

end Number

/-! ## Names -/

namespace Script

variable {cs : List Char} {c : Char}

theorem IsIdentifier.isAliasName (h : IsIdentifier cs) : IsAliasName cs := by
  obtain ⟨c, first, words, rfl, hc, hfirst, hwords⟩ := h
  refine ⟨nofun, fun d hd => ?_⟩
  rw [hyphenated, List.mem_append, List.mem_cons, List.mem_flatMap] at hd
  rcases hd with (rfl | hd) | ⟨w, hw, hd⟩
  · exact hc.imp (fun h => by simp [Char.isAlphanum, h]) .inl
  · exact (hfirst d hd).imp_right .inl
  · cases w with
    | nil => exact (hwords _ hw).elim
    | cons e ds =>
      obtain ⟨he, hds⟩ := hwords _ hw
      rw [List.mem_cons, List.mem_cons] at hd
      rcases hd with rfl | rfl | hd
      · exact .inr (.inr rfl)
      · exact .inl (by simp [Char.isAlphanum, he])
      · exact (hds d hd).imp_right .inl

theorem IsAliasName.notMem (h : IsAliasName cs) (hc : Lexer.inAlias c [] = false) : c ∉ cs :=
  fun hmem => by
    simp only [Lexer.inAlias, Lexer.isWordChar, Bool.or_eq_false_iff, decide_eq_false_iff_not] at hc
    rcases h.2 c hmem with h | h | h
    · rw [hc.1.1] at h
      cases h
    · exact hc.1.2 h
    · exact hc.2 h

theorem IsAliasName.notBlank (h : IsAliasName cs) (hc : c ∈ cs) : isBlank c = false := by
  rcases h.2 c hc with h | rfl | rfl
  · rw [Char.isAlphanum, Bool.or_eq_true] at h
    exact h.elim isBlank_of_isAlpha isBlank_of_isDigit
  · rfl
  · rfl

end Script

namespace Initializer

variable {T : TypeTable} {t : VarType} {v : Value} {l : Layout} {f : Field} {name : String}

/-! ## Items -/

/-- A text that stands between commas as it is. -/
structure IsItem (cs : List Char) : Prop where
  ne_nil : cs ≠ []
  notBlank : ∀ c ∈ cs, isBlank c = false
  notComma : ',' ∉ cs

theorem items_joined {fs : List (List Char)} (h : ∀ f ∈ fs, IsItem f) :
    items (joined ',' fs) = fs := by
  by_cases hnil : fs = []
  · subst hnil
    rfl
  · have hmap : fs.map trimmed = fs :=
      (List.map_congr_left fun f hf => trimmed_of_forall (h f hf).notBlank).trans (List.map_id fs)
    rw [items, fields_joined hnil fun f hf => (h f hf).notComma, hmap, List.filter_eq_self]
    exact fun f hf => by simpa using (h f hf).ne_nil

theorem isItem_digits (n : Nat) : IsItem (Decimal.digits n) where
  ne_nil := Nat.toDigits_ne_nil
  notBlank _ hc := isBlank_of_isDigit (Decimal.isDigit_of_mem_digits hc)
  notComma := Decimal.notMem_digits rfl n

theorem isItem_pairChars (hf : Script.IsAliasName f.name.toList) (b : List UInt8) :
    IsItem (pairChars b f) where
  ne_nil := by simp [pairChars]
  notBlank c hc := by
    rw [pairChars, List.mem_append, List.mem_cons] at hc
    rcases hc with hc | rfl | hc
    · exact hf.notBlank hc
    · rfl
    · exact isBlank_of_isDigit (Decimal.isDigit_of_mem_digits hc)
  notComma h := by
    rw [pairChars, List.mem_append, List.mem_cons] at h
    rcases h with h | h | h
    · exact hf.notMem rfl h
    · cases h
    · exact Decimal.notMem_digits rfl _ h

/-! ## Reading values -/

theorem readInt_text (T : TypeTable) (n : Number) : readInt T (Number.text n).toList = .ok n := by
  have hmark : '\'' ∉ (Number.text n).toList := fun h => by
    rcases Number.of_mem_text h with h | h <;> cases h
  rw [readInt, unwrapped_of_notMem hmark, Number.ofText?_text]

theorem readInt_digits (T : TypeTable) {n : Number} {k : Nat} (hk : n.toInt = k) :
    readInt T (Decimal.digits k) = .ok n := by
  rw [readInt, unwrapped_of_notMem (Decimal.notMem_digits rfl k), Script.Lexer.ofText?_digits hk]

theorem readPositions_digits (T : TypeTable) : ∀ {ps : List Nat} {s : Bitset},
    (∀ p ∈ ps, p ≤ Bitset.maxPosition) →
      readPositions T (ps.map Decimal.digits) s = .ok (ps.foldl Bitset.insert s)
  | [], _, _ => rfl
  | p :: ps, s, h => by
    obtain ⟨hp, hps⟩ := List.forall_mem_cons.1 h
    have hn : (Int64.ofNat p : Number).toInt = p := Int64.toInt_ofNat_of_lt (by
      simp only [Bitset.maxPosition, Octets.maxSize] at hp
      omega)
    have hposition : Bitset.position? (p : Int) = some p := if_pos (by omega)
    rw [List.map_cons, List.foldl_cons, ← readPositions_digits T hps]
    simp only [readPositions, readInt_digits T hn, bind, Except.bind, hn, hposition]

theorem readUnsigned?_digits {n : Nat} (h : n < 0x10000000000000000) :
    readUnsigned? (Decimal.digits n) = some n := by
  rw [readUnsigned?, trimmed_of_forall (isItem_digits n).notBlank, Decimal.unsigned?_digits,
    Option.bind_some, if_pos h]

/-- Reading the pairs of a block writes the fields that they name. -/
theorem readFields_pairs {b : List UInt8} {found : NameMap Nat} :
    ∀ {fs : List Field} {block block' : List UInt8},
      (∀ f ∈ fs, Script.IsAliasName f.name.toList ∧ l.field? f.name = some f ∧
        f.value b < 0x10000000000000000 ∧ found.get? f.name = some (f.value b)) →
      Layout.writeFields found fs block = .ok block' →
        readFields l (fs.map (pairChars b)) block = .ok block'
  | [], _, _, _, h => by
    cases h
    rfl
  | f :: fs, block, block', hfs, h => by
    obtain ⟨⟨hname, hf, hlt, hvalue⟩, hrest⟩ := List.forall_mem_cons.1 hfs
    have hcut : cut ':' (pairChars b f) = some (f.name.toList, Decimal.digits (f.value b)) :=
      cut_append _ (hname.notMem rfl)
    have htrim : String.ofList (trimmed f.name.toList) = f.name := by
      rw [trimmed_of_forall fun c => hname.notBlank, String.ofList_toList]
    rw [Layout.writeFields, hvalue] at h
    rw [List.map_cons, readFields, hcut]
    simp only [htrim, hf, readUnsigned?_digits hlt]
    cases hw : f.write block (f.value b) with
    | error e =>
      simp only [hw] at h
      cases h
    | ok block₁ =>
      simp only [hw] at h
      exact readFields_pairs hrest h

/-! ## Round trips -/

/-- The values that an initializer can give a variable of type `t`: those it may hold, an identifier
in the text of its arcs, a set of positions that a script may name, and a block with zeros outside
its fields. -/
structure Writable (t : VarType) (v : Value) : Prop where
  legal : t.check v = .ok ()
  canonical : v.Canonical
  positions : ∀ s : Bitset, v = .bits s → ∀ p ∈ s, p ≤ Bitset.maxPosition
  cleared : ∀ b l, v = .block b → t.layout = some l → l.cleared b = b

theorem readScalar_valueChars (hv : Writable t v) (hk : t.kind ≠ .bytes) :
    ∃ s, v.toScalar t.kind = .ok s ∧
      readScalar T t.kind (String.ofList (valueChars t v)) = .ok s := by
  have ha := VarType.check_eq_ok_iff.1 hv.legal
  cases v with
  | integer n =>
    rcases ha with ⟨hk, -⟩ | ⟨hk, rfl | rfl⟩
    · have htext : valueChars t (.integer n) = (Number.text n).toList := by
        rw [valueChars, hk, if_neg (by decide)]
      refine ⟨.int n, by rw [hk, Value.toScalar], ?_⟩
      rw [hk, readScalar, String.toList_ofList, htext, readInt_text]
      rfl
    · exact ⟨.bool true, by rw [hk]; rfl, by rw [hk, valueChars, if_pos hk]; rfl⟩
    · exact ⟨.bool false, by rw [hk]; rfl, by rw [hk, valueChars, if_pos hk]; rfl⟩
  | string x =>
    have hk : t.kind = .string := ha
    refine ⟨.str x, by rw [hk, Value.toScalar], ?_⟩
    rw [hk, readScalar, String.toList_ofList, unquoted, valueChars, unwrapped_marks,
      Option.getD_some, String.ofList_toList]
  | counter u | gauge u | timeticks u =>
    have hk : t.kind = _ := ha
    refine ⟨.int (Int64.ofNat u.toNat), by rw [hk, Value.toScalar], ?_⟩
    rw [hk, readScalar, String.toList_ofList, valueChars, readInt_digits T (Number.toInt_ofNat u)]
    rfl
  | oid x => exact ⟨.str x, by rw [ha.1, Value.toScalar], by
      rw [ha.1, readScalar, valueChars, String.ofList_toList]⟩
  | ipaddress a =>
    have hk : t.kind = .ipaddress := ha
    exact ⟨.str a.text, by rw [hk, Value.toScalar], by
      rw [hk, readScalar, valueChars, String.ofList_toList]⟩
  | bits s =>
    have hk : t.kind = .bitset := ha
    have hitems : items (joined ',' (s.positions.map Decimal.digits)) =
        s.positions.map Decimal.digits :=
      items_joined (List.forall_mem_map.2 fun p _ => isItem_digits p)
    have hset : Bitset.ofList s.positions = s := Bitset.ext_mem fun p => Bitset.mem_ofList
    refine ⟨.bits s, by rw [hk, Value.toScalar], ?_⟩
    rw [hk, readScalar, String.toList_ofList, valueChars, hitems,
      readPositions_digits T (hv.positions s rfl)]
    exact congrArg (Except.ok ∘ Scalar.bits) hset
  | block b => exact absurd ha.1 hk

theorem readFields_valueChars {b : List UInt8} (hlen : b.length = l.size)
    (hcleared : l.cleared b = b) (hnames : ∀ f ∈ l.fields, Script.IsAliasName f.name.toList) :
    readFields l (items (joined ',' (l.fields.map (pairChars b)))) (List.replicate l.size 0) =
      .ok b := by
  obtain ⟨found, -, hfound⟩ := Layout.exists_unpack hlen
  have hpack : l.pack found = .ok b := hcleared ▸ Layout.pack_of_unpack hlen hfound
  rw [items_joined (List.forall_mem_map.2 fun f hf => isItem_pairChars (hnames f hf) b)]
  refine readFields_pairs (fun f hf => ⟨hnames f hf, Layout.field?_name hf, ?_, ?_⟩) hpack
  · have hsize : f.size ≤ 8 := (l.valid.proper f hf).2.1
    exact Nat.lt_of_lt_of_le (f.value_lt b) (Nat.pow_le_pow_right (by decide) hsize)
  · rw [hfound, Layout.field?_name hf, Option.map_some]

theorem readValue_valueChars (hv : Writable t v)
    (hlayout : t.kind = .bytes ↔ t.layout.isSome = true)
    (hnames : ∀ l, t.layout = some l → ∀ f ∈ l.fields, Script.IsAliasName f.name.toList) :
    readValue T t (String.ofList (valueChars t v)) = .ok v := by
  have ha := VarType.check_eq_ok_iff.1 hv.legal
  by_cases hk : t.kind = .bytes
  · obtain ⟨l, hl⟩ := Option.isSome_iff_exists.1 (hlayout.1 hk)
    obtain ⟨b, rfl, hlen⟩ := VarType.exists_block hk hl ha
    have hread := readFields_valueChars hlen (hv.cleared b l rfl hl) (hnames l hl)
    simp only [readValue, hk, hl, valueChars, String.toList_ofList, Option.map_some,
      Option.getD_some, hread]
    rfl
  · obtain ⟨s, hs, hread⟩ := readScalar_valueChars (T := T) hv hk
    have hstored : Value.ofScalar t.kind s = .ok v := Value.ofScalar_of_toScalar ha hv.canonical hs
    unfold readValue
    split
    · contradiction
    · simp only [hread, hstored]

/-! ## Arguments -/

theorem notBlank_joined {fs : List (List Char)} (h : ∀ f ∈ fs, IsItem f) :
    ∀ c ∈ joined ',' fs, isBlank c = false := fun c hc => by
  rcases mem_joined hc with rfl | ⟨f, hf, hc⟩
  · rfl
  · exact (h f hf).notBlank c hc

theorem notBlank_oid {x : String} (h : Oid.Canonical x) : ∀ c ∈ x.toList, isBlank c = false := by
  obtain ⟨arcs, -, rfl⟩ := h
  intro c hc
  rw [Oid.text, String.toList_ofList, Oid.chars, List.mem_flatMap] at hc
  obtain ⟨a, -, hc⟩ := hc
  rcases List.mem_cons.1 hc with rfl | hc
  · rfl
  · exact (isItem_digits _).notBlank c hc

/-- Blanks are at the ends of a value's text only inside the quotes of a string. -/
theorem trimmed_valueChars (hv : Writable t v)
    (hnames : ∀ l, t.layout = some l → ∀ f ∈ l.fields, Script.IsAliasName f.name.toList) :
    trimmed (valueChars t v) = valueChars t v := by
  cases v with
  | integer n =>
    rw [valueChars]
    split
    · split <;> rfl
    · refine trimmed_of_forall fun c hc => ?_
      rcases Number.of_mem_text hc with rfl | hc
      · rfl
      · exact isBlank_of_isDigit hc
  | string x => exact trimmed_marks rfl x.toList
  | counter u | gauge u | timeticks u => exact trimmed_of_forall (isItem_digits _).notBlank
  | oid x => exact trimmed_of_forall (notBlank_oid hv.canonical)
  | ipaddress a => exact a.trimmed_text
  | bits s =>
    exact trimmed_of_forall (notBlank_joined (List.forall_mem_map.2 fun p _ => isItem_digits p))
  | block b =>
    refine trimmed_of_forall (notBlank_joined (List.forall_mem_map.2 fun f hf => ?_))
    cases hl : t.layout with
    | none =>
      rw [hl] at hf
      cases hf
    | some l =>
      rw [hl] at hf
      exact isItem_pairChars (hnames l hl f hf) b

theorem parse_argument {i : Initializer} (hname : Script.IsAliasName i.name.toList)
    (htext : trimmed i.text.toList = i.text.toList) : parse i.argument = .ok i := by
  have hcut : cut '=' i.argument.toList = some (i.name.toList, i.text.toList) := by
    rw [argument, String.toList_append, String.toList_append, List.append_assoc]
    exact cut_append _ (hname.notMem rfl)
  have hnonempty : i.name.toList.isEmpty = false := by simpa using hname.1
  rw [parse, hcut]
  simp only [trimmed_of_forall fun c => hname.notBlank, htext, hnonempty, String.ofList_toList,
    Bool.false_eq_true, if_false]

/-- Every value that a declared variable can be given is given to it by the argument that is written
for the value. -/
theorem giving_inverse {text base : String} {p : Script.Program}
    (hp : Script.Program.parse text base = .ok p) (ht : p.types.get? name = some t)
    (hv : Writable t v) : parse (giving name t v).argument = .ok (giving name t v) ∧
      initialValue p.types (giving name t v) = .ok v := by
  obtain ⟨hname, hfields⟩ := Script.Program.types_written hp name t ht
  have hnames : ∀ l, t.layout = some l → ∀ f ∈ l.fields, Script.IsAliasName f.name.toList :=
    fun l hl f hf => (hfields l hl f hf).1.isAliasName
  constructor
  · refine parse_argument hname.1.isAliasName ?_
    rw [giving, String.toList_ofList, trimmed_valueChars hv hnames]
  · have hlayout := (Script.Program.parse_wellKinded hp).layouts name t ht
    simp only [initialValue, giving, ht, readValue_valueChars hv hlayout hnames]

/-- A string with blanks at its ends and marks in it, and a block with an octet in no field. -/
theorem giving_inverse_string_block :
    let text := "var\n s: string\n d: bytes \x7b a: 0 1, b-c: 2 2 \x7d\nendvar\nrun\nendrun\n"
    let x : String := " \"=,:' "
    let b : List UInt8 := [7, 0, 2, 1]
    ∃ p t u, Script.Program.parse text Oid.mib2 = .ok p ∧
      p.types.get? "s" = some t ∧ Writable t (.string x) ∧
      parse "s=\" \"=,:' \"" = .ok ⟨"s", "\" \"=,:' \""⟩ ∧
      initialValue p.types ⟨"s", "\" \"=,:' \""⟩ = .ok (.string x) ∧
      p.types.get? "d" = some u ∧ Writable u (.block b) ∧
      parse "d=a:7,b-c:258" = .ok ⟨"d", "a:7,b-c:258"⟩ ∧
      initialValue p.types ⟨"d", "a:7,b-c:258"⟩ = .ok (.block b) := by
  intro text x b
  let l : Layout := ⟨[⟨"a", 0, 1⟩, ⟨"b-c", 2, 2⟩], by decide⟩
  let t : VarType := .ofKind .string
  let u : VarType := ⟨.bytes, none, some l, .readonly⟩
  obtain ⟨p, hp, hx⟩ := Script.Program.exists_parse text Oid.mib2
    (fun p => p.types.get? "s" = some t ∧ p.types.get? "d" = some u) (by decide +kernel)
  obtain ⟨ht, hu⟩ := of_decide_eq_true hx
  have hstring : Writable t (.string x) := ⟨rfl, trivial, nofun, nofun⟩
  have hblock : Writable u (.block b) :=
    ⟨rfl, trivial, nofun, by rintro _ _ ⟨⟩ ⟨⟩; decide⟩
  have hs : giving "s" t (.string x) = ⟨"s", "\" \"=,:' \""⟩ := by decide +kernel
  have hd : giving "d" u (.block b) = ⟨"d", "a:7,b-c:258"⟩ := by decide +kernel
  obtain ⟨hparse, hvalue⟩ := giving_inverse hp ht hstring
  obtain ⟨hparse', hvalue'⟩ := giving_inverse hp hu hblock
  rw [hs] at hparse hvalue
  rw [hd] at hparse' hvalue'
  exact ⟨p, t, u, hp, ht, hstring, hparse, hvalue, hu, hblock, hparse', hvalue'⟩

end Initializer

end ScriptedAgent
