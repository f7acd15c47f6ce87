import ScriptedAgent.Proofs.Wire.Reader
import ScriptedAgent.Wire.Message

/-!
# Messages on the wire

A message with encodable identifiers is read back from its encoding, and every message that is read
has encodable identifiers and an encoding no longer than the datagram. So a message survives being
written however its datagram wrote it.
-/

namespace ScriptedAgent

open Ber Stateful

/-! ## Values -/

theorem Ipv4.of_ofOctets? {bytes : List UInt8} {a : Ipv4} (h : ofOctets? bytes = some a) :
    bytes = a.octets := by
  unfold ofOctets? at h
  split at h <;> cases h
  rfl

namespace WireValue

def tag : WireValue → UInt8
  | null => Tag.null
  | integer _ => Tag.integer
  | octets _ => Tag.octetString
  | oid _ => Tag.oid
  | ipaddress _ => Tag.ipAddress
  | counter _ => Tag.counter
  | gauge _ => Tag.gauge
  | timeticks _ => Tag.timeticks
  | noSuchObject => Tag.noSuchObject
  | noSuchInstance => Tag.noSuchInstance
  | endOfMibView => Tag.endOfMibView

def contents : WireValue → List UInt8
  | integer n => encodeInteger n
  | octets bytes => bytes
  | oid arcs => encodeOid arcs
  | ipaddress a => a.octets
  | counter n | gauge n | timeticks n => encodeInteger (Int64.ofNat n.toNat)
  | null | noSuchObject | noSuchInstance | endOfMibView => []

theorem encode_eq (v : WireValue) : v.encode = tlv v.tag v.contents := by
  cases v <;> rfl

/-- An identifier can be written; any other value always can. -/
def Encodable : WireValue → Prop
  | oid arcs => arcs.Encodable
  | _ => True

instance : DecidablePred Encodable
  | oid arcs => inferInstanceAs (Decidable arcs.Encodable)
  | null | integer _ | octets _ | ipaddress _ | counter _ | gauge _ | timeticks _ | noSuchObject
  | noSuchInstance | endOfMibView => inferInstanceAs (Decidable True)

theorem decodeUnsigned_map (f : UInt32 → WireValue) (n : UInt32) :
    (decodeUnsigned (encodeInteger (Int64.ofNat n.toNat))).map f = .ok (f n) := by
  rw [decodeUnsigned_encodeInteger]
  rfl

theorem decode_contents {v : WireValue} (h : v.Encodable) : decode v.tag v.contents = .ok v := by
  cases v with
  | null | octets bytes | ipaddress a | noSuchObject | noSuchInstance | endOfMibView => rfl
  | integer n =>
    show (decodeInteger (encodeInteger n)).map integer = _
    rw [decodeInteger_encodeInteger]
    rfl
  | oid arcs =>
    show (decodeOid (encodeOid arcs)).map oid = _
    rw [decodeOid_encodeOid h]
    rfl
  | counter n => exact decodeUnsigned_map counter n
  | gauge n => exact decodeUnsigned_map gauge n
  | timeticks n => exact decodeUnsigned_map timeticks n

theorem of_map {α β : Type} {f : α → β} {r : Except DecodeError α} {b : β}
    (h : r.map f = .ok b) : ∃ a, r = .ok a ∧ f a = b := by
  cases r with
  | error e => cases h
  | ok a =>
    cases h
    exact ⟨a, rfl, rfl⟩

/-- One of two alternatives has been taken. -/
theorem of_ite {α : Type} {c : Prop} [Decidable c] {x y z : α} (h : (if c then x else y) = z) :
    x = z ∨ y = z := by
  split at h
  · exact .inl h
  · exact .inr h

variable {bytes : List UInt8} {v : WireValue}

theorem of_decodeUnsigned {f : UInt32 → WireValue} (h : (decodeUnsigned bytes).map f = .ok v)
    (hf : ∀ n, (f n).Encodable ∧ (f n).contents = encodeInteger (Int64.ofNat n.toNat)) :
    v.Encodable ∧ v.contents.length ≤ bytes.length := by
  obtain ⟨n, hn, rfl⟩ := of_map h
  obtain ⟨he, hc⟩ := hf n
  exact ⟨he, hc ▸ length_encodeInteger_le (decodeUnsigned_eq_ok_iff.1 hn)⟩

theorem of_decode {t : UInt8} (h : decode t bytes = .ok v) :
    v.Encodable ∧ v.contents.length ≤ bytes.length := by
  unfold decode at h
  rcases of_ite h with h | h
  · cases h
    exact ⟨trivial, Nat.zero_le _⟩
  rcases of_ite h with h | h
  · obtain ⟨n, hn, rfl⟩ := of_map h
    exact ⟨trivial, length_encodeInteger_le hn⟩
  rcases of_ite h with h | h
  · cases h
    exact ⟨trivial, Nat.le_refl _⟩
  rcases of_ite h with h | h
  · obtain ⟨arcs, ha, rfl⟩ := of_map h
    exact of_decodeOid ha
  rcases of_ite h with h | h
  · split at h
    · rename_i a ha
      cases h
      exact ⟨trivial, Nat.le_of_eq (congrArg List.length (Ipv4.of_ofOctets? ha)).symm⟩
    · cases h
  rcases of_ite h with h | h
  · exact of_decodeUnsigned h fun _ => ⟨trivial, rfl⟩
  rcases of_ite h with h | h
  · exact of_decodeUnsigned h fun _ => ⟨trivial, rfl⟩
  rcases of_ite h with h | h
  · exact of_decodeUnsigned h fun _ => ⟨trivial, rfl⟩
  rcases of_ite h with h | h
  · cases h
    exact ⟨trivial, Nat.zero_le _⟩
  rcases of_ite h with h | h
  · cases h
    exact ⟨trivial, Nat.zero_le _⟩
  rcases of_ite h with h | h
  · cases h
    exact ⟨trivial, Nat.zero_le _⟩
  · cases h

end WireValue

/-! ## Bindings -/

namespace Binding

def Encodable (b : Binding) : Prop := b.oid.Encodable ∧ b.value.Encodable

instance : DecidablePred Encodable := fun _ => inferInstanceAs (Decidable (_ ∧ _))

theorem read_reads {b : Binding} (h : b.Encodable) (hlen : b.encode.length < 0x100000000) :
    Reads Binding.read b.encode b := by
  have hbody := Nat.lt_trans (length_lt_tlv _ _) hlen
  rw [List.length_append, WireValue.encode_eq] at hbody
  have hvalue := length_lt_tlv b.value.tag b.value.contents
  refine (expect_reads Tag.sequence ?_).map
    (.within (Reads.fst ((oid_reads h.1 (by omega)).bind ?_)))
  · rw [List.length_append, WireValue.encode_eq]
    exact hbody
  · rw [WireValue.encode_eq]
    exact (tlv_reads _ (by omega)).map
      ((Reads.ofExcept (WireValue.decode_contents h.2)).map (.pure _))

theorem read_takes : Takes Binding.read fun b k => b.Encodable ∧ b.encode.length ≤ k := by
  refine .bind (expect_takes Tag.sequence) fun contents k hc => ?_
  refine (Takes.within (Q := fun b j =>
    b.Encodable ∧ (Ber.oid b.oid ++ b.value.encode).length ≤ j) ?_).mono fun b j hb => ?_
  · refine .bind oid_takes fun arcs i ha => .bind tlv_takes fun ⟨tag, bytes⟩ j ht => ?_
    refine .bind (Q := fun v _ => v.Encodable ∧ v.contents.length ≤ bytes.length)
      (.ofExcept fun v hv => WireValue.of_decode hv) fun v l hv => .pure ⟨⟨ha.1, hv.1⟩, ?_⟩
    have hlen := Nat.le_trans (length_tlv_mono v.tag tag hv.2 ht.1) ht.2
    show (Ber.oid arcs ++ v.encode).length ≤ _
    rw [List.length_append, WireValue.encode_eq]
    omega
  · obtain ⟨rfl, i, hi, he, hlen⟩ := hb
    exact ⟨he, Nat.le_trans (length_tlv_mono _ _ (Nat.le_trans hlen hi) hc.1) hc.2⟩

theorem length_le_flatMap : ∀ bs : List Binding, bs.length ≤ (bs.flatMap encode).length
  | [] => Nat.le_refl 0
  | b :: bs => by
    have hb := length_lt_tlv Tag.sequence (Ber.oid b.oid ++ b.value.encode)
    have hbs := length_le_flatMap bs
    rw [List.flatMap_cons, List.length_append, List.length_cons, encode]
    omega

theorem length_encode_le {b : Binding} {bs : List Binding} (h : b ∈ bs) :
    b.encode.length ≤ (bs.flatMap encode).length :=
  (List.sublist_flatten_of_mem (List.mem_map_of_mem h)).length_le

theorem readAll_flatMap : ∀ {n : Nat} {bs : List Binding}, bs.length ≤ n →
    (∀ b ∈ bs, b.Encodable ∧ b.encode.length < 0x100000000) →
      readAll n (bs.flatMap encode) = (.ok bs, [])
  | 0, [], _, _ => rfl
  | n + 1, [], _, _ => rfl
  | n + 1, b :: bs, hn, h => by
    obtain ⟨⟨he, hlen⟩, hbs⟩ := List.forall_mem_cons.1 h
    have hne : (b.encode ++ bs.flatMap encode).isEmpty = false := rfl
    have hn : bs.length ≤ n := Nat.le_of_succ_le_succ hn
    rw [readAll, bind_apply, get_apply, List.flatMap_cons]
    simp only [hne, Bool.false_eq_true, if_false]
    rw [bind_apply, read_reads he hlen]
    simp only
    rw [bind_apply, readAll_flatMap hn hbs]
    rfl

theorem readAll_takes (n : Nat) : Takes (readAll n) fun bs k =>
    (∀ b ∈ bs, b.Encodable) ∧ (bs.flatMap encode).length ≤ k := by
  induction n with
  | zero => exact .pure (by simp)
  | succ n ih =>
    refine .bind (Q := fun _ k => k = 0) (fun s a s' h => ?_) fun s k hk => ?_
    · cases h
      exact ⟨0, (Nat.zero_add _).symm, rfl⟩
    · split
      · exact .pure (by simp)
      · refine .bind read_takes fun b i hb => .bind ih fun bs j hbs => .pure ?_
        rw [List.flatMap_cons, List.length_append]
        exact ⟨List.forall_mem_cons.2 ⟨hb.1, hbs.1⟩, by omega⟩

end Binding

/-! ## Messages -/

theorem Version.ofNumber_number (v : Version) : ofNumber v.number = .ok v := by
  cases v <;> rfl

theorem PduKind.ofTag_tag (k : PduKind) : ofTag k.tag = .ok k := by
  cases k <;> rfl

theorem Version.of_ofNumber {n : Number} {v : Version} (h : ofNumber n = .ok v) :
    n = v.number := by
  unfold ofNumber at h
  split at h
  · cases h
    assumption
  · split at h
    · cases h
      assumption
    · cases h

namespace Message

/-- Every identifier in the message can be written. -/
def Encodable (m : Message) : Prop := ∀ b ∈ m.bindings, b.Encodable

instance : DecidablePred Encodable := fun m =>
  inferInstanceAs (Decidable (∀ b ∈ m.bindings, b.Encodable))

/-- The contents of a message's PDU. -/
def pdu (m : Message) : List UInt8 :=
  Ber.integer Tag.integer m.requestId ++ Ber.integer Tag.integer m.errorStatus ++
    Ber.integer Tag.integer m.errorIndex ++ tlv Tag.sequence (m.bindings.flatMap Binding.encode)

/-- The contents of a message. -/
def body (m : Message) : List UInt8 :=
  Ber.integer Tag.integer m.version.number ++ tlv Tag.octetString m.community ++
    tlv m.kind.tag m.pdu

theorem encode_eq (m : Message) : m.encode = tlv Tag.sequence m.body := rfl

theorem pdu_reads {m : Message} (h : m.Encodable) (hlen : m.pdu.length < 0x100000000) :
    Reads (do
      let requestId ← Reader.integer
      let errorStatus ← Reader.integer
      let errorIndex ← Reader.integer
      let list ← Reader.expect Tag.sequence
      let bindings ← Reader.within list (Binding.readAll list.length)
      return { m with requestId, errorStatus, errorIndex, bindings }) m.pdu m := by
  have hlist := length_lt_tlv Tag.sequence (m.bindings.flatMap Binding.encode)
  have hbs : ∀ b ∈ m.bindings, b.Encodable ∧ b.encode.length < 0x100000000 := fun b hb => by
    have hb' := Binding.length_encode_le hb
    rw [pdu, List.length_append] at hlen
    exact ⟨h b hb, by omega⟩
  have hall := Binding.readAll_flatMap (Binding.length_le_flatMap m.bindings) hbs
  rw [pdu, List.append_assoc, List.append_assoc]
  refine (integer_reads _).bind ((integer_reads _).bind ((integer_reads _).bind ?_))
  refine (expect_reads _ ?_).map ((Reads.within (congrArg Prod.fst hall)).map (.pure _))
  rw [pdu, List.length_append] at hlen
  omega

theorem read_reads {m : Message} (h : m.Encodable) (hlen : m.body.length < 0x100000000) :
    Reads Message.read m.body m := by
  have hpdu := length_lt_tlv m.kind.tag m.pdu
  have hcommunity := length_lt_tlv Tag.octetString m.community
  rw [body, List.length_append, List.length_append] at hlen
  rw [body, List.append_assoc]
  refine (integer_reads _).bind (.ofExcept_bind m.version.ofNumber_number ?_)
  refine (expect_reads _ (by omega)).bind ((tlv_reads _ (by omega)).map ?_)
  refine .ofExcept_bind m.kind.ofTag_tag (.within (pdu_reads h (by omega)).fst)

theorem read_takes : Takes Message.read fun m k => m.Encodable ∧ m.body.length ≤ k := by
  refine .bind integer_takes fun n i hn => .bind (Q := fun v k => n = v.number ∧ k = 0)
    (.ofExcept fun v hv => ⟨Version.of_ofNumber hv, rfl⟩) fun v i₀ hv => ?_
  refine .bind (expect_takes Tag.octetString) fun community j hcommunity => ?_
  refine .bind tlv_takes fun ⟨tag, contents⟩ l ht => .bind (Q := fun _ k => k = 0)
    (.ofExcept fun _ _ => rfl) fun kind l₀ hkind => ?_
  refine (Takes.within (Q := fun m k => m.Encodable ∧ m.version = v ∧ m.community = community ∧
    m.pdu.length ≤ k) ?_).mono fun m k hm => ?_
  · refine .bind integer_takes fun requestId a ha => .bind integer_takes fun errorStatus b hb => ?_
    refine .bind integer_takes fun errorIndex c hc => .bind (expect_takes _) fun list d hd => ?_
    refine .bind (.within (Binding.readAll_takes _)) fun bindings e he => .pure ?_
    obtain ⟨rfl, f, hf, hbs, hlen⟩ := he
    refine ⟨hbs, rfl, rfl, ?_⟩
    have hlist := Nat.le_trans (length_tlv_mono Tag.sequence Tag.sequence
      (Nat.le_trans hlen hf) hd.1) hd.2
    simp only [pdu, List.length_append]
    omega
  · obtain ⟨rfl, f, hf, he, rfl, rfl, hlen⟩ := hm
    have hpdu := Nat.le_trans (length_tlv_mono m.kind.tag tag (Nat.le_trans hlen hf) ht.1) ht.2
    refine ⟨he, ?_⟩
    rw [body, List.length_append, List.length_append, ← hv.1]
    omega

/-! ## Round trips -/

theorem decode_encode_of_encodable {m : Message} (h : m.Encodable)
    (hlen : m.encode.length < 0x100000000) : decode m.encode = .ok m := by
  have hbody := Nat.lt_trans (length_lt_tlv Tag.sequence m.body) hlen
  rw [encode_eq, decode, (expect_reads Tag.sequence hbody).apply]
  exact (read_reads h hbody).fst

theorem of_decode {datagram : List UInt8} {m : Message} (h : decode datagram = .ok m) :
    m.Encodable ∧ m.encode.length ≤ datagram.length := by
  unfold decode at h
  split at h
  · cases h
  · rename_i body hd
    obtain ⟨k, hk, hbody, hlen⟩ := expect_takes Tag.sequence datagram body [] hd
    obtain ⟨j, hj, he, hm⟩ := read_takes body m (Message.read body).2 (Prod.ext h rfl)
    have hle : m.body.length ≤ body.length := by omega
    have htlv := length_tlv_mono Tag.sequence Tag.sequence hle hbody
    rw [List.length_nil, Nat.add_zero] at hk
    exact ⟨he, by rw [encode_eq]; omega⟩
  · cases h

/-- A message with encodable identifiers is what its encoding is read as. A message that has been
read, from whatever datagram, has encodable identifiers, and reading its own encoding gives it
again. -/
theorem decode_encode :
    (∀ m : Message, m.Encodable → m.encode.length < 0x100000000 → decode m.encode = .ok m) ∧
      ∀ (datagram : List UInt8) (m : Message), datagram.length < 0x100000000 →
        decode datagram = .ok m → m.Encodable ∧ decode m.encode = .ok m := by
  refine ⟨fun m h hlen => decode_encode_of_encodable h hlen, fun datagram m hlen h => ?_⟩
  obtain ⟨he, hle⟩ := of_decode h
  exact ⟨he, decode_encode_of_encodable he (Nat.lt_of_le_of_lt hle hlen)⟩

/-- A response with values on both sides of a sign boundary. -/
def sample : Message where
  version := .v2c
  community := [0x70, 0x75, 0x62]
  kind := .response
  requestId := -129
  errorStatus := 0
  errorIndex := 128
  bindings := [⟨[1, 3, 6, 1], .counter 0xffffffff⟩, ⟨[2, 4294967215], .oid [0, 39, 16384]⟩]

/-- The same with its length in one octet more than the shortest form has. -/
def longSample : List UInt8 :=
  Tag.sequence :: 0x81 :: UInt8.ofNat sample.body.length :: sample.body

theorem decode_encode_sample :
    (sample.Encodable ∧ sample.encode.length < 0x100000000 ∧ decode sample.encode = .ok sample) ∧
      longSample ≠ sample.encode ∧ longSample.length < 0x100000000 ∧
        decode longSample = .ok sample ∧ sample.Encodable ∧ decode sample.encode = .ok sample := by
  have he : sample.Encodable := by decide
  have hlen : sample.encode.length < 0x100000000 := by decide +kernel
  have hlong : longSample.length < 0x100000000 := by decide +kernel
  have hd : decode longSample = .ok sample := by decide +kernel
  exact ⟨⟨he, hlen, decode_encode.1 sample he hlen⟩, by decide +kernel, hlong, hd,
    decode_encode.2 longSample sample hlong hd⟩

end Message

end ScriptedAgent
