import Mcutt.Packets.Cursor
import Mcutt.Packets.Subscribe

/-!
# Decoding SUBSCRIBE and UNSUBSCRIBE

The decoders of `subscribe/mod.rs` and `unsubscribe/mod.rs` keep the filters as bytes, which a
cursor walks once to validate them and again for every call of `filters`.  SUBSCRIBE is read back
from what it is written as (`subscribe_roundtrip`); the decoder of UNSUBSCRIBE checks all that its
encoder does, so there the two are inverse to each other (`unsubscribe_roundtrip`).  The second
walk of either packet ends at the end of the filters and leaves no byte out (`filters_iterate`).
-/

namespace Mcutt

open RawCursor

/-! ## Items -/

/-- The validity check of a `RequestedQos` field. -/
def RequestedQos.tryFromByte (b : UInt8) : Option RequestedQos :=
  match b with
  | 0b0000_0000 => some atMostOnce
  | 0b0000_0001 => some atLeastOnce
  | 0b0000_0010 => some exactlyOnce
  | _ => none

theorem RequestedQos.tryFromByte_eq_some {b : UInt8} {q : RequestedQos} :
    tryFromByte b = some q ↔ q.toU8 = b := by
  have all : ∀ n : Fin 256, ∀ q : RequestedQos,
      tryFromByte (UInt8.ofNat n) = some q ↔ q.toU8 = UInt8.ofNat n := by
    intro n q
    revert n
    cases q <;> decide +kernel
  exact byte_forall (p := fun b => ∀ q, tryFromByte b = some q ↔ q.toU8 = b) all b q

structure TopicFilter where
  topic : MqttStr
  qos : RequestedQos
  deriving DecidableEq, Repr

section

variable [Target]

/-- Strings are the items of an UNSUBSCRIBE. -/
theorem MqttStr.itemCodec :
    ItemCodec MqttStr.parse (fun this => MqttStr.wire this.data) MqttStr.Parsed where
  parse_eq_ok := MqttStr.parse_eq_ok
  wire_ne_nil this := by simp [MqttStr.wire, Buff.wire, beBytes]
  noPanic := MqttStr.parse_noPanic

namespace TopicFilter

/-- `RequestedQos::try_ref_from_prefix`. -/
def qosFromPrefix (buf : List UInt8) : Exec (RequestedQos × List UInt8) :=
  match buf with
  | b :: rest => do
    let qos ← okOr (RequestedQos.tryFromByte b) .invalid "SUBSCRIBE topic filter QoS"
    .ok (qos, rest)
  | [] => fail .notEnoughSpace "SUBSCRIBE topic filter QoS"

/-- The wildcards of the topic are not checked. -/
def parse (buf : List UInt8) : Exec (TopicFilter × List UInt8) := do
  let (topic, buf) ← MqttStr.parse buf
  let (qos, bytes) ← qosFromPrefix buf
  .ok (⟨topic, qos⟩, bytes)

/-- `Parsed::validate`, which `parse` does not call. -/
def validate (self : TopicFilter) : Exec Unit := do
  self.topic.validate
  if !hasValidWildcard self.topic.data then fail .invalid "SUBSCRIBE topic filter" else .ok ()

/-- The filter as the builder has it. -/
def toFilter (self : TopicFilter) : SubscribeFilter := ⟨self.topic.data, self.qos⟩

omit [Target] in
theorem qosFromPrefix_eq_ok {buf rest : List UInt8} {qos : RequestedQos} :
    qosFromPrefix buf = .ok (qos, rest) ↔ buf = qos.toU8 :: rest := by
  cases buf with
  | nil => simp [qosFromPrefix]
  | cons b tail =>
    simp only [qosFromPrefix, bind_eq_ok, okOr_eq_ok, Except.ok.injEq, Prod.mk.injEq,
      List.cons.injEq]
    constructor
    · rintro ⟨q, hq, rfl, rfl⟩
      exact ⟨(RequestedQos.tryFromByte_eq_some.1 hq).symm, rfl⟩
    · rintro ⟨rfl, rfl⟩
      exact ⟨qos, RequestedQos.tryFromByte_eq_some.2 rfl, rfl, rfl⟩

omit [Target] in
theorem qosFromPrefix_noPanic (buf : List UInt8) : NoPanic (qosFromPrefix buf) := by
  cases buf with
  | nil => exact noPanic_fail _ _
  | cons b tail => exact (noPanic_okOr _ _ _).bind fun _ _ => noPanic_ok _

/-- A string and a requested QoS are the items of a SUBSCRIBE. -/
theorem itemCodec :
    ItemCodec parse (fun this => wire this.toFilter) fun this => this.topic.Parsed where
  parse_eq_ok {buf rest item} := by
    obtain ⟨topic, qos⟩ := item
    simp only [parse, bind_eq_ok, wire, toFilter, List.append_assoc, List.singleton_append]
    constructor
    · rintro ⟨⟨topic', buf'⟩, htopic, ⟨qos', rest'⟩, hqos, heq⟩
      simp only [Except.ok.injEq, Prod.mk.injEq, mk.injEq] at heq
      obtain ⟨⟨rfl, rfl⟩, rfl⟩ := heq
      obtain ⟨rfl, hparsed⟩ := MqttStr.parse_eq_ok.1 htopic
      have hbuf : buf' = qos'.toU8 :: rest' := qosFromPrefix_eq_ok.1 hqos
      rw [hbuf]
      exact ⟨rfl, hparsed⟩
    · rintro ⟨rfl, hparsed⟩
      exact ⟨_, MqttStr.parse_eq_ok.2 ⟨rfl, hparsed⟩, _, qosFromPrefix_eq_ok.2 rfl, rfl⟩
  wire_ne_nil this := by simp [wire]
  noPanic buf := by
    refine (MqttStr.parse_noPanic buf).bind ?_
    rintro ⟨topic, rest⟩ -
    exact (qosFromPrefix_noPanic rest).bind fun _ _ => noPanic_ok _

end TopicFilter

/-! ## Packets -/

end

/-- `Subscribe` and `Unsubscribe`: an identifier and the bytes of the filters. -/
structure FilterPacket where
  pkid : PacketId
  filters : List UInt8
  deriving DecidableEq, Repr

namespace FilterPacket

variable {α : Type}

/-- The cursor at the first filter. -/
def cursor (self : FilterPacket) : RawCursor := ⟨self.filters, 0⟩

section

variable [Target]

def validate (parseItem : List UInt8 → Exec (α × List UInt8)) (check : α → Exec Unit)
    (self : FilterPacket) : Exec Unit :=
  tryForEach parseItem check (self.filters.length + 1) self.cursor

/-- `filters()`, run to its end. -/
def iter (parseItem : List UInt8 → Exec (α × List UInt8)) (self : FilterPacket) :
    Exec (List α) := collect parseItem (self.filters.length + 1) self.cursor

def parse (t : ControlPacketType) (validate : FilterPacket → Exec Unit) (buf : List UInt8) :
    Exec (FilterPacket × List UInt8) := do
  let (fixed, rest) ← FixedHeaderSlice.parse buf
  fixed.assertPacketType t
  let remLen ← fixed.remainingLength.readLen
  let (packet, rest) ← okOr (splitAtChecked rest remLen) .notEnoughSpace "SUBSCRIBE packet"
  let (pkid, packet) ← PacketId.parse packet
  let this : FilterPacket := ⟨pkid, packet⟩
  validate this
  .ok (this, rest)

end

/-- The bytes after the fixed header. -/
def bodyWire (this : FilterPacket) : List UInt8 := PacketId.wire this.pkid.pkid ++ this.filters

theorem length_bodyWire (this : FilterPacket) :
    (bodyWire this).length = 2 + this.filters.length := by
  rw [bodyWire, List.length_append, PacketId.length_wire]

section

variable [Target] {parseItem : List UInt8 → Exec (α × List UInt8)} {wire : α → List UInt8}
  {Valid : α → Prop}

theorem parse_eq_ok {t : ControlPacketType} {validate : FilterPacket → Exec Unit}
    {buf rest : List UInt8} {this : FilterPacket} :
    parse t validate buf = .ok (this, rest) ↔ ∃ fixed t' f, FixedHeader.Valid fixed t' f ∧
      (Target.debugAssertions = true → t' = t) ∧
      buf = fixed.bytes ++ (bodyWire this ++ rest) ∧
      Varint.value fixed.remainingLength.len = (bodyWire this).length ∧ this.pkid.pkid ≠ 0 ∧
      validate this = .ok () := by
  constructor
  · intro h
    simp only [parse, bind_eq_ok, okOr_eq_ok] at h
    obtain ⟨⟨fixed, afterFixed⟩, hfixed, ⟨⟩, htype, remLen, hremLen, ⟨packet, rest'⟩, hsplit,
      ⟨pkid, filters⟩, hpkid, ⟨⟩, hval, heq⟩ := h
    obtain ⟨rfl, t', f, valid⟩ := FixedHeaderSlice.parse_eq_ok.1 hfixed
    obtain ⟨rfl, hlen⟩ := splitAtChecked_eq_some.1 hsplit
    obtain ⟨rfl, hne⟩ := PacketId.parse_eq_ok.1 hpkid
    simp only [Except.ok.injEq, Prod.mk.injEq] at heq
    obtain ⟨rfl, rfl⟩ := heq
    rw [valid.readLen_eq, Except.ok.injEq] at hremLen
    exact ⟨fixed, t', f, valid, valid.assertPacketType_eq_ok.1 htype, rfl,
      hremLen.trans hlen.symm, hne, hval⟩
  · rintro ⟨fixed, t', f, valid, htype, rfl, hlen, hne, hval⟩
    have hfixed : FixedHeaderSlice.parse (fixed.bytes ++ (bodyWire this ++ rest)) =
        .ok (fixed, bodyWire this ++ rest) := FixedHeaderSlice.parse_eq_ok.2 ⟨rfl, t', f, valid⟩
    have hsplit : splitAtChecked (bodyWire this ++ rest) (bodyWire this).length =
        some (bodyWire this, rest) := splitAtChecked_eq_some.2 ⟨rfl, rfl⟩
    have hpkid : PacketId.parse (bodyWire this) = .ok (this.pkid, this.filters) :=
      PacketId.parse_eq_ok.2 ⟨rfl, hne⟩
    simp only [parse, hfixed, ok_bind, valid.assertPacketType_eq_ok.2 htype, valid.readLen_eq, hlen,
      hsplit, okOr_some, hpkid, hval]

omit [Target] in
theorem cursor_inSlice {this : FilterPacket} (h : (bodyWire this).length ≤ 268435455) :
    this.cursor.InSlice := by
  rw [length_bodyWire] at h
  refine ⟨Nat.zero_le _, ?_⟩
  simp only [cursor]
  omega

/-- The bytes are valid filters that pass the check. -/
theorem validate_eq_ok (codec : ItemCodec parseItem wire Valid) {check : α → Exec Unit}
    {this : FilterPacket} (hle : (bodyWire this).length ≤ 268435455) :
    validate parseItem check this = .ok () ↔ ∃ items : List α,
      this.filters = items.flatMap wire ∧ ∀ item ∈ items, Valid item ∧ check item = .ok () :=
  tryForEach_eq_ok codec (cursor_inSlice hle) (Nat.lt_succ_self _)

/-- The filters are iterated in the order of their bytes. -/
theorem iter_eq_ok (codec : ItemCodec parseItem wire Valid) {this : FilterPacket}
    (hle : (bodyWire this).length ≤ 268435455) {items : List α}
    (h : this.filters = items.flatMap wire) (valid : ∀ item ∈ items, Valid item) :
    iter parseItem this = .ok items := by
  apply collect_eq_ok codec (cursor_inSlice hle) h valid
  have := length_le_flatMap codec.wire_ne_nil items
  rw [← h] at this
  omega

/-- Calling `next` yields the items, whose bytes are all the bytes of the filters, and then stays
at their end. -/
structure Iterates (parseItem : List UInt8 → Exec (α × List UInt8)) (wire : α → List UInt8)
    (self : FilterPacket) (items : List α) : Prop where
  filters_eq : self.filters = items.flatMap wire
  yields : ∀ n ≤ items.length, self.cursor.nexts parseItem n =
    .ok ((items.take n).map some, ⟨self.filters, ((items.take n).flatMap wire).length⟩)
  ends : ∀ n, items.length ≤ n → self.cursor.nexts parseItem n =
    .ok (items.map some ++ List.replicate (n - items.length) none,
      ⟨self.filters, self.filters.length⟩)

/-- A packet that was parsed holds what follows its identifier, and iterates over it. -/
theorem iterates_of_parse (codec : ItemCodec parseItem wire Valid) {check : α → Exec Unit}
    {t : ControlPacketType} {buf rest : List UInt8} {this : FilterPacket}
    (hparse : parse t (validate parseItem check) buf = .ok (this, rest)) :
    ∃ fixed items, FixedHeaderSlice.parse buf =
        .ok (fixed, PacketId.wire this.pkid.pkid ++ (this.filters ++ rest)) ∧
      fixed.remainingLength.readLen = .ok (2 + this.filters.length) ∧
      Iterates parseItem wire this items := by
  obtain ⟨fixed, t', f, valid, -, hbuf, hlen, -, hval⟩ := parse_eq_ok.1 hparse
  have hle := valid.value_le
  rw [hlen] at hle
  obtain ⟨items, hitems, hvalid⟩ := (validate_eq_ok codec hle).1 hval
  have hnexts := nexts_items codec (cursor_inSlice hle) hitems fun item h => (hvalid item h).1
  have hskip (k : ℕ) : this.cursor.skip k = ⟨this.filters, k⟩ := by simp [cursor, skip]
  refine ⟨fixed, items, ?_, ?_, hitems, fun n hn => ?_, fun n hn => ?_⟩
  · refine FixedHeaderSlice.parse_eq_ok.2 ⟨?_, t', f, valid⟩
    rw [hbuf, bodyWire, List.append_assoc]
  · rw [valid.readLen_eq, hlen, length_bodyWire]
  · rw [hnexts, hskip, Nat.sub_eq_zero_of_le hn, List.replicate_zero, List.append_nil]
  · rw [hnexts, hskip, List.take_of_length_le hn, ← hitems]

/-- A packet with a minimal remaining length is its header and body. -/
theorem parse_minimal {b : UInt8} {tail rest : List UInt8} {this : FilterPacket}
    {t t' : ControlPacketType} {validate : FilterPacket → Exec Unit}
    (htype : ControlPacketType.tryFrom (b >>> 4) = .ok t')
    (hparse : parse t validate (b :: tail) = .ok (this, rest)) (hmin : MinimalLength (b :: tail)) :
    ∃ f, validateTypeFlags t' f = .ok () ∧
      b :: tail = packetWire t' f (bodyWire this) ++ rest ∧
      (bodyWire this).length ≤ 268435455 ∧ this.pkid.pkid ≠ 0 ∧ validate this = .ok () := by
  obtain ⟨fixed, t'', f, valid, -, heq, hlen, hne, hval⟩ := parse_eq_ok.1 hparse
  rw [heq] at hmin
  obtain ⟨hb, -⟩ := List.cons.inj heq
  obtain ⟨-, hflags, -, hparsed⟩ := ControlPacketType.encode_of_parse valid.type
  obtain rfl : t' = t'' := by
    rw [← hb, htype] at hparsed
    exact Except.ok.inj hparsed
  have hheader := valid.headerWire_eq (hmin.minimal valid)
  have hle := valid.value_le
  rw [hlen] at hle hheader
  exact ⟨f, hflags, by rw [heq, packetWire, hheader, List.append_assoc], hle, hne, hval⟩

/-- What is written is parsed back. -/
theorem parse_packetWire {t : ControlPacketType} {f : TypeFlags}
    (hflags : validateTypeFlags t f = .ok ()) {validate : FilterPacket → Exec Unit}
    {this : FilterPacket} (hle : (bodyWire this).length ≤ 268435455) (hne : this.pkid.pkid ≠ 0)
    (hval : validate this = .ok ()) (rest : List UInt8) :
    parse t validate (packetWire t f (bodyWire this) ++ rest) = .ok (this, rest) := by
  obtain ⟨h, valid, hlen, hwire, -⟩ := FixedHeaderSlice.parse_packetWire hflags hle rest
  exact parse_eq_ok.2 ⟨h, t, f, valid, fun _ => rfl, by rw [hwire, List.append_assoc], hlen, hne,
    hval⟩

end

end FilterPacket

namespace Subscribe

variable [Target]

def validate (self : FilterPacket) : Exec Unit :=
  FilterPacket.validate TopicFilter.parse (fun _ => .ok ()) self

def filters (self : FilterPacket) : Exec (List TopicFilter) :=
  FilterPacket.iter TopicFilter.parse self

def parse (buf : List UInt8) : Exec (FilterPacket × List UInt8) :=
  FilterPacket.parse .subscribe validate buf

end Subscribe

namespace Unsubscribe

variable [Target]

def validate (self : FilterPacket) : Exec Unit :=
  FilterPacket.validate MqttStr.parse (fun topic =>
    if !hasValidWildcard topic.data then fail .invalid "UNSUBSCRIBE topic filter" else .ok ()) self

def filters (self : FilterPacket) : Exec (List MqttStr) := FilterPacket.iter MqttStr.parse self

def parse (buf : List UInt8) : Exec (FilterPacket × List UInt8) :=
  FilterPacket.parse .unsubscribe validate buf

end Unsubscribe

/-! ## There and back -/

/-- A filter as it is parsed. -/
def TopicFilter.ofFilter (value : SubscribeFilter) : TopicFilter :=
  ⟨MqttStr.ofString value.topic, value.qos⟩

section

variable [Target]

/-- SUBSCRIBE is read back from what it is written as. -/
theorem subscribe_roundtrip (value : SubscribeBuilder) (n : ℕ) (out rest : List UInt8)
    (hrun : (Subscribe.writeSync value).run ([] : List UInt8) = (.ok n, out)) :
    ∃ s filters, Subscribe.parse (out ++ rest) = .ok (s, rest) ∧
      s.pkid.read = .ok value.pkid ∧ Subscribe.filters s = .ok filters ∧
      filters.map TopicFilter.toFilter = value.filters := by
  obtain ⟨hresult, rfl⟩ := Enc.of_run_nil hrun
  obtain ⟨hvalid, hle, hout, -⟩ := Subscribe.writeSync_eq_ok hresult
  let s : FilterPacket := ⟨⟨value.pkid.val⟩, value.filters.flatMap TopicFilter.wire⟩
  have hle : (FilterPacket.bodyWire s).length ≤ 268435455 := hle
  have hitems : s.filters = (value.filters.map TopicFilter.ofFilter).flatMap
      fun this => TopicFilter.wire this.toFilter := by
    rw [List.flatMap_map]
    rfl
  have hparsed : ∀ item ∈ value.filters.map TopicFilter.ofFilter, item.topic.Parsed := by
    intro item hitem
    obtain ⟨f, hf, rfl⟩ := List.mem_map.1 hitem
    exact ⟨rfl, (hvalid f hf).2⟩
  have hval : Subscribe.validate s = .ok () :=
    (FilterPacket.validate_eq_ok TopicFilter.itemCodec hle).2
      ⟨_, hitems, fun item hitem => ⟨hparsed item hitem, rfl⟩⟩
  refine ⟨s, _, ?_, PacketId.read_eq value.pkid.ne_zero,
    FilterPacket.iter_eq_ok TopicFilter.itemCodec hle hitems hparsed, ?_⟩
  · rw [hout]
    exact FilterPacket.parse_packetWire rfl hle value.pkid.ne_zero hval rest
  · rw [List.map_map]
    exact List.map_id _

theorem Unsubscribe.validate_eq_ok {this : FilterPacket}
    (hle : (FilterPacket.bodyWire this).length ≤ 268435455) :
    Unsubscribe.validate this = .ok () ↔ ∃ topics : List MqttStr,
      this.filters = (topics.map MqttStr.data).flatMap MqttStr.wire ∧
      ∀ topic ∈ topics, topic.Parsed ∧ hasValidWildcard topic.data = true := by
  rw [Unsubscribe.validate, FilterPacket.validate_eq_ok MqttStr.itemCodec hle]
  refine exists_congr fun topics => and_congr (by rw [List.flatMap_map]) ?_
  refine forall₂_congr fun topic _ => and_congr_right' ?_
  cases hasValidWildcard topic.data <;> simp

/-- UNSUBSCRIBE is written if its filters are strings with valid wildcards. -/
theorem Unsubscribe.writeSync_writes {value : UnsubscribeBuilder}
    (hvalid : ∀ f ∈ value.filters, MqttStr.Valid f ∧ hasValidWildcard f = true)
    (hle : (Unsubscribe.body value).length ≤ 268435455) :
    (Unsubscribe.writeSync value).Writes
      (packetWire .unsubscribe TypeFlags.unsubscribe (Unsubscribe.body value)).length
      (packetWire .unsubscribe TypeFlags.unsubscribe (Unsubscribe.body value)) :=
  writePacket_writes rfl
    ((Unsubscribe.checks_writeBody value).writes fun f hf => (hvalid f hf).1)
    (Unsubscribe.validateValue_eq_ok.2 fun f hf => (hvalid f hf).2)
    ((Unsubscribe.measures_encodeLen value).eq_ok (by omega)) hle

/-- UNSUBSCRIBE is read back from what it is written as. -/
theorem unsubscribe_reads_back {value : UnsubscribeBuilder} {n : ℕ} {out : List UInt8}
    (rest : List UInt8)
    (hrun : (Unsubscribe.writeSync value).run ([] : List UInt8) = (.ok n, out)) :
    ∃ u topics, Unsubscribe.parse (out ++ rest) = .ok (u, rest) ∧
      u.pkid.read = .ok value.pkid ∧ Unsubscribe.filters u = .ok topics ∧
      topics.map MqttStr.data = value.filters := by
  obtain ⟨hresult, rfl⟩ := Enc.of_run_nil hrun
  obtain ⟨hwild, hvalid, hle, hout, -⟩ := Unsubscribe.writeSync_checked hresult
  let u : FilterPacket := ⟨⟨value.pkid.val⟩, value.filters.flatMap MqttStr.wire⟩
  have hle : (FilterPacket.bodyWire u).length ≤ 268435455 := hle
  have hdata : (value.filters.map MqttStr.ofString).map MqttStr.data = value.filters := by
    rw [List.map_map]
    exact List.map_id _
  have hitems : u.filters = (value.filters.map MqttStr.ofString).flatMap
      fun this => MqttStr.wire this.data := by
    rw [List.flatMap_map]
    rfl
  have hparsed : ∀ topic ∈ value.filters.map MqttStr.ofString,
      topic.Parsed ∧ hasValidWildcard topic.data = true := by
    intro topic htopic
    obtain ⟨f, hf, rfl⟩ := List.mem_map.1 htopic
    exact ⟨⟨rfl, hvalid f hf⟩, hwild f hf⟩
  have hval : Unsubscribe.validate u = .ok () :=
    (Unsubscribe.validate_eq_ok hle).2 ⟨_, by rw [hdata], hparsed⟩
  refine ⟨u, _, ?_, PacketId.read_eq value.pkid.ne_zero,
    FilterPacket.iter_eq_ok MqttStr.itemCodec hle hitems fun t ht => (hparsed t ht).1, hdata⟩
  rw [hout]
  exact FilterPacket.parse_packetWire rfl hle value.pkid.ne_zero hval rest

/-- UNSUBSCRIBE with a minimal remaining length is written back as it was read. -/
theorem unsubscribe_writes_back {b : UInt8} {tail rest : List UInt8} {u : FilterPacket}
    (htype : ControlPacketType.tryFrom (b >>> 4) = .ok .unsubscribe)
    (hparse : Unsubscribe.parse (b :: tail) = .ok (u, rest)) (hmin : MinimalLength (b :: tail)) :
    ∃ value topics n out, u.pkid.read = .ok value.pkid ∧
      Unsubscribe.filters u = .ok topics ∧ value.filters = topics.map MqttStr.data ∧
      (Unsubscribe.writeSync value).run ([] : List UInt8) = (.ok n, out) ∧
      b :: tail = out ++ rest := by
  obtain ⟨f, hflags, heq, hle, hne, hval⟩ := FilterPacket.parse_minimal htype hparse hmin
  obtain rfl : f = TypeFlags.unsubscribe := by
    by_contra hf
    simp [validateTypeFlags, hf] at hflags
  obtain ⟨topics, hfilters, hchecked⟩ := (Unsubscribe.validate_eq_ok hle).1 hval
  let value : UnsubscribeBuilder := ⟨⟨u.pkid.pkid, hne⟩, topics.map MqttStr.data⟩
  have hbody : Unsubscribe.body value = FilterPacket.bodyWire u := by
    rw [Unsubscribe.body, FilterPacket.bodyWire, hfilters]
  have hvalid : ∀ g ∈ value.filters, MqttStr.Valid g ∧ hasValidWildcard g = true := by
    intro g hg
    obtain ⟨topic, htopic, rfl⟩ := List.mem_map.1 hg
    exact ⟨(hchecked topic htopic).1.2, (hchecked topic htopic).2⟩
  have hwrites := Unsubscribe.writeSync_writes hvalid (hbody ▸ hle)
  refine ⟨value, topics, _, _, PacketId.read_eq hne, ?_, rfl, hwrites.run_nil, ?_⟩
  · refine FilterPacket.iter_eq_ok MqttStr.itemCodec hle ?_ fun t ht => (hchecked t ht).1
    rw [hfilters, List.flatMap_map]
  · rw [heq, hbody]

/-- UNSUBSCRIBE is read back from what it is written as, and written back as it was read if its
remaining length is minimal. -/
theorem unsubscribe_roundtrip :
    (∀ (value : UnsubscribeBuilder) (n : ℕ) (out rest : List UInt8),
      (Unsubscribe.writeSync value).run ([] : List UInt8) = (.ok n, out) →
      ∃ u topics, Unsubscribe.parse (out ++ rest) = .ok (u, rest) ∧
        u.pkid.read = .ok value.pkid ∧ Unsubscribe.filters u = .ok topics ∧
        topics.map MqttStr.data = value.filters) ∧
    (∀ (b : UInt8) (tail rest : List UInt8) (u : FilterPacket),
      ControlPacketType.tryFrom (b >>> 4) = .ok .unsubscribe →
      Unsubscribe.parse (b :: tail) = .ok (u, rest) → MinimalLength (b :: tail) →
      ∃ value topics n out, u.pkid.read = .ok value.pkid ∧
        Unsubscribe.filters u = .ok topics ∧ value.filters = topics.map MqttStr.data ∧
        (Unsubscribe.writeSync value).run ([] : List UInt8) = (.ok n, out) ∧
        b :: tail = out ++ rest) :=
  ⟨fun _ _ _ rest hrun => unsubscribe_reads_back rest hrun,
    fun _ _ _ _ htype hparse hmin => unsubscribe_writes_back htype hparse hmin⟩

/-- Iterating the filters of a decoded packet returns one filter after the other, without a panic,
until all the bytes behind the identifier are used up, and nothing after that. -/
theorem filters_iterate :
    (∀ (buf rest : List UInt8) (s : FilterPacket), Subscribe.parse buf = .ok (s, rest) →
      ∃ fixed items, FixedHeaderSlice.parse buf =
          .ok (fixed, PacketId.wire s.pkid.pkid ++ (s.filters ++ rest)) ∧
        fixed.remainingLength.readLen = .ok (2 + s.filters.length) ∧
        s.Iterates TopicFilter.parse
          (fun filter => MqttStr.wire filter.topic.data ++ [filter.qos.toU8]) items) ∧
    ∀ (buf rest : List UInt8) (u : FilterPacket), Unsubscribe.parse buf = .ok (u, rest) →
      ∃ fixed items, FixedHeaderSlice.parse buf =
          .ok (fixed, PacketId.wire u.pkid.pkid ++ (u.filters ++ rest)) ∧
        fixed.remainingLength.readLen = .ok (2 + u.filters.length) ∧
        u.Iterates MqttStr.parse (fun topic => MqttStr.wire topic.data) items :=
  ⟨fun _ _ _ hparse => FilterPacket.iterates_of_parse TopicFilter.itemCodec hparse,
    fun _ _ _ hparse => FilterPacket.iterates_of_parse MqttStr.itemCodec hparse⟩

end

theorem subscribe_roundtrip_two :
    letI := Target.debug
    ∃ s filters, Subscribe.parse ([0x82, 10, 0, 10, 0, 1, 97, 1, 0, 1, 35, 2] ++ [7]) =
        .ok (s, [7]) ∧ s.pkid.read = .ok ⟨10, by decide⟩ ∧ Subscribe.filters s = .ok filters ∧
      filters.map TopicFilter.toFilter = [⟨"a", .atLeastOnce⟩, ⟨"#", .exactlyOnce⟩] :=
  @subscribe_roundtrip Target.debug
    ⟨⟨10, by decide⟩, [⟨"a", .atLeastOnce⟩, ⟨"#", .exactlyOnce⟩]⟩ 12 _ [7] (by decide)

theorem unsubscribe_roundtrip_one :
    letI := Target.debug
    (∃ u topics, Unsubscribe.parse ([0xA2, 5, 0, 10, 0, 1, 97] ++ [7]) = .ok (u, [7]) ∧
      u.pkid.read = .ok ⟨10, by decide⟩ ∧ Unsubscribe.filters u = .ok topics ∧
      topics.map MqttStr.data = ["a"]) ∧
    ∃ value topics n out, PacketId.read ⟨10⟩ = .ok value.pkid ∧
      Unsubscribe.filters ⟨⟨10⟩, [0, 1, 97]⟩ = .ok topics ∧
      value.filters = topics.map MqttStr.data ∧
      (Unsubscribe.writeSync value).run ([] : List UInt8) = (.ok n, out) ∧
      [0xA2, 5, 0, 10, 0, 1, 97, 7] = out ++ [7] := by
  obtain ⟨read, written⟩ := @unsubscribe_roundtrip Target.debug
  exact ⟨read ⟨⟨10, by decide⟩, ["a"]⟩ 7 _ [7] (by decide), written 0xA2
    [5, 0, 10, 0, 1, 97, 7] [7] ⟨⟨10⟩, [0, 1, 97]⟩ (by decide) (by decide)
    ⟨[5], [0, 10, 0, 1, 97, 7], rfl, .last rfl, by decide⟩⟩

/-- The two filters of a SUBSCRIBE and the one of an UNSUBSCRIBE. -/
theorem filters_iterate_three :
    letI := Target.debug
    (∃ items, FilterPacket.Iterates TopicFilter.parse
      (fun filter => MqttStr.wire filter.topic.data ++ [filter.qos.toU8])
      ⟨⟨10⟩, [0, 1, 97, 1, 0, 1, 35, 2]⟩ items) ∧
    ∃ items, FilterPacket.Iterates MqttStr.parse (fun topic => MqttStr.wire topic.data)
      ⟨⟨10⟩, [0, 1, 97]⟩ items := by
  obtain ⟨subscribe, unsubscribe⟩ := @filters_iterate Target.debug
  obtain ⟨-, items, -, -, hitems⟩ := subscribe [0x82, 10, 0, 10, 0, 1, 97, 1, 0, 1, 35, 2, 7] [7]
    ⟨⟨10⟩, [0, 1, 97, 1, 0, 1, 35, 2]⟩ (by decide)
  obtain ⟨-, topics, -, -, htopics⟩ := unsubscribe [0xA2, 5, 0, 10, 0, 1, 97, 7] [7]
    ⟨⟨10⟩, [0, 1, 97]⟩ (by decide)
  exact ⟨⟨items, hitems⟩, topics, htopics⟩

end Mcutt
