import Mcutt.Common

/-!
# PUBLISH

`publish/mod.rs` and `publish/builder.rs`.  The body of a PUBLISH is a topic, a packet identifier
and a payload that is simply what is left.  The encoder writes the identifier when the builder has
one, the decoder reads it when a QoS bit is set; `Publish.parse_eq_ok` says what the decoder
takes, and a builder in which the two agree is written and read back (`Publish.parse_packetWire`).
-/

namespace Mcutt

/-! ## The builder -/

/-- QoS of a publish packet. -/
inductive PublishQos where
  | atMostOnce
  | atLeastOnce (dup : Bool) (pkid : NonZeroU16)
  | exactlyOnce (dup : Bool) (pkid : NonZeroU16)

structure PublishBuilder where
  flags : TypeFlags
  pkid : Option NonZeroU16
  topic : String
  payload : List UInt8
  deriving DecidableEq

namespace PublishBuilder

def new (topic : String) (payload : List UInt8) : PublishBuilder :=
  ⟨TypeFlags.empty, none, topic, payload⟩

def retain (self : PublishBuilder) : PublishBuilder :=
  { self with flags := self.flags ||| TypeFlags.publishRetain }

def qos (self : PublishBuilder) (qos : PublishQos) : PublishBuilder :=
  let self := { self with
    flags := self.flags &&& ~~~(TypeFlags.publishQos1 ||| TypeFlags.publishQos2) }
  match qos with
  | .atMostOnce => self
  | .atLeastOnce dup pkid =>
    let flags := if dup then self.flags ||| TypeFlags.publishDup else self.flags
    { self with flags := flags ||| TypeFlags.publishQos1, pkid := some pkid }
  | .exactlyOnce dup pkid =>
    let flags := if dup then self.flags ||| TypeFlags.publishDup else self.flags
    { self with flags := flags ||| TypeFlags.publishQos2, pkid := some pkid }

end PublishBuilder

/-- One of the two QoS bits is set. -/
def TypeFlags.hasQos (f : TypeFlags) : Bool :=
  f.intersects (TypeFlags.publishQos1 ||| TypeFlags.publishQos2)

/-- `memchr2(needle1, needle2, haystack)`. -/
def memchr2 (needle1 needle2 : UInt8) (haystack : List UInt8) : Option ℕ :=
  haystack.findIdx? fun b => b == needle1 || b == needle2

def containsWildcardChar (topic : String) : Bool := (memchr2 43 35 (strBytes topic)).isSome

/-! ## The packet -/

structure Publish where
  fixed : FixedHeader
  topic : MqttStr
  packetId : Option PacketId
  payload : List UInt8
  deriving DecidableEq, Repr

namespace Publish

def validateValue (value : PublishBuilder) : Exec Unit :=
  if containsWildcardChar value.topic then
    fail .invalid "PUBLISH topic contains wildcard character"
  else .ok ()

def validate (self : Publish) : Exec Unit :=
  if containsWildcardChar self.topic.data then
    fail .invalid "PUBLISH topic contains wildcard character"
  else .ok ()

section

variable [Target]

def encodeLen (value : PublishBuilder) : Exec ℕ := do
  let len ← MqttStr.encodeLen value.topic
  let len ← match value.pkid with
    | some pkid => do
      let packetId ← PacketId.encodeLen pkid
      okOr (checkedAdd len packetId) .overflow "PUBLISH encode len"
    | none => .ok len
  okOr (checkedAdd len value.payload.length) .overflow "PUBLISH encode len"

/-- `Publish::write_sync` after the fixed header. -/
def writeBody (value : PublishBuilder) : Enc ℕ := do
  let topic ← MqttStr.writeSync value.topic
  let pkid ← Enc.opt value.pkid PacketId.writeSync
  Enc.writeAll value.payload "while writing PUBLISH payload"
  pure (topic + pkid + value.payload.length)

def writeSync (value : PublishBuilder) : Enc ℕ :=
  writePacket (validateValue value) (encodeLen value)
    (FixedHeaderBuilder.withFlags .publish value.flags) (writeBody value)

def parse (buff : List UInt8) : Exec (Publish × List UInt8) := do
  let (fixed, rest) ← FixedHeaderSlice.parse buff
  fixed.assertPacketType .publish
  let remLen ← fixed.remainingLength.readLen
  let (rest, rem) ← okOr (splitAtChecked rest remLen) .notEnoughSpace "PUBLISH packet"
  let (topic, rest) ← MqttStr.parse rest
  let hasPkid := fixed.flags.intersects (TypeFlags.publishQos1 ||| TypeFlags.publishQos2)
  let (packetId, rest) ← parseIf hasPkid PacketId.parse rest
  let this : Publish := ⟨fixed, topic, packetId, rest⟩
  this.validate
  .ok (this, rem)

end

/-! ## The body -/

/-- The bytes after the fixed header. -/
def bodyWire (topic : String) (pkid : Option UInt16) (payload : List UInt8) : List UInt8 :=
  MqttStr.wire topic ++ (pkid.elim [] PacketId.wire ++ payload)

/-- The body of the packet a builder makes. -/
def body (value : PublishBuilder) : List UInt8 :=
  bodyWire value.topic (value.pkid.map NonZeroU16.val) value.payload

theorem length_body (value : PublishBuilder) :
    (body value).length = (MqttStr.wire value.topic).length +
      (value.pkid.elim [] fun pkid => PacketId.wire pkid.val).length + value.payload.length := by
  cases h : value.pkid <;> simp [body, bodyWire, h, Nat.add_assoc]

section

variable [Target]

theorem measures_encodeLen (value : PublishBuilder) :
    Measures (encodeLen value) (body value).length := by
  rw [length_body]
  refine (MqttStr.measures_encodeLen value.topic).bind ?_ (by omega)
  cases value.pkid with
  | none => exact measures_checkedAdd _ _ _ _
  | some pkid =>
    exact (measures_checkedAdd _ 2 _ _).bind (measures_checkedAdd _ _ _ _)
      (by simp [PacketId.length_wire])

omit [Target] in
theorem checks_writeBody (value : PublishBuilder) :
    (writeBody value).Checks (MqttStr.Valid value.topic) (body value).length (body value) := by
  have pkid := Enc.checks_opt (P := fun _ => True) (fun a => (PacketId.writeSync_writes a).checks)
    value.pkid
  have payload := (Enc.writes_writeAll value.payload "while writing PUBLISH payload").checks
  refine ((MqttStr.checks_writeSync value.topic).bind
    (pkid.bind (payload.map fun _ => _))).congr (by simp) (length_body value).symm ?_
  cases h : value.pkid <;> simp [body, bodyWire, h]

omit [Target] in
theorem validateValue_eq_ok {value : PublishBuilder} :
    validateValue value = .ok () ↔ containsWildcardChar value.topic = false := by
  unfold validateValue
  split_ifs with h <;> simp [h]

theorem writeSync_writes {value : PublishBuilder}
    (hwild : containsWildcardChar value.topic = false) (hvalid : MqttStr.Valid value.topic)
    (hle : (body value).length ≤ 268435455) :
    (writeSync value).Writes (packetWire .publish value.flags (body value)).length
      (packetWire .publish value.flags (body value)) :=
  writePacket_writes rfl ((checks_writeBody value).writes hvalid) (validateValue_eq_ok.2 hwild)
    ((measures_encodeLen value).eq_ok (by omega)) hle

theorem writeSync_eq_ok {value : PublishBuilder} {n : ℕ}
    (hok : (writeSync value).result = .ok n) :
    containsWildcardChar value.topic = false ∧ MqttStr.Valid value.topic ∧
      (body value).length ≤ 268435455 ∧
      (writeSync value).output = packetWire .publish value.flags (body value) ∧
      n = (packetWire .publish value.flags (body value)).length := by
  obtain ⟨hval, rest⟩ := writePacket_eq_ok rfl (checks_writeBody value)
    (fun _ _ h => (measures_encodeLen value).of_ok h) hok
  exact ⟨validateValue_eq_ok.1 hval, rest⟩

/-! ## The decoder -/

/-- The packet identifier is there as the QoS bits say, and is not zero. -/
def PkidMatches (f : TypeFlags) (packetId : Option PacketId) : Prop :=
  packetId.isSome = f.hasQos ∧ ∀ id ∈ packetId, id.pkid ≠ 0

omit [Target] in
theorem parseIf_pkid_eq_ok {present : Bool} {buf rest : List UInt8} {o : Option PacketId} :
    parseIf present PacketId.parse buf = .ok (o, rest) ↔
      buf = (o.map PacketId.pkid).elim [] PacketId.wire ++ rest ∧ o.isSome = present ∧
        ∀ id ∈ o, id.pkid ≠ 0 := by
  rw [parseIf_eq_ok_of PacketId.parse_eq_ok, Option.elim_map]
  rfl

/-- What the decoder takes: a header, and a body of the announced length made of a topic without
wildcards, the identifier the flags ask for and any payload. -/
theorem parse_eq_ok {buff rem : List UInt8} {this : Publish} :
    parse buff = .ok (this, rem) ↔ ∃ t f, this.fixed.Valid t f ∧
      (Target.debugAssertions = true → t = .publish) ∧
      buff = this.fixed.bytes ++
        (bodyWire this.topic.data (this.packetId.map PacketId.pkid) this.payload ++ rem) ∧
      Varint.value this.fixed.remainingLength.len =
        (bodyWire this.topic.data (this.packetId.map PacketId.pkid) this.payload).length ∧
      this.topic.len = (strBytes this.topic.data).length ∧ MqttStr.Valid this.topic.data ∧
      containsWildcardChar this.topic.data = false ∧ PkidMatches f this.packetId := by
  constructor
  · intro h
    simp only [parse, bind_eq_ok, okOr_eq_ok] at h
    obtain ⟨⟨fixed, rest⟩, hfixed, ⟨⟩, htype, remLen, hremLen, ⟨packet, rem'⟩, hsplit,
      ⟨topic, afterTopic⟩, htopic, ⟨packetId, payload⟩, hpkid, ⟨⟩, hval, heq⟩ := h
    obtain ⟨rfl, t, f, valid⟩ := FixedHeaderSlice.parse_eq_ok.1 hfixed
    obtain ⟨rfl, hlen⟩ := splitAtChecked_eq_some.1 hsplit
    obtain ⟨rfl, htopicLen, hvalid⟩ := MqttStr.parse_eq_ok.1 htopic
    simp only [Except.ok.injEq, Prod.mk.injEq] at heq
    obtain ⟨rfl, rfl⟩ := heq
    rw [valid.readLen_eq, Except.ok.injEq] at hremLen
    rw [valid.flags_eq] at hpkid
    have hwild : containsWildcardChar topic.data = false := by
      simp only [validate] at hval
      split_ifs at hval with hw
      · cases hval
      · simpa using hw
    obtain ⟨rfl, hsome, hne⟩ := parseIf_pkid_eq_ok.1 hpkid
    exact ⟨t, f, valid, valid.assertPacketType_eq_ok.1 htype, rfl, hremLen.trans hlen.symm,
      htopicLen, hvalid, hwild, hsome, hne⟩
  · obtain ⟨fixed, topic, packetId, payload⟩ := this
    rintro ⟨t, f, valid, htype, rfl, hlen, htopicLen, hvalid, hwild, hsome, hne⟩
    simp only at valid hlen htopicLen hvalid hwild hsome hne ⊢
    have hfixed : FixedHeaderSlice.parse (fixed.bytes ++
        (bodyWire topic.data (packetId.map PacketId.pkid) payload ++ rem)) =
          .ok (fixed, bodyWire topic.data (packetId.map PacketId.pkid) payload ++ rem) :=
      FixedHeaderSlice.parse_eq_ok.2 ⟨rfl, t, f, valid⟩
    have hsplit : splitAtChecked (bodyWire topic.data (packetId.map PacketId.pkid) payload ++ rem)
        (bodyWire topic.data (packetId.map PacketId.pkid) payload).length =
          some (bodyWire topic.data (packetId.map PacketId.pkid) payload, rem) :=
      splitAtChecked_eq_some.2 ⟨rfl, rfl⟩
    have htopic : MqttStr.parse (bodyWire topic.data (packetId.map PacketId.pkid) payload) =
        .ok (topic, (packetId.map PacketId.pkid).elim [] PacketId.wire ++ payload) :=
      MqttStr.parse_eq_ok.2 ⟨rfl, htopicLen, hvalid⟩
    have hpkid : parseIf f.hasQos PacketId.parse
        ((packetId.map PacketId.pkid).elim [] PacketId.wire ++ payload) =
          .ok (packetId, payload) := parseIf_pkid_eq_ok.2 ⟨rfl, hsome, hne⟩
    rw [TypeFlags.hasQos] at hpkid
    simp only [parse, hfixed, ok_bind, valid.assertPacketType_eq_ok.2 htype, valid.readLen_eq, hlen,
      hsplit, okOr_some, htopic, valid.flags_eq, hpkid, validate, hwild, Bool.false_eq_true,
      if_false]

theorem parse_noPanic {buff : List UInt8} (htype : HasType .publish buff) :
    NoPanic (parse buff) := by
  refine (FixedHeaderSlice.parse_noPanic buff).bind fun ⟨fixed, rest⟩ hfixed => ?_
  obtain ⟨-, t, f, valid⟩ := FixedHeaderSlice.parse_eq_ok.1 hfixed
  simp only [htype.assertSlice hfixed, valid.readLen_eq, ok_bind]
  refine (noPanic_okOr _ _ _).bind fun ⟨packet, rem⟩ _ => ?_
  refine (MqttStr.parse_noPanic packet).bind fun ⟨topic, rest⟩ _ => ?_
  refine (parseIf_noPanic _ (PacketId.parse_noPanic rest)).bind fun _ _ => ?_
  exact (noPanic_ite _ _ _ _).bind fun _ _ => noPanic_ok _

/-! ## Both directions -/

/-- The packet that the decoder makes of what the encoder writes. -/
def ofBuilder (value : PublishBuilder) : Publish where
  fixed := ⟨encodeTypeAndFlags .publish value.flags, ⟨RemainingLength.wire (body value).length⟩⟩
  topic := ⟨(strBytes value.topic).length, value.topic⟩
  packetId := value.pkid.map fun pkid => ⟨pkid.val⟩
  payload := value.payload

/-- The builder made of the fields of a packet. -/
def toBuilder (this : Publish) : Exec PublishBuilder := do
  let pkid ← match this.packetId with
    | some id => do
      let pkid ← id.read
      .ok (some pkid)
    | none => .ok none
  .ok ⟨this.fixed.flags, pkid, this.topic.data, this.payload⟩

omit [Target] in
theorem ofBuilder_valid {value : PublishBuilder} (hle : (body value).length ≤ 268435455) :
    (ofBuilder value).fixed.Valid .publish value.flags :=
  ⟨ControlPacketType.parse_encode _ _ rfl, RemainingLength.terminated_wire hle,
    (RemainingLength.length_wire _).trans_le (RemainingLength.width_le _)⟩

/-- What a builder with matching flags and identifier is written as is parsed back. -/
theorem parse_packetWire {value : PublishBuilder} (hpkid : value.pkid.isSome = value.flags.hasQos)
    (hwild : containsWildcardChar value.topic = false) (hvalid : MqttStr.Valid value.topic)
    (hle : (body value).length ≤ 268435455) (rest : List UInt8) :
    parse (packetWire .publish value.flags (body value) ++ rest) =
      .ok (ofBuilder value, rest) := by
  have hids : (ofBuilder value).packetId.map PacketId.pkid = value.pkid.map NonZeroU16.val := by
    simp [ofBuilder, Function.comp_def]
  refine parse_eq_ok.2 ⟨.publish, value.flags, ofBuilder_valid hle, fun _ => rfl, ?_, ?_, rfl,
    hvalid, hwild, ?_, ?_⟩
  · rw [hids]
    simp [packetWire, headerWire, FixedHeader.bytes, ofBuilder, body]
  · rw [hids]
    exact RemainingLength.value_wire hle
  · simp [ofBuilder, hpkid]
  · rintro id hid
    obtain ⟨pkid, -, rfl⟩ := Option.map_eq_some_iff.1 hid
    exact pkid.ne_zero

/-- A packet with a minimal header is written back as it was. -/
theorem toBuilder_writes {buff rem : List UInt8} {this : Publish}
    (hparse : parse buff = .ok (this, rem))
    (htype : ∃ f, ControlPacketType.parse this.fixed.typeAndFlags = .ok (.publish, f))
    (hminimal : Varint.Minimal this.fixed.remainingLength.len) :
    ∃ value out, toBuilder this = .ok value ∧ (writeSync value).Writes out.length out ∧
      buff = out ++ rem := by
  obtain ⟨t, f, valid, -, rfl, hlen, -, hvalid, hwild, -, hne⟩ := parse_eq_ok.1 hparse
  obtain ⟨f', htype⟩ := htype
  obtain ⟨rfl, rfl⟩ : ControlPacketType.publish = t ∧ f' = f := by
    simpa using htype.symm.trans valid.type
  have hbuild : ∃ pkid : Option NonZeroU16, pkid.map NonZeroU16.val =
      this.packetId.map PacketId.pkid ∧
        toBuilder this = .ok ⟨f', pkid, this.topic.data, this.payload⟩ := by
    unfold toBuilder
    rw [valid.flags_eq]
    cases h : this.packetId with
    | none => exact ⟨none, rfl, rfl⟩
    | some id =>
      have hread := PacketId.read_eq (hne id h)
      exact ⟨some ⟨id.pkid, hne id h⟩, rfl, by simp [hread]⟩
  obtain ⟨pkid, hids, hbuild⟩ := hbuild
  have hbody : body ⟨f', pkid, this.topic.data, this.payload⟩ =
      bodyWire this.topic.data (this.packetId.map PacketId.pkid) this.payload := by
    rw [body, hids]
  have hle : (body ⟨f', pkid, this.topic.data, this.payload⟩).length ≤ 268435455 := by
    rw [hbody, ← hlen]
    exact valid.value_le
  have hheader := valid.headerWire_eq hminimal
  refine ⟨_, _, hbuild, writeSync_writes hwild hvalid hle, ?_⟩
  simp only [packetWire, hbody, ← hlen, hheader, List.append_assoc]

end

end Publish

end Mcutt
