import Mcutt.Common

/-!
# SUBSCRIBE, SUBACK and UNSUBSCRIBE

The encoders of `subscribe/mod.rs`, `subscribe/topic.rs` and `unsubscribe/mod.rs`, which fold over
a list of filters, and the decoder of `subscribe/ack.rs`, which takes as many return codes as the
remaining length announces (`SubAck.parse_eq_ok`).
-/

namespace Mcutt

/-! ## Filters -/

inductive RequestedQos where
  | atMostOnce
  | atLeastOnce
  | exactlyOnce
  deriving DecidableEq, Repr

/-- `as_bytes` of a `RequestedQos`. -/
def RequestedQos.toU8 : RequestedQos → UInt8
  | atMostOnce => 0
  | atLeastOnce => 1
  | exactlyOnce => 2

structure SubscribeFilter where
  topic : String
  qos : RequestedQos
  deriving DecidableEq, Repr

namespace TopicFilter

def validateValue (value : SubscribeFilter) : Exec Unit :=
  if !hasValidWildcard value.topic then fail .invalid "SUBSCRIBE topic filter" else .ok ()

def encodeLen [Target] (value : SubscribeFilter) : Exec ℕ := do
  let len ← MqttStr.encodeLen value.topic
  okOr (checkedAdd len 1) .overflow "SUBSCRIBE topic filter"

def writeSync (value : SubscribeFilter) : Enc ℕ := do
  validateValue value
  let topic ← MqttStr.writeSync value.topic
  Enc.writeAll [value.qos.toU8] "while writing SUBSCRIBE topic filter"
  pure (topic + 1)

/-- The bytes of a filter with its requested QoS. -/
def wire (value : SubscribeFilter) : List UInt8 := MqttStr.wire value.topic ++ [value.qos.toU8]

theorem validateValue_eq_ok {value : SubscribeFilter} :
    validateValue value = .ok () ↔ hasValidWildcard value.topic = true := by
  unfold validateValue
  split_ifs with h <;> simp_all

theorem measures_encodeLen [Target] (value : SubscribeFilter) :
    Measures (encodeLen value) (wire value).length := by
  rw [wire, List.length_append]
  exact (MqttStr.measures_encodeLen value.topic).bind (measures_checkedAdd _ _ _ _) (by omega)

theorem checks_writeSync (value : SubscribeFilter) :
    (writeSync value).Checks (hasValidWildcard value.topic = true ∧ MqttStr.Valid value.topic)
      (wire value).length (wire value) := by
  have validate : (liftM (validateValue value) : Enc Unit).Checks
      (hasValidWildcard value.topic = true) () [] := by
    apply Enc.checks_of (fun h => Enc.writes_lift (validateValue_eq_ok.2 h))
    intro h
    refine Enc.rejects_lift (e := ⟨.invalid, "SUBSCRIBE topic filter"⟩) ?_
    simp [validateValue, h, fail]
  have qos := (Enc.writes_writeAll [value.qos.toU8] "while writing SUBSCRIBE topic filter").checks
  refine (validate.bind ((MqttStr.checks_writeSync value.topic).bind
    (qos.map fun _ => _))).congr (by simp) ?_ (by simp [wire])
  simp [wire]

end TopicFilter

/-! ## SUBSCRIBE -/

structure SubscribeBuilder where
  pkid : NonZeroU16
  filters : List SubscribeFilter
  deriving DecidableEq

/-- `items.iter().try_fold(len, …)`, which adds the length of every item to `len`. -/
def foldLen [Target] {α : Type} (msg : String) (encodeLen : α → Exec ℕ) (items : List α)
    (len : ℕ) : Exec ℕ :=
  items.foldlM (fun len item => do
    let topic ← encodeLen item
    okOr (checkedAdd topic len) .overflow msg) len

theorem measures_foldLen [Target] {α : Type} {msg : String} {encodeLen : α → Exec ℕ}
    {wire : α → List UInt8} (h : ∀ a, Measures (encodeLen a) (wire a).length) (items : List α)
    (len : ℕ) (hlen : len < 2 ^ 32) :
    Measures (foldLen msg encodeLen items len) (len + (items.flatMap wire).length) := by
  have general : ∀ items : List α, ∀ x : Exec ℕ, ∀ n, Measures x n →
      Measures (x >>= fun n => foldLen msg encodeLen items n)
        (n + (items.flatMap wire).length) := by
    intro items
    induction items with
    | nil =>
      intro x n hx
      have hpure : (fun n => foldLen msg encodeLen [] n) = (pure : ℕ → Exec ℕ) := rfl
      rw [hpure, bind_pure]
      exact hx
    | cons a items ih =>
      intro x n hx
      have step : Measures (x >>= fun n => encodeLen a >>= fun topic =>
          okOr (checkedAdd topic n) .overflow msg) (n + (wire a).length) := by
        refine hx.bind ?_ (by omega)
        rw [Nat.add_comm]
        exact (h a).bind (measures_checkedAdd _ _ _ _) (by omega)
      have := ih _ _ step
      rw [bind_assoc] at this
      rw [List.flatMap_cons, List.length_append, ← Nat.add_assoc]
      exact this
  exact general items (.ok len) len (measures_ok hlen)

namespace Subscribe

def validateValue (value : SubscribeBuilder) : Exec Unit :=
  forM value.filters TopicFilter.validateValue

/-- `Subscribe::write_sync` after the fixed header. -/
def writeBody (value : SubscribeBuilder) : Enc ℕ := do
  let pkid ← PacketId.writeSync value.pkid
  Enc.sum value.filters TopicFilter.writeSync pkid

/-- The bytes after the fixed header. -/
def body (value : SubscribeBuilder) : List UInt8 :=
  PacketId.wire value.pkid.val ++ value.filters.flatMap TopicFilter.wire

section

variable [Target]

def encodeLen (value : SubscribeBuilder) : Exec ℕ := do
  let len ← PacketId.encodeLen value.pkid
  foldLen "SUBSCRIBE packet len" TopicFilter.encodeLen value.filters len

def writeSync (value : SubscribeBuilder) : Enc ℕ :=
  writePacket (validateValue value) (encodeLen value) (FixedHeaderBuilder.new .subscribe)
    (writeBody value)

theorem measures_encodeLen (value : SubscribeBuilder) :
    Measures (encodeLen value) (body value).length := by
  rw [body, List.length_append]
  exact measures_foldLen TopicFilter.measures_encodeLen _ 2 (by decide)

omit [Target] in
theorem validateValue_eq_ok {value : SubscribeBuilder} :
    validateValue value = .ok () ↔ ∀ f ∈ value.filters, hasValidWildcard f.topic = true := by
  simp only [validateValue, forM_eq_ok, TopicFilter.validateValue_eq_ok]

omit [Target] in
theorem checks_writeBody (value : SubscribeBuilder) :
    (writeBody value).Checks
      (∀ f ∈ value.filters, hasValidWildcard f.topic = true ∧ MqttStr.Valid f.topic)
      (body value).length (body value) := by
  refine ((PacketId.writeSync_writes value.pkid).checks.bind
    (Enc.checks_sum TopicFilter.checks_writeSync _ _)).congr (by simp) ?_ rfl
  rw [body, List.length_append]

theorem writeSync_eq_ok {value : SubscribeBuilder} {n : ℕ}
    (hok : (writeSync value).result = .ok n) :
    (∀ f ∈ value.filters, hasValidWildcard f.topic = true ∧ MqttStr.Valid f.topic) ∧
      (body value).length ≤ 268435455 ∧
      (writeSync value).output = packetWire .subscribe TypeFlags.subscribe (body value) ∧
      n = (packetWire .subscribe TypeFlags.subscribe (body value)).length :=
  (writePacket_eq_ok rfl (checks_writeBody value)
    (fun _ _ h => (measures_encodeLen value).of_ok h) hok).2

end

end Subscribe

/-! ## UNSUBSCRIBE -/

/-- The filters are what the collection of the builder iterates to. -/
structure UnsubscribeBuilder where
  pkid : NonZeroU16
  filters : List String
  deriving DecidableEq

namespace Unsubscribe

def validateValue (value : UnsubscribeBuilder) : Exec Unit :=
  forM value.filters fun filter =>
    if !hasValidWildcard filter then fail .invalid "UNSUBSCRIBE topic filter" else .ok ()

/-- `Unsubscribe::write_sync` after the fixed header. -/
def writeBody (value : UnsubscribeBuilder) : Enc ℕ := do
  let pkid ← PacketId.writeSync value.pkid
  Enc.sum value.filters MqttStr.writeSync pkid

/-- The bytes after the fixed header. -/
def body (value : UnsubscribeBuilder) : List UInt8 :=
  PacketId.wire value.pkid.val ++ value.filters.flatMap MqttStr.wire

section

variable [Target]

def encodeLen (value : UnsubscribeBuilder) : Exec ℕ := do
  let len ← PacketId.encodeLen value.pkid
  foldLen "UNSUBSCRIBE packet len" MqttStr.encodeLen value.filters len

def writeSync (value : UnsubscribeBuilder) : Enc ℕ :=
  writePacket (validateValue value) (encodeLen value) (FixedHeaderBuilder.new .unsubscribe)
    (writeBody value)

theorem measures_encodeLen (value : UnsubscribeBuilder) :
    Measures (encodeLen value) (body value).length := by
  rw [body, List.length_append]
  exact measures_foldLen MqttStr.measures_encodeLen _ 2 (by decide)

omit [Target] in
theorem validateValue_eq_ok {value : UnsubscribeBuilder} :
    validateValue value = .ok () ↔ ∀ f ∈ value.filters, hasValidWildcard f = true := by
  rw [validateValue, forM_eq_ok]
  refine forall₂_congr fun f _ => ?_
  cases hasValidWildcard f <;> simp

omit [Target] in
theorem checks_writeBody (value : UnsubscribeBuilder) :
    (writeBody value).Checks (∀ f ∈ value.filters, MqttStr.Valid f) (body value).length
      (body value) := by
  refine ((PacketId.writeSync_writes value.pkid).checks.bind
    (Enc.checks_sum MqttStr.checks_writeSync _ _)).congr (by simp) ?_ rfl
  rw [body, List.length_append]

theorem writeSync_checked {value : UnsubscribeBuilder} {n : ℕ}
    (hok : (writeSync value).result = .ok n) :
    (∀ f ∈ value.filters, hasValidWildcard f = true) ∧ (∀ f ∈ value.filters, MqttStr.Valid f) ∧
      (body value).length ≤ 268435455 ∧
      (writeSync value).output = packetWire .unsubscribe TypeFlags.unsubscribe (body value) ∧
      n = (packetWire .unsubscribe TypeFlags.unsubscribe (body value)).length := by
  obtain ⟨hval, rest⟩ := writePacket_eq_ok rfl (checks_writeBody value)
    (fun _ _ h => (measures_encodeLen value).of_ok h) hok
  exact ⟨validateValue_eq_ok.1 hval, rest⟩

end

end Unsubscribe

/-! ## SUBACK -/

inductive SubAckCode where
  | qos0
  | qos1
  | qos2
  | failure
  deriving DecidableEq, Repr

namespace SubAckCode

def toU8 : SubAckCode → UInt8
  | qos0 => 0b0000_0000
  | qos1 => 0b0000_0001
  | qos2 => 0b0000_0010
  | failure => 0b1000_0000

/-- The validity check of a `SubAckCode` field. -/
def tryFromByte (b : UInt8) : Option SubAckCode :=
  match b with
  | 0b0000_0000 => some qos0
  | 0b0000_0001 => some qos1
  | 0b0000_0010 => some qos2
  | 0b1000_0000 => some failure
  | _ => none

theorem tryFromByte_eq_some {b : UInt8} {c : SubAckCode} : tryFromByte b = some c ↔ c.toU8 = b := by
  have all : ∀ n : Fin 256, ∀ c : SubAckCode,
      tryFromByte (UInt8.ofNat n) = some c ↔ c.toU8 = UInt8.ofNat n := by
    intro n c
    revert n
    cases c <;> decide +kernel
  exact byte_forall (p := fun b => ∀ c, tryFromByte b = some c ↔ c.toU8 = b) all b c

theorem mapM_tryFromByte {bs : List UInt8} {codes : List SubAckCode} :
    bs.mapM tryFromByte = some codes ↔ codes.map toU8 = bs := by
  induction bs generalizing codes with
  | nil => simp [eq_comm]
  | cons b bs ih =>
    rw [List.mapM_cons]
    cases codes with
    | nil =>
      simp only [Option.bind_eq_bind, Option.bind_eq_some_iff, Option.pure_def, Option.some.injEq]
      simp
    | cons c codes =>
      simp only [Option.bind_eq_bind, Option.bind_eq_some_iff, Option.pure_def, Option.some.injEq,
        List.cons.injEq, List.map_cons]
      constructor
      · rintro ⟨c', hc, codes', hcodes, rfl, rfl⟩
        exact ⟨tryFromByte_eq_some.1 hc, ih.1 hcodes⟩
      · rintro ⟨hc, hcodes⟩
        exact ⟨c, tryFromByte_eq_some.2 hc, codes, ih.2 hcodes, rfl, rfl⟩

end SubAckCode

structure SubAck where
  pkid : PacketId
  returnCodes : List SubAckCode
  deriving DecidableEq, Repr

structure SubAckBuilder where
  pkid : NonZeroU16
  returnCodes : List SubAckCode
  deriving DecidableEq

namespace SubAck

def validate (self : SubAck) : Exec Unit := self.pkid.validate

/-- `SubAck::try_ref_from_prefix_with_elems`. -/
def tryRefFromPrefixWithElems (buf : List UInt8) (count : ℕ) : Exec (SubAck × List UInt8) :=
  match buf with
  | hi :: lo :: tail => do
    let (codes, rest) ← okOr (splitAtChecked tail count) .notEnoughSpace "SUBACK not enought space"
    let returnCodes ← okOr (codes.mapM SubAckCode.tryFromByte) .invalid
      "SUBACK return code is reserved"
    .ok (⟨⟨UInt16.ofNat (fromBe hi lo)⟩, returnCodes⟩, rest)
  | _ => fail .notEnoughSpace "SUBACK not enought space"

/-- The bytes after the fixed header. -/
def bodyWire (this : SubAck) : List UInt8 :=
  PacketId.wire this.pkid.pkid ++ this.returnCodes.map SubAckCode.toU8

theorem length_bodyWire (this : SubAck) :
    (bodyWire this).length = 2 + this.returnCodes.length := by
  rw [bodyWire, List.length_append, List.length_map, PacketId.length_wire]

/-- The packet that the decoder makes of what the encoder writes. -/
def ofBuilder (value : SubAckBuilder) : SubAck := ⟨⟨value.pkid.val⟩, value.returnCodes⟩

/-- `SubAck::write_sync` after the fixed header. -/
def writeBody (value : SubAckBuilder) : Enc ℕ := do
  let pkid ← PacketId.writeSync value.pkid
  let bytes := value.returnCodes.map SubAckCode.toU8
  Enc.writeAll bytes "while writing SUBACK return codes"
  pure (pkid + bytes.length)

theorem writeBody_writes (value : SubAckBuilder) :
    (writeBody value).Writes (bodyWire (ofBuilder value)).length
      (bodyWire (ofBuilder value)) := by
  rw [length_bodyWire, ← List.length_map SubAckCode.toU8]
  refine (PacketId.writeSync_writes value.pkid).bind (Enc.Writes.congr ?_ (List.append_nil _))
  exact (Enc.writes_writeAll _ _).bind (Enc.writes_pure _)

section

variable [Target]

def encodeLen (value : SubAckBuilder) : Exec ℕ := do
  let len ← PacketId.encodeLen value.pkid
  okOr (checkedAdd len value.returnCodes.length) .overflow "SUBACK encode len"

/-- The value is not checked before it is written. -/
def writeSync (value : SubAckBuilder) : Enc ℕ :=
  writePacket (.ok ()) (encodeLen value) (FixedHeaderBuilder.new .subAck) (writeBody value)

def parse (buf : List UInt8) : Exec (SubAck × List UInt8) := do
  let (fixed, rest) ← FixedHeaderSlice.parse buf
  fixed.assertPacketType .subAck
  let remLen ← fixed.remainingLength.readLen
  let codesCount ← okOr (if 2 ≤ remLen then some (remLen - 2) else none) .overflow
    "SUBACK remaining length"
  let (this, rest) ← tryRefFromPrefixWithElems rest codesCount
  this.validate
  .ok (this, rest)

theorem writeSync_writes {value : SubAckBuilder}
    (hle : (bodyWire (ofBuilder value)).length ≤ 268435455) :
    (writeSync value).Writes
      (packetWire .subAck TypeFlags.empty (bodyWire (ofBuilder value))).length
      (packetWire .subAck TypeFlags.empty (bodyWire (ofBuilder value))) := by
  have hmeasures : Measures (encodeLen value) (bodyWire (ofBuilder value)).length := by
    rw [length_bodyWire]
    exact measures_checkedAdd _ _ _ _
  exact writePacket_writes rfl (writeBody_writes value) rfl (hmeasures.eq_ok (by omega)) hle

omit [Target] in
theorem tryRefFromPrefixWithElems_eq_ok {buf rest : List UInt8} {count : ℕ} {this : SubAck} :
    tryRefFromPrefixWithElems buf count = .ok (this, rest) ↔
      buf = bodyWire this ++ rest ∧ this.returnCodes.length = count := by
  constructor
  · intro h
    match buf with
    | [] => simp [tryRefFromPrefixWithElems] at h
    | [_] => simp [tryRefFromPrefixWithElems] at h
    | hi :: lo :: tail =>
      simp only [tryRefFromPrefixWithElems, bind_eq_ok, okOr_eq_ok] at h
      obtain ⟨⟨codes, rest'⟩, hsplit, returnCodes, hcodes, heq⟩ := h
      obtain ⟨rfl, rfl⟩ := splitAtChecked_eq_some.1 hsplit
      simp only [Except.ok.injEq, Prod.mk.injEq] at heq
      obtain ⟨rfl, rfl⟩ := heq
      have hmap := SubAckCode.mapM_tryFromByte.1 hcodes
      have lt := fromBe_lt hi lo
      have hnat : (UInt16.ofNat (fromBe hi lo)).toNat = fromBe hi lo := by
        rw [UInt16.toNat_ofNat']
        omega
      refine ⟨?_, ?_⟩
      · simp [bodyWire, PacketId.wire, hnat, beBytes_fromBe, hmap]
      · exact (List.length_map _).symm.trans (congrArg List.length hmap)
  · rintro ⟨rfl, rfl⟩
    have hbe := fromBe_beBytes this.pkid.pkid.toNat_lt
    have hsplit : splitAtChecked (this.returnCodes.map SubAckCode.toU8 ++ rest)
        this.returnCodes.length = some (this.returnCodes.map SubAckCode.toU8, rest) :=
      splitAtChecked_eq_some.2 ⟨rfl, List.length_map _⟩
    have hcodes := SubAckCode.mapM_tryFromByte.2 (rfl : this.returnCodes.map SubAckCode.toU8 = _)
    simp only [bodyWire, PacketId.wire, beBytes, List.cons_append, List.nil_append,
      tryRefFromPrefixWithElems, hbe, UInt16.ofNat_toNat, hsplit, okOr_some, ok_bind, hcodes]

/-- A SUBACK is taken from a header and exactly the bytes it announces. -/
theorem parse_eq_ok {buf rest : List UInt8} {this : SubAck} :
    parse buf = .ok (this, rest) ↔ ∃ fixed t f, FixedHeader.Valid fixed t f ∧
      (Target.debugAssertions = true → t = .subAck) ∧
      buf = fixed.bytes ++ (bodyWire this ++ rest) ∧
      Varint.value fixed.remainingLength.len = (bodyWire this).length ∧ this.pkid.pkid ≠ 0 := by
  constructor
  · intro h
    simp only [parse, bind_eq_ok, okOr_eq_ok] at h
    obtain ⟨⟨fixed, afterFixed⟩, hfixed, ⟨⟩, htype, remLen, hremLen, count, hcount, ⟨this', rest'⟩,
      hthis, ⟨⟩, hval, heq⟩ := h
    obtain ⟨rfl, t, f, valid⟩ := FixedHeaderSlice.parse_eq_ok.1 hfixed
    simp only [Except.ok.injEq, Prod.mk.injEq] at heq
    obtain ⟨rfl, rfl⟩ := heq
    obtain ⟨rfl, hlen⟩ := tryRefFromPrefixWithElems_eq_ok.1 hthis
    rw [valid.readLen_eq, Except.ok.injEq] at hremLen
    have hne := PacketId.validate_eq_ok.1 hval
    refine ⟨fixed, t, f, valid, valid.assertPacketType_eq_ok.1 htype, rfl, ?_, hne⟩
    split_ifs at hcount with hle
    have hc := Option.some.inj hcount
    rw [length_bodyWire, hlen]
    omega
  · rintro ⟨fixed, t, f, valid, htype, rfl, hlen, hne⟩
    have hfixed : FixedHeaderSlice.parse (fixed.bytes ++ (bodyWire this ++ rest)) =
        .ok (fixed, bodyWire this ++ rest) := FixedHeaderSlice.parse_eq_ok.2 ⟨rfl, t, f, valid⟩
    have hcount : (if 2 ≤ 2 + this.returnCodes.length then some (2 + this.returnCodes.length - 2)
        else none) = some this.returnCodes.length := by
      rw [if_pos (by omega), Nat.add_sub_cancel_left]
    have hthis : tryRefFromPrefixWithElems (bodyWire this ++ rest) this.returnCodes.length =
        .ok (this, rest) := tryRefFromPrefixWithElems_eq_ok.2 ⟨rfl, rfl⟩
    rw [length_bodyWire] at hlen
    simp only [parse, hfixed, ok_bind, valid.assertPacketType_eq_ok.2 htype, valid.readLen_eq, hlen,
      hcount, okOr_some, hthis, validate, PacketId.validate_eq_ok.2 hne]

omit [Target] in
theorem tryRefFromPrefixWithElems_noPanic (buf : List UInt8) (count : ℕ) :
    NoPanic (tryRefFromPrefixWithElems buf count) := by
  match buf with
  | [] => exact noPanic_fail _ _
  | [_] => exact noPanic_fail _ _
  | hi :: lo :: tail =>
    refine (noPanic_okOr _ _ _).bind fun _ _ => ?_
    exact (noPanic_okOr _ _ _).bind fun _ _ => noPanic_ok _

theorem parse_noPanic {buf : List UInt8} (htype : HasType .subAck buf) : NoPanic (parse buf) := by
  refine (FixedHeaderSlice.parse_noPanic buf).bind fun ⟨fixed, rest⟩ hfixed => ?_
  obtain ⟨-, t, f, valid⟩ := FixedHeaderSlice.parse_eq_ok.1 hfixed
  simp only [htype.assertSlice hfixed, valid.readLen_eq, ok_bind]
  refine (noPanic_okOr _ _ _).bind fun count _ => ?_
  refine (tryRefFromPrefixWithElems_noPanic rest count).bind fun _ _ => ?_
  exact (noPanic_ite _ _ _ _).bind fun _ _ => noPanic_ok _

end

end SubAck

end Mcutt
