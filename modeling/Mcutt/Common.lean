import Mcutt.Fixed.Header

/-!
# Fields common to several packets

`common/message.rs`, `common/string.rs`, `common/packet_id.rs` and `common/topic.rs`:
length-prefixed buffers and strings, packet identifiers and topic filters.  Each field comes with
the bytes it is written as (`Buff.wire`, `MqttStr.wire`, `PacketId.wire`), a lemma saying that its
encoder writes these bytes or rejects having written nothing, and a lemma saying that its decoder
accepts exactly these bytes, followed by anything.  From the two it follows that the coding of
strings and of buffers loses nothing (`mqttStr_buff_codec`).
-/

namespace Mcutt

/-! ## Strings as bytes -/

/-- `str::as_bytes`. -/
def strBytes (s : String) : List UInt8 := s.toByteArray.data.toList

/-- `str::from_utf8`, the validity check of a `str` field. -/
def fromUtf8 (bs : List UInt8) : Option String := String.fromUTF8? ⟨bs.toArray⟩

theorem fromUtf8_eq_some {bs : List UInt8} {s : String} :
    fromUtf8 bs = some s ↔ strBytes s = bs := by
  unfold fromUtf8 String.fromUTF8?
  constructor
  · intro h
    split_ifs at h with hv
    obtain rfl := Option.some.inj h
    rfl
  · rintro rfl
    have hb : (⟨(strBytes s).toArray⟩ : ByteArray) = s.toByteArray := by
      simp [strBytes]
    rw [hb, dif_pos s.isValidUTF8]
    rfl

@[simp]
theorem fromUtf8_strBytes (s : String) : fromUtf8 (strBytes s) = some s := fromUtf8_eq_some.2 rfl

/-! ## Buffers -/

structure Buff where
  len : ℕ
  data : List UInt8
  deriving DecidableEq, Repr

namespace Buff

def validateValue (value : List UInt8) : Exec ℕ :=
  if value.length ≤ 65535 then .ok value.length else fail .outOfRange "buf len too big"

def writeSync (value : List UInt8) : Enc ℕ := do
  let bufLen ← validateValue value
  Enc.writeAll (beBytes bufLen) "writing message buffer len"
  Enc.writeAll value "writing message buffer value"
  pure (2 + value.length)

/-- The bytes of a buffer with its length prefix. -/
def wire (bs : List UInt8) : List UInt8 := beBytes bs.length ++ bs

theorem length_wire (bs : List UInt8) : (wire bs).length = 2 + bs.length := by
  simp [wire, Nat.add_comm]

theorem length_wire_le {bs : List UInt8} (h : bs.length ≤ 65535) : (wire bs).length ≤ 65537 := by
  rw [length_wire]
  omega

theorem writeSync_writes {value : List UInt8} (h : value.length ≤ 65535) :
    (writeSync value).Writes (wire value).length (wire value) := by
  have hval : validateValue value = .ok value.length := by simp [validateValue, h]
  rw [length_wire]
  refine (Enc.writes_lift hval).bind ((Enc.writes_writeAll _ _).bind
    (Enc.Writes.congr ?_ (List.append_nil _)))
  exact (Enc.writes_writeAll _ _).bind (Enc.writes_pure _)

theorem writeSync_rejects {value : List UInt8} (h : ¬ value.length ≤ 65535) :
    (writeSync value).Rejects := by
  refine (Enc.rejects_lift (e := ⟨.outOfRange, "buf len too big"⟩) ?_).bind _
  simp [validateValue, h, fail]

theorem checks_writeSync (value : List UInt8) :
    (writeSync value).Checks (value.length ≤ 65535) (wire value).length (wire value) :=
  Enc.checks_of writeSync_writes writeSync_rejects

/-- A buffer as it is parsed. -/
def ofBytes (bs : List UInt8) : Buff := ⟨bs.length, bs⟩

/-- A buffer as a parser returns it. -/
def Parsed (this : Buff) : Prop := this.len = this.data.length ∧ this.data.length ≤ 65535

section

variable [Target]

def validate (self : Buff) : Exec Unit :=
  debugAssert (self.len == self.data.length) "usize::from(self.len) == self.data.len()"

theorem Parsed.validate_eq {this : Buff} (h : this.Parsed) : this.validate = .ok () := by
  rw [validate, beq_iff_eq.2 h.1, debugAssert_true]

def encodeLen (value : List UInt8) : Exec ℕ := okOr (checkedAdd 2 value.length) .overflow "buff len"

theorem measures_encodeLen (value : List UInt8) :
    Measures (encodeLen value) (wire value).length := by
  rw [length_wire]
  exact measures_checkedAdd _ _ _ _

theorem encodeLen_eq {value : List UInt8} (h : value.length ≤ 65535) :
    encodeLen value = .ok (wire value).length :=
  (measures_encodeLen value).eq_ok ((length_wire_le h).trans_lt (by decide))

def parse (buf : List UInt8) : Exec (Buff × List UInt8) :=
  match buf with
  | hi :: lo :: data => do
    let len := fromBe hi lo
    let (data, rest) ← okOr (splitAtChecked data len) .notEnoughSpace "for len prefix"
    let this : Buff := ⟨len, data⟩
    this.validate
    .ok (this, rest)
  | _ => fail .notEnoughSpace "buf too small"

/-- A buffer is parsed from its length prefix and as many bytes. -/
theorem parse_eq_ok {buf rest : List UInt8} {this : Buff} :
    parse buf = .ok (this, rest) ↔
      buf = wire this.data ++ rest ∧ this.len = this.data.length ∧ this.data.length ≤ 65535 := by
  constructor
  · intro h
    match buf with
    | [] => simp [parse] at h
    | [_] => simp [parse] at h
    | hi :: lo :: tail =>
      simp only [parse, bind_eq_ok, okOr_eq_ok] at h
      obtain ⟨⟨data, rest'⟩, hsplit, ⟨⟩, -, heq⟩ := h
      obtain ⟨rfl, hlen⟩ := splitAtChecked_eq_some.1 hsplit
      obtain ⟨rfl, rfl⟩ : Buff.mk (fromBe hi lo) data = this ∧ rest' = rest := by simpa using heq
      have lt := fromBe_lt hi lo
      refine ⟨?_, hlen.symm, by simp only; omega⟩
      simp only [wire, hlen, beBytes_fromBe, List.cons_append, List.nil_append]
  · rintro ⟨rfl, hlen, hle⟩
    have hbe : fromBe (UInt8.ofNat (this.data.length / 256)) (UInt8.ofNat (this.data.length % 256))
        = this.data.length := fromBe_beBytes (by omega)
    have hsplit : splitAtChecked (this.data ++ rest) this.data.length = some (this.data, rest) :=
      splitAtChecked_eq_some.2 ⟨rfl, rfl⟩
    obtain ⟨len, data⟩ := this
    obtain rfl : len = data.length := hlen
    simp only [wire, beBytes, List.cons_append, List.nil_append, parse, hbe, hsplit, okOr_some,
      ok_bind, validate, beq_self_eq_true, debugAssert_true]

theorem parse_noPanic (buf : List UInt8) : NoPanic (parse buf) := by
  match buf with
  | [] => exact noPanic_fail _ _
  | [_] => exact noPanic_fail _ _
  | hi :: lo :: tail =>
    refine (noPanic_okOr _ _ _).bind fun ⟨data, rest⟩ hsplit => ?_
    obtain ⟨-, hlen⟩ := splitAtChecked_eq_some.1 (okOr_eq_ok.1 hsplit)
    simp only [validate, hlen, beq_self_eq_true, debugAssert_true, ok_bind]
    exact noPanic_ok _

end

end Buff

/-! ## Strings -/

/-- `is_last_two_supplementary`. -/
def isLastTwoSupplementary (c : Char) : Bool :=
  let val := c.val
  let lastBits := val &&& 0xFF
  (lastBits == 0xFE || lastBits == 0xFF) &&
    decide ((0x01 : UInt32) ≤ val >>> 16 ∧ val >>> 16 ≤ (0x10 : UInt32))

/-- `is_valid_char`. -/
def isValidChar (c : Char) : Bool :=
  let v := c.val
  if v = 0x0000 ∨ (0x0001 ≤ v ∧ v ≤ 0x001F) ∨ (0xFDD0 ≤ v ∧ v ≤ 0xFDEF) ∨
      (0xFFFE ≤ v ∧ v ≤ 0xFFFF) then false
  else !isLastTwoSupplementary c

structure MqttStr where
  len : ℕ
  data : String
  deriving DecidableEq, Repr

namespace MqttStr

def validateValue (value : String) : Exec Unit :=
  if !value.toList.all isValidChar then fail .invalid "string contains invalid characters"
  else .ok ()

def writeSync (value : String) : Enc ℕ := do
  validateValue value
  (Buff.writeSync (strBytes value)).mapMsg "writing MQTT string"

/-- The bytes of a string with its length prefix. -/
def wire (s : String) : List UInt8 := Buff.wire (strBytes s)

/-- A string of permitted characters whose length fits the prefix. -/
def Valid (s : String) : Prop := s.toList.all isValidChar = true ∧ (strBytes s).length ≤ 65535

instance (s : String) : Decidable (Valid s) :=
  inferInstanceAs (Decidable (s.toList.all isValidChar = true ∧ (strBytes s).length ≤ 65535))

theorem length_wire (s : String) : (wire s).length = 2 + (strBytes s).length :=
  Buff.length_wire _

theorem length_wire_le {s : String} (h : Valid s) : (wire s).length ≤ 65537 :=
  Buff.length_wire_le h.2

theorem writeSync_writes {value : String} (h : Valid value) :
    (writeSync value).Writes (wire value).length (wire value) := by
  have hval : validateValue value = .ok () := by simp [validateValue, h.1]
  exact (Enc.writes_lift hval).bind ((Buff.writeSync_writes h.2).mapMsg _)

theorem writeSync_rejects {value : String} (h : ¬ Valid value) : (writeSync value).Rejects := by
  by_cases hall : value.toList.all isValidChar = true
  · have hval : validateValue value = .ok () := by simp [validateValue, hall]
    have hlen : ¬ (strBytes value).length ≤ 65535 := fun hlen => h ⟨hall, hlen⟩
    exact (Enc.writes_lift hval).bind_rejects ((Buff.writeSync_rejects hlen).mapMsg _)
  · refine (Enc.rejects_lift (e := ⟨.invalid, "string contains invalid characters"⟩) ?_).bind _
    simp [validateValue, Bool.eq_false_iff.2 hall, fail]

theorem checks_writeSync (value : String) :
    (writeSync value).Checks (Valid value) (wire value).length (wire value) :=
  Enc.checks_of writeSync_writes writeSync_rejects

/-- A string as it is parsed. -/
def ofString (s : String) : MqttStr := ⟨(strBytes s).length, s⟩

/-- A string as a parser returns it. -/
def Parsed (this : MqttStr) : Prop :=
  this.len = (strBytes this.data).length ∧ Valid this.data

section

variable [Target]

def validate (self : MqttStr) : Exec Unit := do
  debugAssert (self.len == (strBytes self.data).length) "usize::from(self.len) == self.data.len()"
  if !self.data.toList.all isValidChar then fail .invalid "string contains invalid characters"
  else .ok ()

theorem Parsed.validate_eq {this : MqttStr} (h : this.Parsed) : this.validate = .ok () := by
  rw [validate, beq_iff_eq.2 h.1, debugAssert_true, ok_bind, h.2.1]
  rfl

def encodeLen (value : String) : Exec ℕ :=
  okOr (checkedAdd 2 (strBytes value).length) .overflow "string length"

theorem measures_encodeLen (value : String) :
    Measures (encodeLen value) (wire value).length := by
  rw [length_wire]
  exact measures_checkedAdd _ _ _ _

theorem encodeLen_eq {value : String} (h : Valid value) :
    encodeLen value = .ok (wire value).length :=
  (measures_encodeLen value).eq_ok ((length_wire_le h).trans_lt (by decide))

def parse (buf : List UInt8) : Exec (MqttStr × List UInt8) := do
  let (buff, rest) ← Buff.parse buf
  let data ← okOr (fromUtf8 buff.data) .invalid "mqtt string"
  let this : MqttStr := ⟨buff.len, data⟩
  this.validate
  .ok (this, rest)

/-- A string is parsed from its length prefix and its UTF-8 bytes. -/
theorem parse_eq_ok {buf rest : List UInt8} {this : MqttStr} :
    parse buf = .ok (this, rest) ↔
      buf = wire this.data ++ rest ∧ this.len = (strBytes this.data).length ∧ Valid this.data := by
  constructor
  · intro h
    simp only [parse, bind_eq_ok, okOr_eq_ok, validate] at h
    obtain ⟨⟨buff, rest'⟩, hbuff, data, hdata, ⟨⟩, ⟨⟨⟩, -, hall⟩, heq⟩ := h
    obtain ⟨rfl, hlen, hle⟩ := Buff.parse_eq_ok.1 hbuff
    have hbytes := fromUtf8_eq_some.1 hdata
    simp only at hall hdata
    split_ifs at hall with hc
    · simp at hall
    · obtain ⟨rfl, rfl⟩ : MqttStr.mk buff.len data = this ∧ rest' = rest := by simpa using heq
      have hall : data.toList.all isValidChar = true := by simpa using hc
      refine ⟨?_, ?_, hall, ?_⟩
      · rw [wire, hbytes]
      · rw [hbytes]
        exact hlen
      · rw [hbytes]
        exact hle
  · obtain ⟨len, data⟩ := this
    rintro ⟨rfl, hlen, hall, hle⟩
    obtain rfl : len = (strBytes data).length := hlen
    have hbuff : Buff.parse (wire data ++ rest) =
        .ok (⟨(strBytes data).length, strBytes data⟩, rest) := Buff.parse_eq_ok.2 ⟨rfl, rfl, hle⟩
    have hall : data.toList.all isValidChar = true := hall
    simp only [parse, hbuff, ok_bind, fromUtf8_strBytes, okOr_some, validate, beq_self_eq_true,
      debugAssert_true, hall, Bool.not_true, Bool.false_eq_true, if_false]

theorem parse_noPanic (buf : List UInt8) : NoPanic (parse buf) := by
  refine (Buff.parse_noPanic buf).bind fun ⟨buff, rest⟩ hbuff => ?_
  obtain ⟨-, hlen, -⟩ := Buff.parse_eq_ok.1 hbuff
  refine (noPanic_okOr _ _ _).bind fun data hdata => ?_
  have hbytes := fromUtf8_eq_some.1 (okOr_eq_ok.1 hdata)
  have hassert : (buff.len == (strBytes data).length) = true := by
    rw [hbytes]
    exact beq_iff_eq.2 hlen
  simp only [validate, hassert, debugAssert_true, ok_bind]
  exact (noPanic_ite _ _ _ _).bind fun _ _ => noPanic_ok _

end

end MqttStr

/-! ## Packet identifiers -/

/-- `NonZero<u16>`. -/
structure NonZeroU16 where
  val : UInt16
  ne_zero : val ≠ 0
  deriving DecidableEq

structure PacketId where
  pkid : UInt16
  deriving DecidableEq, Repr

namespace PacketId

/-- The bytes of a packet identifier. -/
def wire (pkid : UInt16) : List UInt8 := beBytes pkid.toNat

theorem length_wire (pkid : UInt16) : (wire pkid).length = 2 := rfl

def read (self : PacketId) : Exec NonZeroU16 :=
  if h : self.pkid ≠ 0 then .ok ⟨self.pkid, h⟩
  else .error (.panicked "packet id must be a non zero u16")

def validateValue (_value : NonZeroU16) : Exec Unit := .ok ()

def validate (self : PacketId) : Exec Unit :=
  if self.pkid = 0 then fail .invalid "packet id cannot be 0" else .ok ()

def encodeLen (_value : NonZeroU16) : Exec ℕ := .ok 2

def writeSync (value : NonZeroU16) : Enc ℕ := do
  validateValue value
  Enc.writeAll (beBytes value.val.toNat) "writing packet ID"
  pure 2

def parse (buf : List UInt8) : Exec (PacketId × List UInt8) :=
  match buf with
  | hi :: lo :: rest => do
    let pkid : PacketId := ⟨UInt16.ofNat (fromBe hi lo)⟩
    pkid.validate
    .ok (pkid, rest)
  | _ => fail .notEnoughSpace "couldn't parse packet id"

theorem writeSync_writes (value : NonZeroU16) :
    (writeSync value).Writes (wire value.val).length (wire value.val) := by
  refine (Enc.writes_lift rfl).bind (Enc.Writes.congr ?_ (List.append_nil _))
  exact (Enc.writes_writeAll _ _).bind (Enc.writes_pure 2)

theorem validate_eq_ok {this : PacketId} : this.validate = .ok () ↔ this.pkid ≠ 0 := by
  unfold validate
  split_ifs with h <;> simp [h]

theorem parse_eq_ok {buf rest : List UInt8} {this : PacketId} :
    parse buf = .ok (this, rest) ↔ buf = wire this.pkid ++ rest ∧ this.pkid ≠ 0 := by
  constructor
  · intro h
    match buf with
    | [] => simp [parse] at h
    | [_] => simp [parse] at h
    | hi :: lo :: tail =>
      simp only [parse, bind_eq_ok, validate] at h
      obtain ⟨⟨⟩, hval, heq⟩ := h
      obtain ⟨rfl, rfl⟩ : PacketId.mk (UInt16.ofNat (fromBe hi lo)) = this ∧ tail = rest := by
        simpa using heq
      split_ifs at hval with h0
      · simp at hval
      · have lt := fromBe_lt hi lo
        have hnat : (UInt16.ofNat (fromBe hi lo)).toNat = fromBe hi lo := by
          rw [UInt16.toNat_ofNat']
          omega
        refine ⟨?_, h0⟩
        simp only [wire, hnat, beBytes_fromBe, List.cons_append, List.nil_append]
  · rintro ⟨rfl, h0⟩
    have hbe := fromBe_beBytes this.pkid.toNat_lt
    simp only [wire, beBytes, List.cons_append, List.nil_append, parse, hbe, UInt16.ofNat_toNat,
      validate, if_neg h0, ok_bind]

theorem parse_noPanic (buf : List UInt8) : NoPanic (parse buf) := by
  match buf with
  | [] => exact noPanic_fail _ _
  | [_] => exact noPanic_fail _ _
  | hi :: lo :: tail => exact (noPanic_ite _ _ _ _).bind fun _ _ => noPanic_ok _

/-- A parsed packet identifier can be read. -/
theorem read_eq {this : PacketId} (h : this.pkid ≠ 0) : this.read = .ok ⟨this.pkid, h⟩ := by
  simp [read, h]

end PacketId

/-! ## Topics -/

/-- `memchr2_iter(needle1, needle2, haystack)`. -/
def memchr2Iter (needle1 needle2 : UInt8) (haystack : List UInt8) : List ℕ :=
  (List.range haystack.length).filter fun i =>
    haystack[i]? == some needle1 || haystack[i]? == some needle2

/-- `has_valid_wildcard` with the search of the `memchr` crate left open. -/
def hasValidWildcardBy (iter : UInt8 → UInt8 → List UInt8 → List ℕ) (topic : String) : Bool :=
  let bytes := strBytes topic
  (iter 43 35 bytes).all fun wildIdx =>
    let isValidPre :=
      match wildIdx with
      | 0 => true
      | idx + 1 => bytes[idx]?.all (· == 47)
    let isValidNext := bytes[wildIdx + 1]?.all fun c => c == 47 && bytes[wildIdx]? == some 43
    isValidPre && isValidNext

def hasValidWildcard (topic : String) : Bool := hasValidWildcardBy memchr2Iter topic

/-! ## There and back -/

/-- An encoder of `α` and a decoder of `β`, which is a value of `α` as it lies in memory. -/
structure FieldCodec {α β : Type} (writeSync : α → Enc ℕ) (encodeLen : α → Exec ℕ)
    (parse : List UInt8 → Exec (β × List UInt8)) (of : α → β) (data : β → α) (Valid : α → Prop) :
    Prop where
  ok_iff : ∀ (value : α) (w : List UInt8),
    (∃ n, ((writeSync value).run w).1 = .ok n) ↔ Valid value
  reads_back : ∀ (value : α) (w w' : List UInt8) (n : ℕ),
    (writeSync value).run w = (.ok n, w') → ∃ out, w' = w ++ out ∧ n = out.length ∧
      encodeLen value = .ok n ∧ ∀ rest, parse (out ++ rest) = .ok (of value, rest)
  writes_back : ∀ (b rest : List UInt8) (this : β), parse b = .ok (this, rest) →
    ∀ w : List UInt8, ∃ n out, (writeSync (data this)).run w = (.ok n, w ++ out) ∧ out ++ rest = b

/-- A field with one written form that both sides know. -/
theorem fieldCodec_of_wire [Target] {α β : Type} {writeSync : α → Enc ℕ} {encodeLen : α → Exec ℕ}
    {parse : List UInt8 → Exec (β × List UInt8)} {of : α → β} {data : β → α} {Valid : α → Prop}
    (wire : α → List UInt8)
    (checks : ∀ value, (writeSync value).Checks (Valid value) (wire value).length (wire value))
    (measures : ∀ value, Measures (encodeLen value) (wire value).length)
    (short : ∀ value, Valid value → (wire value).length < 2 ^ 32)
    (parse_of : ∀ value rest, Valid value → parse (wire value ++ rest) = .ok (of value, rest))
    (of_parse : ∀ b rest this, parse b = .ok (this, rest) →
      b = wire (data this) ++ rest ∧ Valid (data this)) :
    FieldCodec writeSync encodeLen parse of data Valid where
  ok_iff value w := by
    rw [Enc.run_vec]
    constructor
    · rintro ⟨n, hn⟩
      exact ((checks value).of_ok hn).1
    · intro valid
      exact ⟨_, ((checks value).writes valid).result_eq⟩
  reads_back value w w' n hrun := by
    rw [Enc.run_vec, Prod.mk.injEq] at hrun
    obtain ⟨hresult, rfl⟩ := hrun
    obtain ⟨valid, rfl, hout⟩ := (checks value).of_ok hresult
    rw [hout]
    exact ⟨wire value, rfl, rfl, (measures value).eq_ok (short value valid),
      fun rest => parse_of value rest valid⟩
  writes_back b rest this hparse w := by
    obtain ⟨rfl, valid⟩ := of_parse b rest this hparse
    exact ⟨_, _, ((checks (data this)).writes valid).run_vec w, rfl⟩

/-- Strings and buffers are coded without loss, and their two sides agree on what is valid. -/
theorem mqttStr_buff_codec [Target] :
    FieldCodec MqttStr.writeSync MqttStr.encodeLen MqttStr.parse MqttStr.ofString MqttStr.data
      (fun s => (∀ c ∈ s.toList, isValidChar c = true) ∧ (strBytes s).length ≤ 65535) ∧
    FieldCodec Buff.writeSync Buff.encodeLen Buff.parse Buff.ofBytes Buff.data
      (fun bs => bs.length ≤ 65535) := by
  constructor
  · have valid_iff (s : String) : MqttStr.Valid s ↔
        (∀ c ∈ s.toList, isValidChar c = true) ∧ (strBytes s).length ≤ 65535 := by
      rw [MqttStr.Valid, List.all_eq_true]
    refine fieldCodec_of_wire MqttStr.wire (fun s => ?_) MqttStr.measures_encodeLen
      (fun s valid => ?_) (fun s rest valid => ?_) fun b rest this hparse => ?_
    · exact (MqttStr.checks_writeSync s).congr (valid_iff s) rfl rfl
    · exact (MqttStr.length_wire_le ((valid_iff s).2 valid)).trans_lt (by decide)
    · exact MqttStr.parse_eq_ok.2 ⟨rfl, rfl, (valid_iff s).2 valid⟩
    · obtain ⟨hb, -, valid⟩ := MqttStr.parse_eq_ok.1 hparse
      exact ⟨hb, (valid_iff _).1 valid⟩
  · refine fieldCodec_of_wire Buff.wire Buff.checks_writeSync Buff.measures_encodeLen
      (fun bs valid => ?_) (fun bs rest valid => Buff.parse_eq_ok.2 ⟨rfl, rfl, valid⟩)
      fun b rest this hparse => ?_
    · exact (Buff.length_wire_le valid).trans_lt (by decide)
    · obtain ⟨hb, -, valid⟩ := Buff.parse_eq_ok.1 hparse
      exact ⟨hb, valid⟩

end Mcutt
