import Mcutt.Fixed.RemainingLength

/-!
# The fixed header

`common/fixed/mod.rs` and `common/fixed/builder.rs`: the control packet type and its flags in one
byte, then the remaining length.  A header is read in two ways, by `FixedHeaderSlice::parse`,
which the packet parsers use, and by `FixedHeader::next_frame`, by which the reader cuts the
stream; both are shown to take a byte and a terminated remaining length
(`FixedHeaderSlice.parse_eq_ok`, `nextFrame_eq_some`).
-/

namespace Mcutt

/-! ## Packet types and flags -/

inductive ControlPacketType where
  | connect
  | connAck
  | publish
  | pubAck
  | pubRec
  | pubRel
  | pubComp
  | subscribe
  | subAck
  | unsubscribe
  | unsubAck
  | pingReq
  | pingResp
  | disconnect
  deriving DecidableEq, Repr

/-- The flags of a packet type.  All four bits are declared, so a value is any four bits and the
complement is taken within them. -/
structure TypeFlags where
  bits : BitVec 4
  deriving DecidableEq, Repr

namespace TypeFlags

def publishDup : TypeFlags := ⟨0b1000⟩
def publishQos1 : TypeFlags := ⟨0b0010⟩
def publishQos2 : TypeFlags := ⟨0b0100⟩
def publishRetain : TypeFlags := ⟨0b0001⟩
def pubrel : TypeFlags := ⟨0b0010⟩
def subscribe : TypeFlags := ⟨0b0010⟩
def unsubscribe : TypeFlags := ⟨0b0010⟩
def empty : TypeFlags := ⟨0⟩

instance : OrOp TypeFlags := ⟨fun a b => ⟨a.bits ||| b.bits⟩⟩
instance : AndOp TypeFlags := ⟨fun a b => ⟨a.bits &&& b.bits⟩⟩
instance : Complement TypeFlags := ⟨fun a => ⟨~~~a.bits⟩⟩

def isEmpty (f : TypeFlags) : Bool := f.bits == 0

def intersects (f g : TypeFlags) : Bool := !(f &&& g).isEmpty

def contains (f g : TypeFlags) : Bool := (f &&& g) == g

/-- `flags.bits()` as the `u8` it is. -/
def toU8 (f : TypeFlags) : UInt8 := UInt8.ofBitVec (f.bits.setWidth 8)

/-- `TypeFlags::from_bits_retain`, only ever applied to a byte masked by `0x0f`. -/
def fromBitsRetain (b : UInt8) : TypeFlags := ⟨b.toBitVec.setWidth 4⟩

/-- `TypeFlags::from_bits`. -/
def fromBits (b : UInt8) : Option TypeFlags := if b ≤ 0x0f then some (fromBitsRetain b) else none

end TypeFlags

/-- `FixedHeader::validate_type_flags`. -/
def validateTypeFlags (pkType : ControlPacketType) (flags : TypeFlags) : Exec Unit :=
  match pkType with
  | .publish => .ok ()
  | .pubRel => if flags ≠ TypeFlags.pubrel then fail .invalid "pubrel flags" else .ok ()
  | .subscribe => if flags ≠ TypeFlags.subscribe then fail .invalid "subscribe flags" else .ok ()
  | .unsubscribe =>
    if flags ≠ TypeFlags.unsubscribe then fail .invalid "unsubscribe flags" else .ok ()
  | _ => if !flags.isEmpty then fail .invalid "non empty flags" else .ok ()

namespace ControlPacketType

/-- `impl From<ControlPacketType> for u8`. -/
def toU8 : ControlPacketType → UInt8
  | connect => 1
  | connAck => 2
  | publish => 3
  | pubAck => 4
  | pubRec => 5
  | pubRel => 6
  | pubComp => 7
  | subscribe => 8
  | subAck => 9
  | unsubscribe => 10
  | unsubAck => 11
  | pingReq => 12
  | pingResp => 13
  | disconnect => 14

/-- `impl TryFrom<u8> for ControlPacketType`. -/
def tryFrom (value : UInt8) : Exec ControlPacketType :=
  match value with
  | 1 => .ok connect
  | 2 => .ok connAck
  | 3 => .ok publish
  | 4 => .ok pubAck
  | 5 => .ok pubRec
  | 6 => .ok pubRel
  | 7 => .ok pubComp
  | 8 => .ok subscribe
  | 9 => .ok subAck
  | 10 => .ok unsubscribe
  | 11 => .ok unsubAck
  | 12 => .ok pingReq
  | 13 => .ok pingResp
  | 14 => .ok disconnect
  | _ => fail .invalid "control packet type"

def parse (typeAndFlags : UInt8) : Exec (ControlPacketType × TypeFlags) := do
  let pkType ← tryFrom (typeAndFlags >>> 4)
  let flags ← okOr (TypeFlags.fromBits (typeAndFlags &&& 0b00001111)) .invalid
    "control packet flags"
  validateTypeFlags pkType flags
  .ok (pkType, flags)

end ControlPacketType

/-- `FixedHeader::encode_type_and_flags`. -/
def encodeTypeAndFlags (pkType : ControlPacketType) (flags : TypeFlags) : UInt8 :=
  (pkType.toU8 <<< 4) ||| flags.toU8

/-! ## The header -/

structure FixedHeader where
  typeAndFlags : UInt8
  remainingLength : RemainingLength
  deriving DecidableEq, Repr

namespace FixedHeader

def packetType (self : FixedHeader) : Exec ControlPacketType :=
  match ControlPacketType.tryFrom (self.typeAndFlags >>> 4) with
  | .ok t => .ok t
  | .error _ =>
    .error (.panicked "the fixed header must must be valid when constructed or parsed")

def flags (self : FixedHeader) : TypeFlags := TypeFlags.fromBitsRetain (self.typeAndFlags &&& 0x0f)

/-- `impl Parsed for FixedHeaderSlice` and `for FixedHeaderArray`. -/
def validate (self : FixedHeader) : Exec Unit := do
  let _ ← ControlPacketType.parse self.typeAndFlags
  self.remainingLength.validate

section

variable [Target]

/-- `FixedHeader::next_frame`. -/
def nextFrame (buff : List UInt8) : Exec (Option ℕ) :=
  match buff with
  | [] => .ok none
  | _ :: buff => do
    let flags ← RemainingLength.countContinueFlags buff
    let remBytes := 1 + flags
    if buff.length < remBytes then .ok none
    else
      let remLen ← RemainingLength.readFromBuf (buff.take remBytes)
      let remLen ← okOr (if remLen ≤ usizeMax then some remLen else none) .outOfRange
        "remaining length as usize"
      okOr ((checkedAdd (1 + remBytes) remLen).map some) .overflow "next frame"

end

end FixedHeader

structure FixedHeaderBuilder where
  packetType : ControlPacketType
  flags : TypeFlags
  remainingLength : UInt32
  deriving DecidableEq, Repr

namespace FixedHeaderSlice

/-- `impl Input<FixedHeaderBuilder> for FixedHeaderSlice`. -/
def validateValue (value : FixedHeaderBuilder) : Exec Unit := do
  validateTypeFlags value.packetType value.flags
  let _ ← RemainingLength.validateValue value.remainingLength
  .ok ()

section

variable [Target]

def encodeLen (value : FixedHeaderBuilder) : Exec ℕ := do
  let size ← RemainingLength.encodeLen value.remainingLength
  okOr (checkedAdd size 1) .overflow "fixed header encode len"

def writeSync (value : FixedHeaderBuilder) : Enc ℕ := do
  validateValue value
  let toWrite ← encodeLen value
  let typeAndFlags := encodeTypeAndFlags value.packetType value.flags
  Enc.writeAll [typeAndFlags] "writing fixed header type and flags"
  let _ ← RemainingLength.writeSync value.remainingLength
  pure toWrite

def parse (buf : List UInt8) : Exec (FixedHeader × List UInt8) :=
  match buf with
  | [] => fail .notEnoughSpace "fixed header"
  | typeAndFlags :: this => do
    let _ ← ControlPacketType.parse typeAndFlags
    let (remainingLength, rest) ← RemainingLength.parse this
    let bytes := remainingLength.len.length
    let (this, _) ← okOr (splitAtChecked this bytes) .notEnoughSpace
      "fixed header split after remaining length"
    .ok (⟨typeAndFlags, ⟨this⟩⟩, rest)

end

end FixedHeaderSlice

namespace FixedHeaderArray

/-- `FixedHeaderArray::<N>::parse`. -/
def parse (n : ℕ) (buf : List UInt8) : Exec (FixedHeader × List UInt8) :=
  match buf with
  | [] => fail .notEnoughSpace "fixed header"
  | typeAndFlags :: tail =>
    if tail.length < n then fail .notEnoughSpace "fixed header"
    else do
      let this : FixedHeader := ⟨typeAndFlags, ⟨tail.take n⟩⟩
      this.validate
      .ok (this, tail.drop n)

end FixedHeaderArray

namespace FixedHeaderBuilder

def defaultFlags : ControlPacketType → TypeFlags
  | .pubRel => TypeFlags.pubrel
  | .subscribe => TypeFlags.subscribe
  | .unsubscribe => TypeFlags.unsubscribe
  | _ => TypeFlags.empty

def withFlags (packetType : ControlPacketType) (flags : TypeFlags) : FixedHeaderBuilder :=
  ⟨packetType, flags, 0⟩

def new (packetType : ControlPacketType) : FixedHeaderBuilder :=
  withFlags packetType (defaultFlags packetType)

/-- `FixedHeaderBuilder::remaining_length`. -/
def withRemainingLength (self : FixedHeaderBuilder) (remainingLength : ℕ) :
    Exec FixedHeaderBuilder :=
  if remainingLength ≤ RemainingLength.u32Max then
    .ok { self with remainingLength := UInt32.ofNat remainingLength }
  else fail .outOfRange "remaining length"

def writeSync [Target] (self : FixedHeaderBuilder) : Enc ℕ := FixedHeaderSlice.writeSync self

end FixedHeaderBuilder

/-! ## The type byte -/

/-- A property of all bytes, checked on the numbers below 256. -/
theorem byte_forall {p : UInt8 → Prop} (h : ∀ n : Fin 256, p (UInt8.ofNat n)) (b : UInt8) :
    p b := by
  have := h ⟨b.toNat, b.toNat_lt⟩
  rwa [UInt8.ofNat_toNat] at this

namespace ControlPacketType

/-- What the encoder packs into the type byte is what the decoder reads from it. -/
theorem parse_encode (t : ControlPacketType) (f : TypeFlags) (h : validateTypeFlags t f = .ok ()) :
    parse (encodeTypeAndFlags t f) = .ok (t, f) := by
  obtain ⟨bits⟩ := f
  revert bits
  cases t <;> decide

theorem encode_of_parse {b : UInt8} {t : ControlPacketType} {f : TypeFlags}
    (h : parse b = .ok (t, f)) :
    encodeTypeAndFlags t f = b ∧ validateTypeFlags t f = .ok () ∧
      f = TypeFlags.fromBitsRetain (b &&& 0x0f) ∧ tryFrom (b >>> 4) = .ok t := by
  have all : ∀ b : UInt8, (match parse b with
      | .ok (t, f) => decide (encodeTypeAndFlags t f = b ∧ validateTypeFlags t f = .ok () ∧
          f = TypeFlags.fromBitsRetain (b &&& 0x0f) ∧ tryFrom (b >>> 4) = .ok t)
      | .error _ => true) = true := byte_forall (by decide +kernel)
  have := all b
  rw [h] at this
  exact of_decide_eq_true this

end ControlPacketType

theorem validateTypeFlags_default (t : ControlPacketType) :
    validateTypeFlags t (FixedHeaderBuilder.defaultFlags t) = .ok () := by
  cases t <;> rfl

theorem validateTypeFlags_noPanic (t : ControlPacketType) (f : TypeFlags) :
    NoPanic (validateTypeFlags t f) := by
  cases t <;> simp only [validateTypeFlags] <;> (try split_ifs) <;>
    first | exact noPanic_fail _ _ | exact noPanic_ok _

theorem ControlPacketType.parse_noPanic (b : UInt8) : NoPanic (parse b) := by
  have htry : NoPanic (tryFrom (b >>> 4)) := by
    unfold tryFrom
    split <;> first | exact noPanic_fail _ _ | exact noPanic_ok _
  refine htry.bind fun t _ => (noPanic_okOr _ _ _).bind fun f _ => ?_
  exact (validateTypeFlags_noPanic t f).bind fun _ _ => noPanic_ok _

namespace FixedHeader

/-- The header as the encoder writes it. -/
def bytes (h : FixedHeader) : List UInt8 := h.typeAndFlags :: h.remainingLength.len

/-- What both decoders of a header establish of the type byte and of the length bytes. -/
structure Valid (h : FixedHeader) (t : ControlPacketType) (f : TypeFlags) : Prop where
  type : ControlPacketType.parse h.typeAndFlags = .ok (t, f)
  terminated : Varint.Terminated h.remainingLength.len
  length_le : h.remainingLength.len.length ≤ 4

theorem Valid.packetType_eq {h : FixedHeader} {t : ControlPacketType} {f : TypeFlags}
    (valid : h.Valid t f) : h.packetType = .ok t := by
  obtain ⟨-, -, -, htry⟩ := ControlPacketType.encode_of_parse valid.type
  simp [packetType, htry]

theorem Valid.flags_eq {h : FixedHeader} {t : ControlPacketType} {f : TypeFlags}
    (valid : h.Valid t f) : h.flags = f :=
  (ControlPacketType.encode_of_parse valid.type).2.2.1.symm

section

variable [Target]

theorem Valid.readLen_eq {h : FixedHeader} {t : ControlPacketType} {f : TypeFlags}
    (valid : h.Valid t f) :
    h.remainingLength.readLen = .ok (Varint.value h.remainingLength.len) :=
  RemainingLength.readLen_eq valid.length_le

/-! ## Cutting the stream -/

theorem nextFrame_cons (t : UInt8) (l : List UInt8) :
    nextFrame (t :: l) =
      if 4 ≤ (l.takeWhile Varint.more).length then
        fail .invalid "remaining length continuation flags require more than 4 bytes"
      else if l.length ≤ (l.takeWhile Varint.more).length then .ok none
      else .ok (some (2 + (l.takeWhile Varint.more).length +
        Varint.value (l.take ((l.takeWhile Varint.more).length + 1)))) := by
  simp only [nextFrame, RemainingLength.countContinueFlags_eq]
  generalize hk : (l.takeWhile Varint.more).length = k
  by_cases h : 4 ≤ k
  · simp [h]
  · rw [if_neg h, if_neg h, ok_bind]
    by_cases hl : l.length ≤ k
    · rw [if_pos (by omega), if_pos hl]
    · have hlen : (l.take (1 + k)).length ≤ 4 := by
        rw [List.length_take]
        omega
      have lt := Varint.value_lt (l.take (1 + k))
      have pow := RemainingLength.pow_length_le hlen
      rw [if_neg (by omega), if_neg hl, RemainingLength.readFromBuf_eq hlen, ok_bind,
        if_pos (le_usizeMax (by omega)), okOr_some, ok_bind,
        checkedAdd_of_lt (by omega), Option.map_some, okOr_some, Nat.add_comm k 1]
      congr 2
      omega

/-- A frame is announced once its type byte and its whole remaining length are there. -/
theorem nextFrame_eq_some {b : List UInt8} {n : ℕ} :
    nextFrame b = .ok (some n) ↔ ∃ t r rest, b = t :: (r ++ rest) ∧ Varint.Terminated r ∧
      r.length ≤ 4 ∧ n = 1 + r.length + Varint.value r := by
  constructor
  · intro h
    cases b with
    | nil => simp [nextFrame] at h
    | cons t l =>
      rw [nextFrame_cons] at h
      split_ifs at h with h₁ h₂
      · exact absurd h (by simp)
      · simp at h
      · have hlen : (l.take ((l.takeWhile Varint.more).length + 1)).length =
            (l.takeWhile Varint.more).length + 1 := by
          rw [List.length_take]
          omega
        refine ⟨t, l.take ((l.takeWhile Varint.more).length + 1),
          l.drop ((l.takeWhile Varint.more).length + 1), by rw [List.take_append_drop],
          Varint.terminated_take (by omega), by omega, ?_⟩
        simp only [Except.ok.injEq, Option.some.injEq] at h
        omega
  · rintro ⟨t, r, rest, rfl, hterm, hle, rfl⟩
    have hcount := hterm.length_takeWhile rest
    have hpos := hterm.length_pos
    rw [nextFrame_cons, if_neg (by omega), if_neg (by rw [List.length_append]; omega), hcount,
      List.take_left]
    congr 2
    omega

theorem nextFrame_eq_none {b : List UInt8} :
    nextFrame b = .ok none ↔ b = [] ∨
      ∃ t l, b = t :: l ∧ (l.takeWhile Varint.more).length = l.length ∧ l.length ≤ 3 := by
  cases b with
  | nil => simp [nextFrame]
  | cons t l =>
    have hle : (l.takeWhile Varint.more).length ≤ l.length := (List.takeWhile_sublist _).length_le
    rw [nextFrame_cons]
    split_ifs with h₁ h₂
    · apply iff_of_false (by simp)
      rintro (h | ⟨t', l', h, heq, hl⟩)
      · simp at h
      · obtain ⟨rfl, rfl⟩ := List.cons.inj h
        omega
    · exact iff_of_true rfl (Or.inr ⟨t, l, rfl, by omega, by omega⟩)
    · apply iff_of_false (by simp)
      rintro (h | ⟨t', l', h, heq, hl⟩)
      · simp at h
      · obtain ⟨rfl, rfl⟩ := List.cons.inj h
        omega

theorem nextFrame_eq_error {b : List UInt8} {e : Fault} :
    nextFrame b = .error e ↔
      e = .err ⟨.invalid, "remaining length continuation flags require more than 4 bytes"⟩ ∧
        ∃ t l, b = t :: l ∧ 4 ≤ (l.takeWhile Varint.more).length := by
  cases b with
  | nil => simp [nextFrame]
  | cons t l =>
    rw [nextFrame_cons]
    split_ifs with h₁ h₂
    · simp [fail, h₁, eq_comm]
    · simp [h₁]
    · simp [h₁]

/-- The announcement does not change when more bytes arrive. -/
theorem nextFrame_append {b : List UInt8} {n : ℕ} (h : nextFrame b = .ok (some n))
    (e : List UInt8) : nextFrame (b ++ e) = .ok (some n) := by
  obtain ⟨t, r, rest, rfl, hterm, hle, rfl⟩ := nextFrame_eq_some.1 h
  exact nextFrame_eq_some.2 ⟨t, r, rest ++ e, by simp, hterm, hle, rfl⟩

theorem nextFrame_error_append {b : List UInt8} {f : Fault} (h : nextFrame b = .error f)
    (e : List UInt8) : nextFrame (b ++ e) = .error f := by
  obtain ⟨rfl, t, l, rfl, hl⟩ := nextFrame_eq_error.1 h
  refine nextFrame_eq_error.2 ⟨rfl, t, l ++ e, rfl, ?_⟩
  rw [List.takeWhile_append]
  split_ifs
  · rw [List.length_append]
    have : (l.takeWhile Varint.more).length ≤ l.length := (List.takeWhile_sublist _).length_le
    omega
  · exact hl

theorem length_lt_of_nextFrame_none {b : List UInt8} (h : nextFrame b = .ok none) :
    b.length < 5 := by
  rcases nextFrame_eq_none.1 h with rfl | ⟨t, l, rfl, -, hl⟩
  · simp
  · simp only [List.length_cons]
    omega

/-- The length of the fixed header in front of `b`, up to the first byte of the remaining length
without a continuation flag. -/
def headerLength (b : List UInt8) : ℕ := (b.tail.takeWhile Varint.more).length + 2

omit [Target] in
theorem headerLength_cons {r : List UInt8} (hterm : Varint.Terminated r) (t : UInt8)
    (rest : List UInt8) : headerLength (t :: (r ++ rest)) = r.length + 1 := by
  have := hterm.length_takeWhile rest
  rw [headerLength, List.tail_cons]
  omega

theorem headerLength_append {b : List UInt8} {n : ℕ} (h : nextFrame b = .ok (some n))
    (e : List UInt8) : headerLength (b ++ e) = headerLength b := by
  obtain ⟨t, r, rest, rfl, hterm, -, rfl⟩ := nextFrame_eq_some.1 h
  rw [List.cons_append, List.append_assoc, headerLength_cons hterm, headerLength_cons hterm]

/-- A header has room in the window, is inside its frame and is there once it is announced. -/
theorem headerLength_le {b : List UInt8} {n : ℕ} (h : nextFrame b = .ok (some n)) :
    headerLength b ≤ 5 ∧ headerLength b ≤ n ∧ headerLength b ≤ b.length := by
  obtain ⟨t, r, rest, rfl, hterm, hle, rfl⟩ := nextFrame_eq_some.1 h
  rw [headerLength_cons hterm]
  simp only [List.length_cons, List.length_append]
  omega

/-- The announcement comes with the last byte of the header. -/
theorem nextFrame_take {b : List UInt8} {n : ℕ} (h : nextFrame b = .ok (some n)) (k : ℕ) :
    nextFrame (b.take k) = .ok (if headerLength b ≤ k then some n else none) := by
  obtain ⟨t, r, rest, rfl, hterm, hle, rfl⟩ := nextFrame_eq_some.1 h
  rw [headerLength_cons hterm]
  split_ifs with hk
  · obtain ⟨j, rfl⟩ : ∃ j, k = j + 1 := ⟨k - 1, by omega⟩
    refine nextFrame_eq_some.2 ⟨t, r, rest.take (j - r.length), ?_, hterm, hle, rfl⟩
    rw [List.take_succ_cons, List.take_append, List.take_of_length_le (by omega)]
  · apply nextFrame_eq_none.2
    cases k with
    | zero => exact .inl rfl
    | succ j =>
      have hcount := hterm.length_takeWhile []
      rw [List.append_nil] at hcount
      refine .inr ⟨t, r.take j, ?_, ?_, ?_⟩
      · rw [List.take_succ_cons, List.take_append_of_le_length (by omega)]
      · rw [← List.take_takeWhile, List.length_take, List.length_take]
        omega
      · rw [List.length_take]
        omega

/-- `debug_assert_eq!(fixed.packet_type(), t)`. -/
def assertPacketType (self : FixedHeader) (t : ControlPacketType) : Exec Unit :=
  if Target.debugAssertions then do
    let packetType ← self.packetType
    if packetType = t then .ok () else .error (.panicked "assertion `left == right` failed")
  else .ok ()

theorem Valid.assertPacketType_eq_ok {h : FixedHeader} {t t' : ControlPacketType} {f : TypeFlags}
    (valid : h.Valid t f) :
    h.assertPacketType t' = .ok () ↔ (Target.debugAssertions = true → t = t') := by
  unfold assertPacketType
  cases Target.debugAssertions with
  | false => simp
  | true =>
    rw [valid.packetType_eq]
    by_cases ht : t = t' <;> simp [ht]

end

end FixedHeader

/-! ## Encoding and decoding a header -/

/-- The bytes of a header announcing `n` bytes. -/
def headerWire (t : ControlPacketType) (f : TypeFlags) (n : ℕ) : List UInt8 :=
  encodeTypeAndFlags t f :: RemainingLength.wire n

theorem length_headerWire (t : ControlPacketType) (f : TypeFlags) (n : ℕ) :
    (headerWire t f n).length = RemainingLength.width n + 1 := by
  simp [headerWire, RemainingLength.length_wire]

section

variable [Target]

theorem FixedHeaderSlice.writeSync_writes (value : FixedHeaderBuilder)
    (hflags : validateTypeFlags value.packetType value.flags = .ok ())
    (hlen : value.remainingLength.toNat ≤ 268435455) :
    (writeSync value).Writes (RemainingLength.width value.remainingLength.toNat + 1)
      (headerWire value.packetType value.flags value.remainingLength.toNat) := by
  have hval : validateValue value = .ok () := by
    simp [validateValue, hflags, RemainingLength.validateValue, RemainingLength.lenFromU32_eq hlen]
  have hsize : encodeLen value = .ok (RemainingLength.width value.remainingLength.toNat + 1) := by
    have := RemainingLength.width_le value.remainingLength.toNat
    simp only [encodeLen, RemainingLength.encodeLen, RemainingLength.lenFromU32_eq hlen, ok_bind]
    rw [checkedAdd_of_lt (by omega), okOr_some]
  refine (Enc.writes_lift hval).bind ((Enc.writes_lift hsize).bind
    ((Enc.writes_writeAll _ _).bind (Enc.Writes.congr ?_ (List.append_nil _))))
  exact (RemainingLength.writeSync_writes hlen).bind (Enc.writes_pure _)

theorem FixedHeaderSlice.writeSync_rejects {value : FixedHeaderBuilder}
    (h : validateValue value = fail .outOfRange "remaining length") :
    (writeSync value).Rejects := (Enc.rejects_lift h).bind _

/-- The type byte is a `write_all` of its own. -/
theorem FixedHeaderSlice.writeSync_opens (value : FixedHeaderBuilder) :
    (writeSync value).Opens [encodeTypeAndFlags value.packetType value.flags] :=
  Enc.opens_lift_bind fun _ _ => Enc.opens_lift_bind fun _ _ => Enc.opens_writeAll_bind _ _ _

/-- `FixedHeaderBuilder::…(t).remaining_length(n)?.write_sync(writer)?`, as every packet starts. -/
def writeHeader (builder : FixedHeaderBuilder) (n : ℕ) : Enc ℕ := do
  let header ← builder.withRemainingLength n
  header.writeSync

theorem writeHeader_writes {builder : FixedHeaderBuilder} {n : ℕ}
    (hflags : validateTypeFlags builder.packetType builder.flags = .ok ()) (hn : n ≤ 268435455) :
    (writeHeader builder n).Writes (RemainingLength.width n + 1)
      (headerWire builder.packetType builder.flags n) := by
  have hbuild : builder.withRemainingLength n =
      .ok { builder with remainingLength := UInt32.ofNat n } := by
    rw [FixedHeaderBuilder.withRemainingLength, if_pos (by unfold RemainingLength.u32Max; omega)]
  have hnat : (UInt32.ofNat n).toNat = n := by
    rw [UInt32.toNat_ofNat']
    omega
  have hle : (UInt32.ofNat n).toNat ≤ 268435455 := by rwa [hnat]
  have hwrites := FixedHeaderSlice.writeSync_writes
    { builder with remainingLength := UInt32.ofNat n } hflags hle
  simp only [hnat] at hwrites
  exact (Enc.writes_lift hbuild).bind hwrites

theorem writeHeader_rejects {builder : FixedHeaderBuilder} {n : ℕ}
    (hflags : validateTypeFlags builder.packetType builder.flags = .ok ()) (hn : 268435455 < n) :
    (writeHeader builder n).Rejects := by
  by_cases h : n ≤ RemainingLength.u32Max
  · have hnat : (UInt32.ofNat n).toNat = n := by
      rw [UInt32.toNat_ofNat']
      unfold RemainingLength.u32Max at h
      omega
    have hval : FixedHeaderSlice.validateValue
        { builder with remainingLength := UInt32.ofNat n } =
        fail .outOfRange "remaining length" := by
      simp only [FixedHeaderSlice.validateValue, hflags, ok_bind, RemainingLength.validateValue,
        RemainingLength.lenFromU32_of_lt (by rw [hnat]; exact hn : 268435455 <
          (UInt32.ofNat n).toNat), fail_bind]
    have hbuild : builder.withRemainingLength n =
        .ok { builder with remainingLength := UInt32.ofNat n } := by
      rw [FixedHeaderBuilder.withRemainingLength, if_pos h]
    have := FixedHeaderSlice.writeSync_rejects hval
    rw [writeHeader, hbuild]
    exact this
  · rw [writeHeader, FixedHeaderBuilder.withRemainingLength, if_neg h]
    exact ⟨⟨_, rfl⟩, rfl⟩

/-- A packet: the value is checked and measured, then the header is written, then the body. -/
def writePacket (validate : Exec Unit) (encodeLen : Exec ℕ) (builder : FixedHeaderBuilder)
    (body : Enc ℕ) : Enc ℕ := do
  validate
  let remLen ← encodeLen
  let written ← writeHeader builder remLen
  let rest ← body
  pure (written + rest)

/-- The bytes of a packet with the body `bs`. -/
def packetWire (t : ControlPacketType) (f : TypeFlags) (bs : List UInt8) : List UInt8 :=
  headerWire t f bs.length ++ bs

section

variable {validate : Exec Unit} {encodeLen : Exec ℕ} {builder : FixedHeaderBuilder}
  {body : Enc ℕ} {P : Prop} {bs : List UInt8}

theorem writePacket_writes
    (hflags : validateTypeFlags builder.packetType builder.flags = .ok ())
    (hbody : body.Writes bs.length bs) (hval : validate = .ok ())
    (hlen : encodeLen = .ok bs.length) (hle : bs.length ≤ 268435455) :
    (writePacket validate encodeLen builder body).Writes
      (packetWire builder.packetType builder.flags bs).length
      (packetWire builder.packetType builder.flags bs) := by
  have last : (pure ((RemainingLength.width bs.length + 1) + bs.length) : Enc ℕ).Writes
      (packetWire builder.packetType builder.flags bs).length [] := by
    rw [packetWire, List.length_append, length_headerWire]
    exact Enc.writes_pure _
  refine (Enc.writes_lift hval).bind ((Enc.writes_lift hlen).bind
    ((writeHeader_writes hflags hle).bind (Enc.Writes.congr ?_ (List.append_nil _))))
  exact hbody.bind last

/-- A packet that was written has been checked and has a body that fits. -/
theorem writePacket_eq_ok
    (hflags : validateTypeFlags builder.packetType builder.flags = .ok ())
    (hbody : body.Checks P bs.length bs) (hlen : P → ∀ m, encodeLen = .ok m → m = bs.length)
    {n : ℕ} (hok : (writePacket validate encodeLen builder body).result = .ok n) :
    validate = .ok () ∧ P ∧ bs.length ≤ 268435455 ∧
      (writePacket validate encodeLen builder body).output =
        packetWire builder.packetType builder.flags bs ∧
      n = (packetWire builder.packetType builder.flags bs).length := by
  have steps := hok
  simp only [writePacket, Enc.result_bind, Enc.result_lift, bind_eq_ok] at steps
  obtain ⟨⟨⟩, hval, m, hm, written, hheader, rest, hrest, -⟩ := steps
  obtain ⟨hP, rfl, -⟩ := hbody.of_ok hrest
  obtain rfl : m = bs.length := hlen hP m hm
  have hle : bs.length ≤ 268435455 := by
    by_contra hlt
    obtain ⟨err, herr⟩ := (writeHeader_rejects hflags (not_le.1 hlt)).result_err
    rw [herr] at hheader
    cases hheader
  have hwrites := writePacket_writes hflags (hbody.writes hP) hval hm hle
  rw [hwrites.result_eq] at hok
  exact ⟨hval, hP, hle, hwrites.output_eq, (Except.ok.inj hok).symm⟩

/-- A packet starts with its type byte alone. -/
theorem writePacket_opens : (writePacket validate encodeLen builder body).Opens
    [encodeTypeAndFlags builder.packetType builder.flags] := by
  refine Enc.opens_lift_bind fun _ _ => Enc.opens_lift_bind fun m _ => Enc.Opens.bind ?_ _
  refine Enc.opens_lift_bind fun header hbuild => ?_
  have htype : header.packetType = builder.packetType ∧ header.flags = builder.flags := by
    rw [FixedHeaderBuilder.withRemainingLength] at hbuild
    split_ifs at hbuild
    · obtain rfl := Except.ok.inj hbuild
      exact ⟨rfl, rfl⟩
    · cases hbuild
  rw [← htype.1, ← htype.2]
  exact FixedHeaderSlice.writeSync_opens header

/-- Which values leave no trace of a rejected packet. -/
theorem writePacket_untouched_iff
    (hflags : validateTypeFlags builder.packetType builder.flags = .ok ()) {n : ℕ}
    (hbody : body.Checks P n bs) :
    (writePacket validate encodeLen builder body).Untouched ↔
      validate ≠ .ok () ∨ (∀ m, encodeLen = .ok m → 268435455 < m) ∨ P := by
  have last (m : ℕ) : (body >>= fun rest => pure (m + rest)).Checks P (m + n) bs :=
    hbody.map fun rest => m + rest
  have header (m : ℕ) : (writeHeader builder m >>= fun written =>
      body >>= fun rest => pure (written + rest)).Untouched ↔ 268435455 < m ∨ P := by
    by_cases hm : m ≤ 268435455
    · rw [(writeHeader_writes hflags hm).untouched_bind_iff (by simp [headerWire]) (last _)]
      simp [not_lt.2 hm]
    · exact iff_of_true ((writeHeader_rejects hflags (not_le.1 hm)).bind _).untouched
        (Or.inl (not_le.1 hm))
  have measure : ((liftM encodeLen : Enc ℕ) >>= fun m => writeHeader builder m >>= fun written =>
      body >>= fun rest => pure (written + rest)).Untouched ↔
      (∀ m, encodeLen = .ok m → 268435455 < m) ∨ P := by
    rw [Enc.untouched_lift_bind]
    simp only [header]
    by_cases hP : P <;> simp [hP]
  rw [writePacket, Enc.untouched_lift_bind]
  constructor
  · intro h
    by_cases hval : validate = .ok ()
    · exact Or.inr (measure.1 (h () hval))
    · exact Or.inl hval
  · rintro (hval | h) ⟨⟩ hok
    · exact absurd hok hval
    · exact measure.2 h

end

/-- The bytes of a packet are one frame, whatever follows. -/
theorem nextFrame_packetWire (t : ControlPacketType) (f : TypeFlags) {bs : List UInt8}
    (hle : bs.length ≤ 268435455) (rest : List UInt8) :
    FixedHeader.nextFrame (packetWire t f bs ++ rest) =
      .ok (some (packetWire t f bs).length) := by
  refine FixedHeader.nextFrame_eq_some.2 ⟨encodeTypeAndFlags t f, RemainingLength.wire bs.length,
    bs ++ rest, by simp [packetWire, headerWire], RemainingLength.terminated_wire hle, ?_, ?_⟩
  · rw [RemainingLength.length_wire]
    exact RemainingLength.width_le _
  · rw [RemainingLength.value_wire hle, packetWire, List.length_append, length_headerWire,
      RemainingLength.length_wire]
    omega

theorem FixedHeaderSlice.parse_eq_ok {buf rest : List UInt8} {h : FixedHeader} :
    parse buf = .ok (h, rest) ↔ buf = h.bytes ++ rest ∧ ∃ t f, h.Valid t f := by
  constructor
  · intro hp
    cases buf with
    | nil => simp [parse] at hp
    | cons b l =>
      simp only [parse, bind_eq_ok, okOr_eq_ok] at hp
      obtain ⟨⟨t, f⟩, htype, ⟨r, rest'⟩, hlen, ⟨this, x⟩, hsplit, heq⟩ := hp
      obtain ⟨rfl, hterm, hle⟩ := RemainingLength.parse_eq_ok.1 hlen
      obtain ⟨hl, hlen'⟩ := splitAtChecked_eq_some.1 hsplit
      obtain ⟨rfl, -⟩ := List.append_inj hl hlen'.symm
      obtain ⟨rfl, rfl⟩ : FixedHeader.mk b ⟨r.len⟩ = h ∧ rest' = rest := by simpa using heq
      exact ⟨rfl, t, f, htype, hterm, hle⟩
  · rintro ⟨rfl, t, f, htype, hterm, hle⟩
    have hsplit : splitAtChecked (h.remainingLength.len ++ rest) h.remainingLength.len.length =
        some (h.remainingLength.len, rest) := splitAtChecked_eq_some.2 ⟨rfl, rfl⟩
    simp only [FixedHeader.bytes, List.cons_append, parse, htype, ok_bind,
      RemainingLength.parse_append hterm hle, hsplit, okOr_some]

omit [Target] in
theorem FixedHeaderArray.parse_noPanic (n : ℕ) (buf : List UInt8) : NoPanic (parse n buf) := by
  cases buf with
  | nil => exact noPanic_fail _ _
  | cons b tail =>
    rw [parse]
    split_ifs
    · exact noPanic_fail _ _
    · refine NoPanic.bind ?_ fun _ _ => noPanic_ok _
      exact (ControlPacketType.parse_noPanic b).bind fun _ _ => RemainingLength.validate_noPanic _

theorem FixedHeaderSlice.parse_noPanic (buf : List UInt8) : NoPanic (parse buf) := by
  cases buf with
  | nil => exact noPanic_fail _ _
  | cons b tail =>
    refine (ControlPacketType.parse_noPanic b).bind fun _ _ => ?_
    refine (RemainingLength.parse_noPanic tail).bind fun _ _ => ?_
    exact (noPanic_okOr _ _ _).bind fun _ _ => noPanic_ok _

omit [Target] in
theorem FixedHeaderArray.parse_eq_ok {n : ℕ} {buf rest : List UInt8} {h : FixedHeader}
    (hn : 1 ≤ n) :
    parse n buf = .ok (h, rest) ↔
      buf = h.bytes ++ rest ∧ h.remainingLength.len.length = n ∧ ∃ t f, h.Valid t f := by
  constructor
  · intro hp
    cases buf with
    | nil => simp [parse] at hp
    | cons b l =>
      simp only [parse] at hp
      split_ifs at hp with hl
      · simp at hp
      · simp only [bind_eq_ok, FixedHeader.validate] at hp
        obtain ⟨⟨⟩, ⟨⟨t, f⟩, htype, hval⟩, heq⟩ := hp
        obtain ⟨rfl, rfl⟩ : FixedHeader.mk b ⟨l.take n⟩ = h ∧ l.drop n = rest := by
          simpa using heq
        have hlen : (l.take n).length = n := by
          rw [List.length_take]
          omega
        have hne : l.take n ≠ [] := by
          rw [← List.length_pos_iff]
          omega
        obtain ⟨hterm, hle⟩ := (RemainingLength.validate_eq_ok hne).1 hval
        refine ⟨?_, hlen, t, f, htype, hterm, hle⟩
        simp [FixedHeader.bytes]
  · rintro ⟨rfl, rfl, t, f, htype, hterm, hle⟩
    have hval := (RemainingLength.validate_eq_ok (List.length_pos_iff.1 hterm.length_pos)).2
      ⟨hterm, hle⟩
    have hlt : ¬ (h.remainingLength.len ++ rest).length < h.remainingLength.len.length := by
      rw [List.length_append]
      omega
    simp only [FixedHeader.bytes, List.cons_append, parse, if_neg hlt, List.take_left,
      List.drop_left, FixedHeader.validate, htype, ok_bind, hval]

/-! ### Minimal headers -/

/-- The remaining length after the type byte is minimally encoded. -/
def MinimalLength (buf : List UInt8) : Prop :=
  ∃ len rest, buf.tail = len ++ rest ∧ Varint.Terminated len ∧ Varint.Minimal len

omit [Target] in
theorem MinimalLength.minimal {h : FixedHeader} {t : ControlPacketType} {f : TypeFlags}
    {rest : List UInt8} (hmin : MinimalLength (h.bytes ++ rest)) (valid : h.Valid t f) :
    Varint.Minimal h.remainingLength.len := by
  obtain ⟨len, rest', heq, hterm, hminimal⟩ := hmin
  have heq : h.remainingLength.len ++ rest = len ++ rest' := heq
  rwa [(valid.terminated.append_inj hterm heq).1]

omit [Target] in
/-- A minimal header is the one the encoder writes. -/
theorem FixedHeader.Valid.headerWire_eq {h : FixedHeader} {t : ControlPacketType} {f : TypeFlags}
    (valid : h.Valid t f) (hminimal : Varint.Minimal h.remainingLength.len) :
    headerWire t f (Varint.value h.remainingLength.len) = h.bytes := by
  rw [headerWire, RemainingLength.wire_value valid.terminated hminimal valid.length_le,
    (ControlPacketType.encode_of_parse valid.type).1, FixedHeader.bytes]

omit [Target] in
/-- What a header announces fits the encoder. -/
theorem FixedHeader.Valid.value_le {h : FixedHeader} {t : ControlPacketType} {f : TypeFlags}
    (valid : h.Valid t f) : Varint.value h.remainingLength.len ≤ 268435455 := by
  have lt := Varint.value_lt h.remainingLength.len
  have pow := RemainingLength.pow_length_le valid.length_le
  omega

/-- The bytes of a packet start with a header of its type. -/
theorem FixedHeaderSlice.parse_packetWire {t : ControlPacketType} {f : TypeFlags}
    (hflags : validateTypeFlags t f = .ok ()) {bs : List UInt8} (hle : bs.length ≤ 268435455)
    (rest : List UInt8) :
    ∃ h, h.Valid t f ∧ Varint.value h.remainingLength.len = bs.length ∧
      packetWire t f bs = h.bytes ++ bs ∧
      parse (packetWire t f bs ++ rest) = .ok (h, bs ++ rest) := by
  have valid : FixedHeader.Valid ⟨encodeTypeAndFlags t f, ⟨RemainingLength.wire bs.length⟩⟩ t f :=
    ⟨ControlPacketType.parse_encode t f hflags, RemainingLength.terminated_wire hle,
      (RemainingLength.length_wire _).trans_le (RemainingLength.width_le _)⟩
  refine ⟨_, valid, RemainingLength.value_wire hle, rfl, parse_eq_ok.2 ⟨?_, t, f, valid⟩⟩
  rw [packetWire, List.append_assoc]
  rfl

/-! ### The dispatch on the type -/

/-- The bytes start with the type byte of a packet of type `t`. -/
def HasType (t : ControlPacketType) (buf : List UInt8) : Prop :=
  ∃ b tail f, buf = b :: tail ∧ ControlPacketType.parse b = .ok (t, f)

omit [Target] in
theorem hasType_packetWire {t : ControlPacketType} {f : TypeFlags}
    (hflags : validateTypeFlags t f = .ok ()) (bs rest : List UInt8) :
    HasType t (packetWire t f bs ++ rest) :=
  ⟨_, _, f, rfl, ControlPacketType.parse_encode t f hflags⟩

/-- A header with the type byte of its bytes passes the assertion on its type. -/
theorem HasType.assertPacketType {t : ControlPacketType} {buf rest : List UInt8} {h : FixedHeader}
    (htype : HasType t buf) (hbuf : buf = h.bytes ++ rest) (hvalid : ∃ t f, h.Valid t f) :
    h.assertPacketType t = .ok () := by
  obtain ⟨b, tail, f, rfl, hparse⟩ := htype
  obtain ⟨rfl, -⟩ := List.cons.inj hbuf
  obtain ⟨t', f', valid⟩ := hvalid
  obtain ⟨rfl, -⟩ := Prod.mk.inj (Except.ok.inj (hparse.symm.trans valid.type))
  exact valid.assertPacketType_eq_ok.2 fun _ => rfl

theorem HasType.assertSlice {t : ControlPacketType} {buf rest : List UInt8} {h : FixedHeader}
    (htype : HasType t buf) (hparse : FixedHeaderSlice.parse buf = .ok (h, rest)) :
    h.assertPacketType t = .ok () := by
  obtain ⟨hbuf, hvalid⟩ := FixedHeaderSlice.parse_eq_ok.1 hparse
  exact htype.assertPacketType hbuf hvalid

theorem HasType.assertArray {t : ControlPacketType} {buf rest : List UInt8} {h : FixedHeader}
    (htype : HasType t buf) (hparse : FixedHeaderArray.parse 1 buf = .ok (h, rest)) :
    h.assertPacketType t = .ok () := by
  obtain ⟨hbuf, -, hvalid⟩ := (FixedHeaderArray.parse_eq_ok (le_refl 1)).1 hparse
  exact htype.assertPacketType hbuf hvalid

end

end Mcutt
