import Mcutt.Packets.Control

/-!
# CONNACK

The decoder of `connect/ack.rs`, which a connection applies to the first bytes of the server.  The
type of the packet is only asserted in debug builds, the value of the remaining length is not
looked at, and `!SESSION_PRESENT` has no bits left once it is truncated to the declared ones
(`ConnAck.parse_eq_ok`).
-/

namespace Mcutt

/-- `ConnAckFlags`, of which one bit is declared. -/
structure ConnAckFlags where
  bits : UInt8
  deriving DecidableEq, Repr

namespace ConnAckFlags

def sessionPresent : ConnAckFlags := ⟨0b0000_0001⟩

/-- All the declared bits. -/
def all : ConnAckFlags := ⟨0b0000_0001⟩

instance : AndOp ConnAckFlags := ⟨fun a b => ⟨a.bits &&& b.bits⟩⟩

/-- `!flags`, truncated to the declared bits. -/
instance : Complement ConnAckFlags := ⟨fun a => ⟨~~~a.bits &&& all.bits⟩⟩

def isEmpty (f : ConnAckFlags) : Bool := f.bits == 0

end ConnAckFlags

/-- Connection return code. -/
inductive ReturnCode where
  | accepted
  | protocolVersion
  | identifierRejected
  | serverUnavailable
  | badUsernamePassword
  | notAuthorized
  deriving DecidableEq, Repr

/-- The validity check of a `ReturnCode` field. -/
def ReturnCode.tryFromByte (b : UInt8) : Option ReturnCode :=
  match b with
  | 0 => some accepted
  | 1 => some protocolVersion
  | 2 => some identifierRejected
  | 3 => some serverUnavailable
  | 4 => some badUsernamePassword
  | 5 => some notAuthorized
  | _ => none

/-- `as_bytes` of a `ReturnCode`. -/
def ReturnCode.toU8 : ReturnCode → UInt8
  | accepted => 0
  | protocolVersion => 1
  | identifierRejected => 2
  | serverUnavailable => 3
  | badUsernamePassword => 4
  | notAuthorized => 5

structure ConnAck where
  flags : ConnAckFlags
  returnCode : ReturnCode
  deriving DecidableEq, Repr

namespace ConnAck

def validate (self : ConnAck) : Exec Unit :=
  if !(self.flags &&& ~~~ConnAckFlags.sessionPresent).isEmpty then
    fail .invalid "connack flags reserved"
  else .ok ()

def validateValue (value : ConnAck) : Exec Unit := value.validate

/-- `as_bytes` of the packet. -/
def asBytes (self : ConnAck) : List UInt8 := [self.flags.bits, self.returnCode.toU8]

/-- The encoder writes no fixed header. -/
def writeSync (value : ConnAck) : Enc ℕ := do
  validateValue value
  Enc.writeAll value.asBytes "writing CONNACK packet"
  pure 2

/-- `ConnAck::try_ref_from_prefix`. -/
def tryRefFromPrefix (buf : List UInt8) : Exec (ConnAck × List UInt8) :=
  match buf with
  | flags :: code :: rest => do
    let returnCode ← okOr (ReturnCode.tryFromByte code) .invalid "CONNACK packet"
    .ok (⟨⟨flags⟩, returnCode⟩, rest)
  | _ => fail .notEnoughSpace "CONNACK packet"

section

variable [Target]

def parse (buff : List UInt8) : Exec (ConnAck × List UInt8) := do
  let (fixed, rest) ← FixedHeaderArray.parse 1 buff
  fixed.assertPacketType .connAck
  let (this, rest) ← tryRefFromPrefix rest
  this.validate
  .ok (this, rest)

end

/-! ## What the decoder takes -/

/-- No reserved bit is left to be checked. -/
theorem validate_eq_ok (this : ConnAck) : this.validate = .ok () := by
  have h : ~~~ConnAckFlags.sessionPresent = ⟨0⟩ := by decide
  have hand : this.flags &&& ⟨0⟩ = (⟨0⟩ : ConnAckFlags) := by
    show (⟨this.flags.bits &&& 0⟩ : ConnAckFlags) = ⟨0⟩
    rw [UInt8.and_zero]
  rw [validate, h, hand]
  rfl

theorem writeSync_writes (value : ConnAck) : (writeSync value).Writes 2 value.asBytes := by
  refine (Enc.writes_lift (validate_eq_ok value)).bind (Enc.Writes.congr ?_ (List.append_nil _))
  exact (Enc.writes_writeAll _ _).bind (Enc.writes_pure 2)

theorem tryFromByte_isSome (c : UInt8) : (ReturnCode.tryFromByte c).isSome = decide (c ≤ 5) := by
  have all : ∀ n : Fin 256, (ReturnCode.tryFromByte (UInt8.ofNat n)).isSome =
      decide (UInt8.ofNat n ≤ 5) := by decide +kernel
  exact byte_forall (p := fun c => (ReturnCode.tryFromByte c).isSome = decide (c ≤ 5)) all c

theorem tryRefFromPrefix_noPanic (buf : List UInt8) : NoPanic (tryRefFromPrefix buf) := by
  rcases buf with _ | ⟨f, _ | ⟨c, tail⟩⟩
  · exact noPanic_fail _ _
  · exact noPanic_fail _ _
  · exact (noPanic_okOr _ _ _).bind fun _ _ => noPanic_ok _

theorem tryRefFromPrefix_eq_ok {buf rest : List UInt8} {this : ConnAck} :
    tryRefFromPrefix buf = .ok (this, rest) ↔
      ∃ c, buf = this.flags.bits :: c :: rest ∧
        ReturnCode.tryFromByte c = some this.returnCode := by
  obtain ⟨⟨bits⟩, returnCode⟩ := this
  rcases buf with _ | ⟨f, _ | ⟨c, tail⟩⟩
  · simp [tryRefFromPrefix]
  · simp [tryRefFromPrefix]
  · simp only [tryRefFromPrefix, bind_eq_ok, okOr_eq_ok, Except.ok.injEq, Prod.mk.injEq, mk.injEq,
      ConnAckFlags.mk.injEq, List.cons.injEq]
    constructor
    · rintro ⟨code, hcode, ⟨rfl, rfl⟩, rfl⟩
      exact ⟨c, ⟨rfl, rfl, rfl⟩, hcode⟩
    · rintro ⟨c', ⟨rfl, rfl, rfl⟩, hcode⟩
      exact ⟨_, hcode, ⟨rfl, rfl⟩, rfl⟩

section

variable [Target]

/-- The decoder takes a type byte, any one-byte remaining length, any flags and a return code. -/
theorem parse_eq_ok {buff rest : List UInt8} {this : ConnAck} :
    parse buff = .ok (this, rest) ↔ ∃ b l c t f, ControlPacketType.parse b = .ok (t, f) ∧
      (Target.debugAssertions = true → t = .connAck) ∧ Varint.more l = false ∧
      buff = b :: l :: this.flags.bits :: c :: rest ∧
      ReturnCode.tryFromByte c = some this.returnCode := by
  constructor
  · intro h
    simp only [parse, bind_eq_ok] at h
    obtain ⟨⟨fixed, afterFixed⟩, hfixed, ⟨⟩, htype, ⟨this', rest'⟩, hthis, ⟨⟩, -, heq⟩ := h
    obtain ⟨l, t, f, rfl, hl, hparse, hmore⟩ := FixedHeaderArray.parse_one_eq_ok.1 hfixed
    obtain ⟨c, rfl, hcode⟩ := tryRefFromPrefix_eq_ok.1 hthis
    simp only [Except.ok.injEq, Prod.mk.injEq] at heq
    obtain ⟨rfl, rfl⟩ := heq
    have valid : fixed.Valid t f := ⟨hparse, hl ▸ .last hmore, by simp [hl]⟩
    exact ⟨_, l, c, t, f, hparse, valid.assertPacketType_eq_ok.1 htype, hmore, rfl, hcode⟩
  · rintro ⟨b, l, c, t, f, hparse, htype, hmore, rfl, hcode⟩
    have valid : FixedHeader.Valid ⟨b, ⟨[l]⟩⟩ t f := ⟨hparse, .last hmore, by simp⟩
    have hfixed : FixedHeaderArray.parse 1 (b :: l :: this.flags.bits :: c :: rest) =
        .ok (⟨b, ⟨[l]⟩⟩, this.flags.bits :: c :: rest) :=
      FixedHeaderArray.parse_one_eq_ok.2 ⟨l, t, f, rfl, rfl, hparse, hmore⟩
    have hthis : tryRefFromPrefix (this.flags.bits :: c :: rest) = .ok (this, rest) :=
      tryRefFromPrefix_eq_ok.2 ⟨c, rfl, hcode⟩
    simp only [parse, hfixed, ok_bind, valid.assertPacketType_eq_ok.2 htype, hthis, validate_eq_ok]

/-- A debug build panics on a packet of another type with a one-byte remaining length. -/
theorem parse_noPanic_iff {buff : List UInt8} :
    NoPanic (parse buff) ↔ ∀ b l rest t f, buff = b :: l :: rest → Varint.more l = false →
      ControlPacketType.parse b = .ok (t, f) → Target.debugAssertions = true → t = .connAck := by
  have hfixed := FixedHeaderArray.parse_noPanic 1 buff
  constructor
  · rintro h b l rest t f rfl hmore hparse hdebug
    have valid : FixedHeader.Valid ⟨b, ⟨[l]⟩⟩ t f := ⟨hparse, .last hmore, by simp⟩
    have hok : FixedHeaderArray.parse 1 (b :: l :: rest) = .ok (⟨b, ⟨[l]⟩⟩, rest) :=
      FixedHeaderArray.parse_one_eq_ok.2 ⟨l, t, f, rfl, rfl, hparse, hmore⟩
    by_contra hne
    apply h "assertion `left == right` failed"
    simp only [parse, hok, ok_bind, FixedHeader.assertPacketType, hdebug, if_true,
      valid.packetType_eq, if_neg hne, error_bind]
  · intro h
    refine hfixed.bind fun ⟨fixed, rest⟩ hok => ?_
    obtain ⟨l, t, f, rfl, hl, hparse, hmore⟩ := FixedHeaderArray.parse_one_eq_ok.1 hok
    have valid : fixed.Valid t f := ⟨hparse, hl ▸ .last hmore, by simp [hl]⟩
    have htype : fixed.assertPacketType .connAck = .ok () :=
      valid.assertPacketType_eq_ok.2 (h _ l rest t f rfl hmore hparse)
    simp only [htype, ok_bind]
    refine (tryRefFromPrefix_noPanic rest).bind fun this _ => ?_
    rw [validate_eq_ok, ok_bind]
    exact noPanic_ok _

/-! ## Accepting a connection -/

/-- A CONNACK as the protocol has it. -/
def WellFormed (buf : List UInt8) : Prop :=
  ∃ flags c, buf = [0x20, 0x02, flags, c] ∧ flags &&& 0xFE = 0 ∧ c ≤ 5

/-- The bytes are consumed without a panic, and accepted exactly if they are a CONNACK. -/
def ConsumedExactly (buf : List UInt8) : Prop :=
  NoPanic (consume parse buf) ∧ ((∃ this, consume parse buf = .ok this) ↔ WellFormed buf)

omit [Target] in
theorem parse_connAck {b : UInt8} {f : TypeFlags}
    (h : ControlPacketType.parse b = .ok (.connAck, f)) : b = 0x20 := by
  have hflags := ControlPacketType.encode_of_parse h
  obtain ⟨rfl, hvalid, -⟩ := hflags
  obtain ⟨bits⟩ := f
  revert bits
  decide

/-- When `ConnAck::consume` is right about the first bytes of the server. -/
theorem consumedExactly_iff (buf : List UInt8) :
    ConsumedExactly buf ↔ ∀ b l rest t f, buf = b :: l :: rest → l < 128 →
      ControlPacketType.parse b = .ok (t, f) →
      (Target.debugAssertions = true → t = .connAck) ∧
      ∀ flags c, rest = [flags, c] → c ≤ 5 → t = .connAck ∧ l = 2 ∧ flags &&& 0xFE = 0 := by
  rw [ConsumedExactly, consume_noPanic_iff, parse_noPanic_iff]
  simp only [consume_eq_ok, parse_eq_ok, ← Varint.more_eq_false]
  have code (c : UInt8) : (∃ r, ReturnCode.tryFromByte c = some r) ↔ c ≤ 5 := by
    rw [← Option.isSome_iff_exists, tryFromByte_isSome, decide_eq_true_eq]
  constructor
  · rintro ⟨noPanic, exact⟩ b l rest t f rfl hmore hparse
    refine ⟨noPanic b l rest t f rfl hmore hparse, ?_⟩
    rintro flags c rfl hc
    obtain ⟨r, hr⟩ := (code c).2 hc
    obtain ⟨flags', c', heq, hreserved, -⟩ := exact.1 ⟨⟨⟨flags⟩, r⟩, b, l, c, t, f, hparse,
      noPanic b l _ t f rfl hmore hparse, hmore, rfl, hr⟩
    obtain ⟨rfl, rfl, rfl, rfl⟩ : b = 0x20 ∧ l = 0x02 ∧ flags = flags' ∧ c = c' := by
      simpa using heq
    refine ⟨?_, rfl, hreserved⟩
    have h20 : ControlPacketType.parse 0x20 = .ok (.connAck, TypeFlags.empty) := by decide
    rw [h20] at hparse
    obtain ⟨rfl, -⟩ : ControlPacketType.connAck = t ∧ TypeFlags.empty = f := by simpa using hparse
    rfl
  · intro h
    refine ⟨fun b l rest t f heq hmore hparse => (h b l rest t f heq hmore hparse).1, ?_⟩
    constructor
    · rintro ⟨⟨⟨flags⟩, r⟩, b, l, c, t, f, hparse, -, hmore, rfl, hr⟩
      have hc := (code c).1 ⟨r, hr⟩
      obtain ⟨rfl, rfl, hreserved⟩ := (h b l _ t f rfl hmore hparse).2 flags c rfl hc
      obtain rfl := parse_connAck hparse
      exact ⟨flags, c, rfl, hreserved, hc⟩
    · rintro ⟨flags, c, rfl, -, hc⟩
      obtain ⟨r, hr⟩ := (code c).2 hc
      exact ⟨⟨⟨flags⟩, r⟩, 0x20, 0x02, c, .connAck, TypeFlags.empty, by decide, fun _ => rfl,
        by decide, rfl, hr⟩

end

/-- A reserved flag bit is accepted. -/
theorem reserved_bit_accepted :
    letI := Target.debug
    ¬ ConsumedExactly [0x20, 0x02, 0x02, 0x00] := by
  let := Target.debug
  rintro ⟨-, exact⟩
  have hok : consume parse [0x20, 0x02, 0x02, 0x00] = .ok ⟨⟨0x02⟩, .accepted⟩ := by decide
  obtain ⟨flags, c, heq, hreserved, -⟩ := exact.1 ⟨_, hok⟩
  obtain ⟨rfl, -⟩ : (0x02 : UInt8) = flags ∧ (0x00 : UInt8) = c := by simpa using heq
  exact absurd hreserved (by decide)

end ConnAck

end Mcutt
