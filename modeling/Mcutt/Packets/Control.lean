import Mcutt.Common

/-!
# Packets of fixed size

`publish/ack.rs`, `rec.rs`, `rel.rs`, `comp.rs` and `unsubscribe/ack.rs` are a header and a packet
identifier; `ping/mod.rs`, `ping/resp.rs` and `disconnect.rs` are a header alone.  The decoders
take a header with a remaining length of one byte and do not look at its value
(`Ack.parse_eq_ok`, `Bare.parse_eq_ok`).
-/

namespace Mcutt

/-- The remaining length of a fixed-size packet is one byte without a continuation flag. -/
theorem FixedHeaderArray.parse_one_eq_ok {buf rest : List UInt8} {h : FixedHeader} :
    parse 1 buf = .ok (h, rest) ↔ ∃ l t f, buf = h.typeAndFlags :: l :: rest ∧
      h.remainingLength.len = [l] ∧ ControlPacketType.parse h.typeAndFlags = .ok (t, f) ∧
      Varint.more l = false := by
  rw [FixedHeaderArray.parse_eq_ok (le_refl 1)]
  constructor
  · rintro ⟨rfl, hlen, t, f, htype, hterm, -⟩
    obtain ⟨l, hl⟩ := List.length_eq_one_iff.1 hlen
    rw [hl, Varint.Terminated.singleton_iff] at hterm
    exact ⟨l, t, f, by simp [FixedHeader.bytes, hl], hl, htype, hterm⟩
  · rintro ⟨l, t, f, rfl, hl, htype, hmore⟩
    refine ⟨by simp [FixedHeader.bytes, hl], by simp [hl], t, f, htype, ?_, by simp [hl]⟩
    rw [hl]
    exact .last hmore

section

variable [Target]

/-! ## Packet identifiers -/

/-- A packet that is a header and a packet identifier. -/
structure Ack where
  pkid : PacketId
  deriving DecidableEq, Repr

namespace Ack

def encodeLen (value : NonZeroU16) : Exec ℕ := PacketId.encodeLen value

def writeSync (t : ControlPacketType) (value : NonZeroU16) : Enc ℕ :=
  writePacket (.ok ()) (encodeLen value) (FixedHeaderBuilder.new t) (PacketId.writeSync value)

def parse (t : ControlPacketType) (buf : List UInt8) : Exec (Ack × List UInt8) := do
  let (fixed, rest) ← FixedHeaderArray.parse 1 buf
  fixed.assertPacketType t
  let (pkid, rest) ← PacketId.parse rest
  .ok (⟨pkid⟩, rest)

/-- The decoder takes a type byte, any one-byte remaining length and a packet identifier. -/
theorem parse_eq_ok {t : ControlPacketType} {buf rest : List UInt8} {this : Ack} :
    parse t buf = .ok (this, rest) ↔ ∃ b l t' f, ControlPacketType.parse b = .ok (t', f) ∧
      (Target.debugAssertions = true → t' = t) ∧ Varint.more l = false ∧
      buf = b :: l :: (PacketId.wire this.pkid.pkid ++ rest) ∧ this.pkid.pkid ≠ 0 := by
  constructor
  · intro h
    simp only [parse, bind_eq_ok] at h
    obtain ⟨⟨fixed, afterFixed⟩, hfixed, ⟨⟩, htype, ⟨pkid, rest'⟩, hpkid, heq⟩ := h
    obtain ⟨l, t', f, rfl, hl, hparse, hmore⟩ := FixedHeaderArray.parse_one_eq_ok.1 hfixed
    obtain ⟨rfl, hne⟩ := PacketId.parse_eq_ok.1 hpkid
    simp only [Except.ok.injEq, Prod.mk.injEq] at heq
    obtain ⟨rfl, rfl⟩ := heq
    have valid : fixed.Valid t' f := ⟨hparse, hl ▸ .last hmore, by simp [hl]⟩
    exact ⟨_, l, t', f, hparse, valid.assertPacketType_eq_ok.1 htype, hmore, rfl, hne⟩
  · rintro ⟨b, l, t', f, hparse, htype, hmore, rfl, hne⟩
    have valid : FixedHeader.Valid ⟨b, ⟨[l]⟩⟩ t' f := ⟨hparse, .last hmore, by simp⟩
    have hfixed : FixedHeaderArray.parse 1 (b :: l :: (PacketId.wire this.pkid.pkid ++ rest)) =
        .ok (⟨b, ⟨[l]⟩⟩, PacketId.wire this.pkid.pkid ++ rest) :=
      FixedHeaderArray.parse_one_eq_ok.2 ⟨l, t', f, rfl, rfl, hparse, hmore⟩
    have hpkid : PacketId.parse (PacketId.wire this.pkid.pkid ++ rest) = .ok (this.pkid, rest) :=
      PacketId.parse_eq_ok.2 ⟨rfl, hne⟩
    simp only [parse, hfixed, ok_bind, valid.assertPacketType_eq_ok.2 htype, hpkid]

theorem parse_noPanic {t : ControlPacketType} {buf : List UInt8} (htype : HasType t buf) :
    NoPanic (parse t buf) := by
  refine (FixedHeaderArray.parse_noPanic 1 buf).bind fun ⟨fixed, rest⟩ hfixed => ?_
  simp only [htype.assertArray hfixed, ok_bind]
  exact (PacketId.parse_noPanic rest).bind fun _ _ => noPanic_ok _

/-- What the encoder writes. -/
theorem writeSync_writes (t : ControlPacketType) (value : NonZeroU16) :
    (writeSync t value).Writes
      (packetWire t (FixedHeaderBuilder.defaultFlags t) (PacketId.wire value.val)).length
      (packetWire t (FixedHeaderBuilder.defaultFlags t) (PacketId.wire value.val)) :=
  writePacket_writes (validateTypeFlags_default t) (PacketId.writeSync_writes value) rfl rfl
    (by simp [PacketId.length_wire])

/-- What is written is parsed back. -/
theorem parse_packetWire (t : ControlPacketType) (pkid : NonZeroU16) (rest : List UInt8) :
    parse t (packetWire t (FixedHeaderBuilder.defaultFlags t) (PacketId.wire pkid.val) ++ rest) =
      .ok (⟨⟨pkid.val⟩⟩, rest) :=
  parse_eq_ok.2 ⟨_, 2, t, _, ControlPacketType.parse_encode t _ (validateTypeFlags_default t),
    fun _ => rfl, by decide, rfl, pkid.ne_zero⟩

end Ack

def PubAck.writeSync (value : NonZeroU16) : Enc ℕ := Ack.writeSync .pubAck value
def PubAck.parse (buf : List UInt8) : Exec (Ack × List UInt8) := Ack.parse .pubAck buf

def PubRec.writeSync (value : NonZeroU16) : Enc ℕ := Ack.writeSync .pubRec value
def PubRec.parse (buf : List UInt8) : Exec (Ack × List UInt8) := Ack.parse .pubRec buf

def PubRel.writeSync (value : NonZeroU16) : Enc ℕ := Ack.writeSync .pubRel value
def PubRel.parse (buf : List UInt8) : Exec (Ack × List UInt8) := Ack.parse .pubRel buf

def PubComp.writeSync (value : NonZeroU16) : Enc ℕ := Ack.writeSync .pubComp value
def PubComp.parse (buf : List UInt8) : Exec (Ack × List UInt8) := Ack.parse .pubComp buf

def UnsubAck.writeSync (value : NonZeroU16) : Enc ℕ := Ack.writeSync .unsubAck value
def UnsubAck.parse (buf : List UInt8) : Exec (Ack × List UInt8) := Ack.parse .unsubAck buf

/-! ## Headers alone -/

namespace Bare

def writeSync (t : ControlPacketType) : Enc ℕ := (FixedHeaderBuilder.new t).writeSync

def parse (t : ControlPacketType) (buf : List UInt8) : Exec (Unit × List UInt8) := do
  let (fixed, rest) ← FixedHeaderArray.parse 1 buf
  fixed.assertPacketType t
  .ok ((), rest)

/-- The decoder takes a type byte and any one-byte remaining length. -/
theorem parse_eq_ok {t : ControlPacketType} {buf rest : List UInt8} :
    parse t buf = .ok ((), rest) ↔ ∃ b l t' f, ControlPacketType.parse b = .ok (t', f) ∧
      (Target.debugAssertions = true → t' = t) ∧ Varint.more l = false ∧ buf = b :: l :: rest := by
  constructor
  · intro h
    simp only [parse, bind_eq_ok] at h
    obtain ⟨⟨fixed, afterFixed⟩, hfixed, ⟨⟩, htype, heq⟩ := h
    obtain ⟨l, t', f, rfl, hl, hparse, hmore⟩ := FixedHeaderArray.parse_one_eq_ok.1 hfixed
    simp only [Except.ok.injEq, Prod.mk.injEq] at heq
    obtain ⟨-, rfl⟩ := heq
    have valid : fixed.Valid t' f := ⟨hparse, hl ▸ .last hmore, by simp [hl]⟩
    exact ⟨_, l, t', f, hparse, valid.assertPacketType_eq_ok.1 htype, hmore, rfl⟩
  · rintro ⟨b, l, t', f, hparse, htype, hmore, rfl⟩
    have valid : FixedHeader.Valid ⟨b, ⟨[l]⟩⟩ t' f := ⟨hparse, .last hmore, by simp⟩
    have hfixed : FixedHeaderArray.parse 1 (b :: l :: rest) = .ok (⟨b, ⟨[l]⟩⟩, rest) :=
      FixedHeaderArray.parse_one_eq_ok.2 ⟨l, t', f, rfl, rfl, hparse, hmore⟩
    simp only [parse, hfixed, ok_bind, valid.assertPacketType_eq_ok.2 htype]

theorem parse_noPanic {t : ControlPacketType} {buf : List UInt8} (htype : HasType t buf) :
    NoPanic (parse t buf) := by
  refine (FixedHeaderArray.parse_noPanic 1 buf).bind fun ⟨fixed, rest⟩ hfixed => ?_
  simp only [htype.assertArray hfixed, ok_bind]
  exact noPanic_ok _

theorem writeSync_writes (t : ControlPacketType) :
    (writeSync t).Writes (packetWire t (FixedHeaderBuilder.defaultFlags t) []).length
      (packetWire t (FixedHeaderBuilder.defaultFlags t) []) := by
  have h := FixedHeaderSlice.writeSync_writes (FixedHeaderBuilder.new t)
    (validateTypeFlags_default t) (Nat.zero_le _)
  rw [packetWire, List.append_nil, length_headerWire]
  exact h

theorem parse_packetWire (t : ControlPacketType) (rest : List UInt8) :
    parse t (packetWire t (FixedHeaderBuilder.defaultFlags t) [] ++ rest) = .ok ((), rest) :=
  parse_eq_ok.2 ⟨_, 0, t, _, ControlPacketType.parse_encode t _ (validateTypeFlags_default t),
    fun _ => rfl, by decide, rfl⟩

end Bare

def PingReq.writeSync : Enc ℕ := Bare.writeSync .pingReq
def PingReq.parse (buf : List UInt8) : Exec (Unit × List UInt8) := Bare.parse .pingReq buf

def PingResp.writeSync : Enc ℕ := Bare.writeSync .pingResp
def PingResp.parse (buf : List UInt8) : Exec (Unit × List UInt8) := Bare.parse .pingResp buf

def Disconnect.writeSync : Enc ℕ := Bare.writeSync .disconnect
def Disconnect.parse (buf : List UInt8) : Exec (Unit × List UInt8) := Bare.parse .disconnect buf

end

end Mcutt
