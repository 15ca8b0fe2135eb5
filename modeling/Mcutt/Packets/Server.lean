import Mcutt.Packets.Packet

/-!
# What a server sends

No bytes of a server make the parser panic, each assertion of a packet parser being established by
the dispatch or by the header (`server_bytes_safe`).  The encoders of the server's packets are
compared with the parser: SUBACK is written and read back (`suback_roundtrip`), and of the packets
of fixed size all but CONNACK, whose encoder writes no header (`roundTrips_iff`).
-/

namespace Mcutt

namespace Packet

section

variable [Target]

theorem parseAs_pingResp (buf : List UInt8) :
    parseAs .pingResp buf = mapParsed (fun _ => pingResp) (Bare.parse .pingResp buf) := rfl

/-! ## No panic -/

omit [Target] in
theorem mapParsed_noPanic {α β : Type} (f : α → β) {x : Exec (α × List UInt8)} (h : NoPanic x) :
    NoPanic (mapParsed f x) := h.bind fun _ _ => noPanic_ok _

theorem parseAs_noPanic {t : ControlPacketType} {buf : List UInt8} (htype : HasType t buf) :
    NoPanic (parseAs t buf) := by
  cases t with
  | connAck =>
    apply mapParsed_noPanic
    rw [ConnAck.parse_noPanic_iff]
    rintro b l rest t f rfl - hparse -
    obtain ⟨b', tail, f', heq, hparse'⟩ := htype
    obtain ⟨rfl, -⟩ := List.cons.inj heq
    exact (Prod.mk.inj (Except.ok.inj (hparse.symm.trans hparse'))).1
  | publish => exact mapParsed_noPanic _ (Publish.parse_noPanic htype)
  | subAck => exact mapParsed_noPanic _ (SubAck.parse_noPanic htype)
  | pubAck => exact mapParsed_noPanic _ (Ack.parse_noPanic htype)
  | pubRec => exact mapParsed_noPanic _ (Ack.parse_noPanic htype)
  | pubRel => exact mapParsed_noPanic _ (Ack.parse_noPanic htype)
  | pubComp => exact mapParsed_noPanic _ (Ack.parse_noPanic htype)
  | unsubAck => exact mapParsed_noPanic _ (Ack.parse_noPanic htype)
  | pingResp =>
    rw [parseAs_pingResp]
    exact mapParsed_noPanic _ (Bare.parse_noPanic htype)
  | connect | subscribe | unsubscribe | pingReq | disconnect => exact noPanic_fail _ _

theorem parse_noPanic (buf : List UInt8) : NoPanic (parse buf) := by
  cases buf with
  | nil => exact noPanic_fail _ _
  | cons b tail =>
    refine (ControlPacketType.parse_noPanic b).bind fun ⟨t, f⟩ hparse => ?_
    exact parseAs_noPanic ⟨b, tail, f, rfl, hparse⟩

/-- The packet identifier, of the packets that have one. -/
def packetId : Packet → Option PacketId
  | connAck _ => none
  | publish p => p.packetId
  | pubAck p => some p.pkid
  | pubRec p => some p.pkid
  | pubRel p => some p.pkid
  | pubComp p => some p.pkid
  | subAck p => some p.pkid
  | unsubAck p => some p.pkid
  | pingResp => none

theorem pkid_ne_zero_of_parseAs {t : ControlPacketType} {buf rest : List UInt8} {p : Packet}
    (h : parseAs t buf = .ok (p, rest)) : ∀ id ∈ p.packetId, id.pkid ≠ 0 := by
  have ack (t : ControlPacketType) (c : Ack → Packet) (hc : ∀ a, (c a).packetId = some a.pkid)
      (h : mapParsed c (Ack.parse t buf) = .ok (p, rest)) : ∀ id ∈ p.packetId, id.pkid ≠ 0 := by
    obtain ⟨a, ha, rfl⟩ := mapParsed_eq_ok.1 h
    obtain ⟨b, l, t', f, -, -, -, -, hne⟩ := Ack.parse_eq_ok.1 ha
    rw [hc]
    rintro id ⟨⟩
    exact hne
  cases t with
  | connAck =>
    obtain ⟨a, -, rfl⟩ := mapParsed_eq_ok.1 h
    rintro id ⟨⟩
  | publish =>
    obtain ⟨a, ha, rfl⟩ := mapParsed_eq_ok.1 h
    obtain ⟨t, f, -, -, -, -, -, -, -, -, hne⟩ := Publish.parse_eq_ok.1 ha
    exact hne
  | subAck =>
    obtain ⟨a, ha, rfl⟩ := mapParsed_eq_ok.1 h
    obtain ⟨fixed, t, f, -, -, -, -, hne⟩ := SubAck.parse_eq_ok.1 ha
    rintro id ⟨⟩
    exact hne
  | pubAck => exact ack .pubAck pubAck (fun _ => rfl) h
  | pubRec => exact ack .pubRec pubRec (fun _ => rfl) h
  | pubRel => exact ack .pubRel pubRel (fun _ => rfl) h
  | pubComp => exact ack .pubComp pubComp (fun _ => rfl) h
  | unsubAck => exact ack .unsubAck unsubAck (fun _ => rfl) h
  | pingResp =>
    rw [parseAs_pingResp] at h
    obtain ⟨a, -, rfl⟩ := mapParsed_eq_ok.1 h
    rintro id ⟨⟩
  | connect | subscribe | unsubscribe | pingReq | disconnect => simp [parseAs] at h

/-- Neither `parse` nor `consume` panics, every header that is parsed can be read, and so can the
identifier of every packet. -/
theorem server_bytes_safe (buf : List UInt8) :
    NoPanic (parse buf) ∧ NoPanic (consume parse buf) ∧
      (∀ h rest, FixedHeaderSlice.parse buf = .ok (h, rest) →
        ∃ t n, h.packetType = .ok t ∧ h.remainingLength.read = .ok n ∧
          h.remainingLength.readLen = .ok n) ∧
      ∀ p rest, parse buf = .ok (p, rest) → ∀ id ∈ p.packetId,
        id.pkid ≠ 0 ∧ ∃ pkid, id.read = .ok pkid := by
  refine ⟨parse_noPanic buf, consume_noPanic_iff.2 (parse_noPanic buf), ?_, ?_⟩
  · intro h rest hparse
    obtain ⟨-, t, f, valid⟩ := FixedHeaderSlice.parse_eq_ok.1 hparse
    exact ⟨t, _, valid.packetType_eq, RemainingLength.read_eq valid.length_le, valid.readLen_eq⟩
  · intro p rest hparse id hid
    obtain ⟨b, tail, t, f, -, -, h⟩ := parse_eq_ok.1 hparse
    have hne := pkid_ne_zero_of_parseAs h id hid
    exact ⟨hne, _, PacketId.read_eq hne⟩

/-! ## SUBACK there and back -/

end

/-- A header announcing too little, more than is there, a zero identifier or a reserved code. -/
def SubAckMalformed (len body : List UInt8) : Prop :=
  Varint.value len < 2 ∨ body.length < Varint.value len ∨ body.take 2 = [0, 0] ∨
    ∃ b ∈ (body.take (Varint.value len)).drop 2, b ∉ ([0, 1, 2, 0x80] : List UInt8)

theorem subAckCode_mem (c : SubAckCode) : c.toU8 ∈ ([0, 1, 2, 0x80] : List UInt8) := by
  cases c <;> decide

section

variable [Target]

/-- A SUBACK that is parsed is not malformed. -/
theorem not_malformed_of_parse {len body rest : List UInt8} {s : SubAck}
    (hterm : Varint.Terminated len)
    (h : SubAck.parse (0x90 :: (len ++ body)) = .ok (s, rest)) : ¬ SubAckMalformed len body := by
  obtain ⟨fixed, t, f, valid, -, heq, hlen, hne⟩ := SubAck.parse_eq_ok.1 h
  obtain ⟨-, heq⟩ := List.cons.inj heq
  obtain ⟨rfl, rfl⟩ := hterm.append_inj valid.terminated heq
  have hbody := SubAck.length_bodyWire s
  rw [SubAckMalformed, hlen]
  rintro (hshort | hmissing | hzero | ⟨b, hb, hcode⟩)
  · omega
  · rw [List.length_append] at hmissing
    omega
  · apply hne
    have hbe := fromBe_beBytes s.pkid.pkid.toNat_lt
    obtain ⟨hhi, hlo⟩ : UInt8.ofNat (s.pkid.pkid.toNat / 256) = 0 ∧
        UInt8.ofNat (s.pkid.pkid.toNat % 256) = 0 := by
      simpa [SubAck.bodyWire, PacketId.wire, beBytes] using hzero
    rw [hhi, hlo] at hbe
    exact UInt16.toNat_inj.1 hbe.symm
  · rw [List.take_left, SubAck.bodyWire, List.drop_left' (PacketId.length_wire _)] at hb
    obtain ⟨c, -, rfl⟩ := List.mem_map.1 hb
    exact hcode (subAckCode_mem c)

/-- What a SUBACK that is parsed is written as. -/
theorem suback_writes_back {tail rest : List UInt8} {s : SubAck}
    (h : SubAck.parse (0x90 :: tail) = .ok (s, rest)) (hmin : MinimalLength (0x90 :: tail)) :
    ∃ value n out, s.pkid.read = .ok value.pkid ∧ value.returnCodes = s.returnCodes ∧
      (SubAck.writeSync value).run ([] : List UInt8) = (.ok n, out) ∧
      0x90 :: tail = out ++ rest := by
  obtain ⟨fixed, t, f, valid, -, heq, hlen, hne⟩ := SubAck.parse_eq_ok.1 h
  rw [heq] at hmin
  obtain ⟨htype, -⟩ := List.cons.inj heq
  have hfirst : ControlPacketType.parse 0x90 = .ok (.subAck, TypeFlags.empty) := by decide
  obtain ⟨rfl, rfl⟩ : ControlPacketType.subAck = t ∧ TypeFlags.empty = f := by
    have := valid.type
    rw [← htype, hfirst] at this
    exact Prod.mk.inj (Except.ok.inj this)
  have hheader := valid.headerWire_eq (hmin.minimal valid)
  have hle := valid.value_le
  rw [hlen] at hle hheader
  let value : SubAckBuilder := ⟨⟨s.pkid.pkid, hne⟩, s.returnCodes⟩
  have hle : (SubAck.bodyWire (SubAck.ofBuilder value)).length ≤ 268435455 := hle
  refine ⟨value, _, _, PacketId.read_eq hne, rfl, (SubAck.writeSync_writes hle).run_nil, ?_⟩
  · rw [heq, packetWire, List.append_assoc, ← hheader]
    rfl

/-- A SUBACK is read back from what it is written as, and one with a minimal remaining length is
written back as it was read; a malformed one is rejected. -/
theorem suback_roundtrip :
    (∀ (value : SubAckBuilder) (rest : List UInt8), value.returnCodes.length ≤ 268435453 →
      ∃ n out s, (SubAck.writeSync value).run ([] : List UInt8) = (.ok n, out) ∧
        parse (out ++ rest) = .ok (.subAck s, rest) ∧ s.pkid.read = .ok value.pkid ∧
        s.returnCodes = value.returnCodes) ∧
    (∀ (tail rest : List UInt8) (s : SubAck), SubAck.parse (0x90 :: tail) = .ok (s, rest) →
      MinimalLength (0x90 :: tail) →
      ∃ value n out, s.pkid.read = .ok value.pkid ∧ value.returnCodes = s.returnCodes ∧
        (SubAck.writeSync value).run ([] : List UInt8) = (.ok n, out) ∧
        0x90 :: tail = out ++ rest) ∧
    (∀ len body : List UInt8, Varint.Terminated len → SubAckMalformed len body →
      ∃ e, SubAck.parse (0x90 :: (len ++ body)) = .error (.err e)) := by
  refine ⟨fun value rest hcodes => ?_, fun tail rest s => suback_writes_back, ?_⟩
  · have hle : (SubAck.bodyWire (SubAck.ofBuilder value)).length ≤ 268435455 := by
      rw [SubAck.length_bodyWire]
      exact Nat.add_le_add_left hcodes 2
    obtain ⟨h, valid, hlen, hwire, -⟩ := FixedHeaderSlice.parse_packetWire
      (t := .subAck) (f := TypeFlags.empty) rfl hle rest
    have hparse : SubAck.parse (packetWire .subAck TypeFlags.empty
        (SubAck.bodyWire (SubAck.ofBuilder value)) ++ rest) = .ok (SubAck.ofBuilder value, rest) :=
      SubAck.parse_eq_ok.2 ⟨h, _, _, valid, fun _ => rfl, by rw [hwire, List.append_assoc], hlen,
        value.pkid.ne_zero⟩
    refine ⟨_, _, SubAck.ofBuilder value, (SubAck.writeSync_writes hle).run_nil, ?_,
      PacketId.read_eq value.pkid.ne_zero, rfl⟩
    rw [parse_of_hasType (hasType_packetWire rfl _ _)]
    exact mapParsed_eq_ok.2 ⟨_, hparse, rfl⟩
  · intro len body hterm hbad
    refine NoPanic.fails (SubAck.parse_noPanic ⟨_, _, TypeFlags.empty, rfl, by decide⟩) ?_
    rintro ⟨s, rest⟩ h
    exact not_malformed_of_parse hterm h hbad

end

theorem suback_roundtrip_two :
    letI := Target.debug
    (∃ n out s, (SubAck.writeSync ⟨⟨10, by decide⟩, [.qos1, .failure]⟩).run ([] : List UInt8) =
        (.ok n, out) ∧ parse (out ++ [7]) = .ok (.subAck s, [7]) ∧
      s.pkid.read = .ok ⟨10, by decide⟩ ∧ s.returnCodes = [.qos1, .failure]) ∧
    (∃ (value : SubAckBuilder) (n : ℕ) (out : List UInt8),
      PacketId.read ⟨10⟩ = .ok value.pkid ∧ value.returnCodes = [.qos2] ∧
      (SubAck.writeSync value).run ([] : List UInt8) = (.ok n, out) ∧
      [0x90, 3, 0, 10, 2, 7] = out ++ [7]) ∧
    ∃ e, SubAck.parse (0x90 :: ([3] ++ [0, 10, 3])) = .error (.err e) := by
  obtain ⟨written, read, rejected⟩ := @suback_roundtrip Target.debug
  refine ⟨written ⟨⟨10, by decide⟩, [.qos1, .failure]⟩ [7] (by decide),
    read [3, 0, 10, 2, 7] [7] ⟨⟨10⟩, [.qos2]⟩ (by decide) ⟨[3], [0, 10, 2, 7], rfl, .last rfl,
      by decide⟩, rejected [3] [0, 10, 3] (.last rfl) ?_⟩
  exact .inr (.inr (.inr ⟨3, by decide, by decide⟩))

end Packet

/-! ## Packets of fixed size there and back -/

/-- A packet of fixed size with what the server makes it from. -/
inductive FixedPacket where
  | connAck (value : ConnAck)
  | pubAck (pkid : NonZeroU16)
  | pubRec (pkid : NonZeroU16)
  | pubRel (pkid : NonZeroU16)
  | pubComp (pkid : NonZeroU16)
  | unsubAck (pkid : NonZeroU16)
  | pingResp

namespace FixedPacket

/-- The packet as it should be received. -/
def toPacket : FixedPacket → Packet
  | connAck value => .connAck value
  | pubAck pkid => .pubAck ⟨⟨pkid.val⟩⟩
  | pubRec pkid => .pubRec ⟨⟨pkid.val⟩⟩
  | pubRel pkid => .pubRel ⟨⟨pkid.val⟩⟩
  | pubComp pkid => .pubComp ⟨⟨pkid.val⟩⟩
  | unsubAck pkid => .unsubAck ⟨⟨pkid.val⟩⟩
  | pingResp => .pingResp

section

variable [Target]

def writeSync : FixedPacket → Enc ℕ
  | connAck value => ConnAck.writeSync value
  | pubAck pkid => PubAck.writeSync pkid
  | pubRec pkid => PubRec.writeSync pkid
  | pubRel pkid => PubRel.writeSync pkid
  | pubComp pkid => PubComp.writeSync pkid
  | unsubAck pkid => UnsubAck.writeSync pkid
  | pingResp => PingResp.writeSync

/-- What is written is parsed back, whatever follows it. -/
def RoundTrips (p : FixedPacket) : Prop :=
  ∀ n out rest, p.writeSync.run ([] : List UInt8) = (.ok n, out) →
    Packet.parse (out ++ rest) = .ok (p.toPacket, rest)

/-- A parsed CONNACK has a fixed header before its two bytes. -/
theorem length_of_parse_connAck {buf rest : List UInt8} {value : ConnAck}
    (h : Packet.parse buf = .ok (.connAck value, rest)) : buf.length = 4 + rest.length := by
  obtain ⟨b, tail, t, f, rfl, hparse, hp⟩ := Packet.parse_eq_ok.1 h
  have hconn : t = .connAck := by
    cases t with
    | connAck => rfl
    | publish | pubAck | pubRec | pubRel | pubComp | subAck | unsubAck =>
      obtain ⟨a, -, heq⟩ := Packet.mapParsed_eq_ok.1 hp
      cases heq
    | pingResp =>
      rw [Packet.parseAs_pingResp] at hp
      obtain ⟨a, -, heq⟩ := Packet.mapParsed_eq_ok.1 hp
      cases heq
    | connect | subscribe | unsubscribe | pingReq | disconnect => simp [Packet.parseAs] at hp
  subst hconn
  obtain ⟨a, ha, -⟩ := Packet.mapParsed_eq_ok.1 hp
  obtain ⟨b', l, c, t, f', -, -, -, heq, -⟩ := ConnAck.parse_eq_ok.1 ha
  rw [heq]
  simp only [List.length_cons]
  omega

/-- An acknowledgement is parsed back from what it is written as. -/
theorem ack_roundTrips {t : ControlPacketType} {pkid : NonZeroU16} {c : Ack → Packet}
    (hc : ∀ buf, Packet.parseAs t buf = Packet.mapParsed c (Ack.parse t buf)) {n : ℕ}
    {out : List UInt8} (rest : List UInt8)
    (hrun : (Ack.writeSync t pkid).run ([] : List UInt8) = (.ok n, out)) :
    Packet.parse (out ++ rest) = .ok (c ⟨⟨pkid.val⟩⟩, rest) := by
  rw [(Ack.writeSync_writes t pkid).run_nil] at hrun
  obtain ⟨-, rfl⟩ := Prod.mk.inj hrun
  rw [Packet.parse_of_hasType (hasType_packetWire (validateTypeFlags_default t) _ _), hc]
  exact Packet.mapParsed_eq_ok.2 ⟨_, Ack.parse_packetWire t pkid rest, rfl⟩

/-- Every packet of fixed size but CONNACK is parsed back from what it is written as. -/
theorem roundTrips_iff (p : FixedPacket) : p.RoundTrips ↔ ∀ value, p ≠ .connAck value := by
  cases p with
  | connAck value =>
    refine iff_of_false (fun h => ?_) (fun h => h value rfl)
    have hparse := h 2 value.asBytes [] (ConnAck.writeSync_writes value).run_nil
    have hlen := length_of_parse_connAck hparse
    simp [ConnAck.asBytes] at hlen
  | pubAck pkid => exact iff_of_true (fun _ _ => ack_roundTrips fun _ => rfl) (by simp)
  | pubRec pkid => exact iff_of_true (fun _ _ => ack_roundTrips fun _ => rfl) (by simp)
  | pubRel pkid => exact iff_of_true (fun _ _ => ack_roundTrips fun _ => rfl) (by simp)
  | pubComp pkid => exact iff_of_true (fun _ _ => ack_roundTrips fun _ => rfl) (by simp)
  | unsubAck pkid => exact iff_of_true (fun _ _ => ack_roundTrips fun _ => rfl) (by simp)
  | pingResp =>
    refine iff_of_true (fun n out rest hrun => ?_) (by simp)
    have hwrites : PingResp.writeSync.Writes _ _ := Bare.writeSync_writes .pingResp
    rw [writeSync, hwrites.run_nil] at hrun
    obtain ⟨-, rfl⟩ := Prod.mk.inj hrun
    rw [Packet.parse_of_hasType (hasType_packetWire (validateTypeFlags_default .pingResp) _ _),
      Packet.parseAs_pingResp]
    exact Packet.mapParsed_eq_ok.2 ⟨(), Bare.parse_packetWire .pingResp rest, rfl⟩

end

/-- An accepted connection is written as two bytes, which are no packet. -/
theorem connack_no_header :
    letI := Target.debug
    ¬ RoundTrips (.connAck ⟨ConnAckFlags.sessionPresent, .accepted⟩) := by
  let := Target.debug
  intro h
  have hparse := h 2 [1, 0] [] (by decide)
  exact absurd hparse (by decide)

end FixedPacket

end Mcutt
