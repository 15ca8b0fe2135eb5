import Mcutt.Packets.ConnAck
import Mcutt.Packets.Publish
import Mcutt.Packets.Subscribe

/-!
# The packets a server sends

`packet.rs`: the dispatch on the packet type.  PUBLISH and SUBACK take the bytes their header
announces, the other packets take a fixed number of bytes whatever it announces; so the parser and
`next_frame` agree on the end of a packet unless the remaining length of a fixed-size packet is not
its size (`parse_agrees_iff`).
-/

namespace Mcutt

/-- Packets that can be received from a connection. -/
inductive Packet where
  | connAck (p : ConnAck)
  | publish (p : Publish)
  | pubAck (p : Ack)
  | pubRec (p : Ack)
  | pubRel (p : Ack)
  | pubComp (p : Ack)
  | subAck (p : SubAck)
  | unsubAck (p : Ack)
  | pingResp
  deriving DecidableEq, Repr

namespace Packet

section

variable [Target]

/-- `T::parse(buf).map(|(p, rest)| (f(p), rest))`. -/
def mapParsed {α β : Type} (f : α → β) (x : Exec (α × List UInt8)) : Exec (β × List UInt8) := do
  let (p, rest) ← x
  .ok (f p, rest)

/-- The arms of the dispatch. -/
def parseAs (pkgType : ControlPacketType) (buf : List UInt8) : Exec (Packet × List UInt8) :=
  match pkgType with
  | .connAck => mapParsed connAck (ConnAck.parse buf)
  | .publish => mapParsed publish (Publish.parse buf)
  | .pubAck => mapParsed pubAck (PubAck.parse buf)
  | .pubRec => mapParsed pubRec (PubRec.parse buf)
  | .pubRel => mapParsed pubRel (PubRel.parse buf)
  | .pubComp => mapParsed pubComp (PubComp.parse buf)
  | .subAck => mapParsed subAck (SubAck.parse buf)
  | .unsubAck => mapParsed unsubAck (UnsubAck.parse buf)
  | .pingResp => mapParsed (fun _ => pingResp) (PingResp.parse buf)
  | .connect | .subscribe | .unsubscribe | .pingReq | .disconnect =>
    fail .invalid "packet type received"

def parse (buf : List UInt8) : Exec (Packet × List UInt8) := do
  let first ← okOr buf.head? .notEnoughSpace "empty buffer"
  let (pkgType, _) ← ControlPacketType.parse first
  parseAs pkgType buf

omit [Target] in
theorem mapParsed_eq_ok {α β : Type} {f : α → β} {x : Exec (α × List UInt8)} {b : β}
    {rest : List UInt8} :
    mapParsed f x = .ok (b, rest) ↔ ∃ a, x = .ok (a, rest) ∧ f a = b := by
  cases x with
  | error e => simp [mapParsed]
  | ok r =>
    obtain ⟨a, rest'⟩ := r
    simp only [mapParsed, ok_bind, Except.ok.injEq, Prod.mk.injEq]
    constructor
    · rintro ⟨rfl, rfl⟩
      exact ⟨a, ⟨rfl, rfl⟩, rfl⟩
    · rintro ⟨a', ⟨rfl, rfl⟩, rfl⟩
      exact ⟨rfl, rfl⟩

theorem parse_eq_ok {buf rest : List UInt8} {p : Packet} :
    parse buf = .ok (p, rest) ↔ ∃ b tail t f, buf = b :: tail ∧
      ControlPacketType.parse b = .ok (t, f) ∧ parseAs t buf = .ok (p, rest) := by
  cases buf with
  | nil => simp [parse]
  | cons b tail =>
    simp only [parse, List.head?_cons, okOr_some, ok_bind, bind_eq_ok, List.cons.injEq]
    constructor
    · rintro ⟨⟨t, f⟩, hparse, h⟩
      exact ⟨b, tail, t, f, ⟨rfl, rfl⟩, hparse, h⟩
    · rintro ⟨_, _, t, f, ⟨rfl, rfl⟩, hparse, h⟩
      exact ⟨(t, f), hparse, h⟩

theorem parse_of_hasType {t : ControlPacketType} {buf : List UInt8} (htype : HasType t buf) :
    parse buf = parseAs t buf := by
  obtain ⟨b, tail, f, rfl, hparse⟩ := htype
  simp only [parse, List.head?_cons, okOr_some, ok_bind, hparse]

/-! ## Where a packet ends -/

/-- How many bytes a fixed-size packet has after its header. -/
def fixedSize : ControlPacketType → Option ℕ
  | .connAck => some 2
  | .pubAck => some 2
  | .pubRec => some 2
  | .pubRel => some 2
  | .pubComp => some 2
  | .unsubAck => some 2
  | .pingResp => some 0
  | _ => none

/-- The bytes after the header of a fixed-size packet are accepted. -/
def BodyAccepted (t : ControlPacketType) (body : List UInt8) : Prop :=
  match t with
  | .connAck => ∃ flags c rest, body = flags :: c :: rest ∧ c ≤ 5
  | .pubAck | .pubRec | .pubRel | .pubComp | .unsubAck =>
    ∃ pkid rest, body = PacketId.wire pkid ++ rest ∧ pkid ≠ 0
  | .pingResp => True
  | _ => False

/-- The parser, if it returns a packet, took what the frame splitter announces. -/
def AgreesWithFrame (buf : List UInt8) : Prop :=
  ∀ p rest, parse buf = .ok (p, rest) →
    FixedHeader.nextFrame buf = .ok (some (buf.length - rest.length))

/-- A fixed-size packet that is accepted although it announces another size. -/
def SizeIgnored (buf : List UInt8) : Prop :=
  ∃ b l body t f n, buf = b :: l :: body ∧ ControlPacketType.parse b = .ok (t, f) ∧ l < 128 ∧
    BodyAccepted t body ∧ fixedSize t = some n ∧ l.toNat ≠ n

/-- A packet that takes the bytes its header announces ends where the frame ends. -/
theorem nextFrame_of_announced {h : FixedHeader} {t : ControlPacketType} {f : TypeFlags}
    (valid : h.Valid t f) {body rest : List UInt8}
    (hlen : Varint.value h.remainingLength.len = body.length) :
    FixedHeader.nextFrame (h.bytes ++ (body ++ rest)) =
      .ok (some ((h.bytes ++ (body ++ rest)).length - rest.length)) := by
  refine FixedHeader.nextFrame_eq_some.2 ⟨h.typeAndFlags, h.remainingLength.len, body ++ rest, rfl,
    valid.terminated, valid.length_le, ?_⟩
  rw [hlen]
  simp only [FixedHeader.bytes, List.length_append, List.length_cons]
  omega

/-- A packet with a one-byte remaining length ends where its value says. -/
theorem nextFrame_of_byte (b : UInt8) {l : UInt8} (hl : l < 128) (body : List UInt8) :
    FixedHeader.nextFrame (b :: l :: body) = .ok (some (2 + l.toNat)) := by
  refine FixedHeader.nextFrame_eq_some.2 ⟨b, [l], body, rfl, .last (Varint.more_eq_false.2 hl),
    by simp, ?_⟩
  have hlt : l.toNat < 128 := UInt8.lt_iff_toNat_lt.1 hl
  simp only [Varint.value_cons, Varint.value_nil, Varint.digit, List.length_singleton]
  omega

theorem ack_accepted {b : UInt8} {t : ControlPacketType} {f : TypeFlags} (c : Ack → Packet)
    (hparse : ControlPacketType.parse b = .ok (t, f)) (tail rest : List UInt8) :
    (∃ p, mapParsed c (Ack.parse t (b :: tail)) = .ok (p, rest)) ↔
      ∃ l body, tail = l :: body ∧ l < 128 ∧
        (∃ pkid rest, body = PacketId.wire pkid ++ rest ∧ pkid ≠ 0) ∧ rest = body.drop 2 := by
  simp only [mapParsed_eq_ok, Ack.parse_eq_ok]
  constructor
  · rintro ⟨_, a, ⟨b', l, -, -, -, -, hmore, heq, hne⟩, -⟩
    obtain ⟨rfl, rfl⟩ := List.cons.inj heq
    exact ⟨l, _, rfl, Varint.more_eq_false.1 hmore, ⟨_, _, rfl, hne⟩, rfl⟩
  · rintro ⟨l, _, rfl, hl, ⟨pkid, rest', rfl, hne⟩, rfl⟩
    exact ⟨_, ⟨⟨pkid⟩⟩, ⟨b, l, t, f, hparse, fun _ => rfl, Varint.more_eq_false.2 hl, rfl, hne⟩,
      rfl⟩

theorem connAck_accepted {b : UInt8} {f : TypeFlags}
    (hparse : ControlPacketType.parse b = .ok (.connAck, f)) (tail rest : List UInt8) :
    (∃ p, parseAs .connAck (b :: tail) = .ok (p, rest)) ↔
      ∃ l body, tail = l :: body ∧ l < 128 ∧ BodyAccepted .connAck body ∧
        rest = body.drop 2 := by
  simp only [parseAs, mapParsed_eq_ok, ConnAck.parse_eq_ok, BodyAccepted]
  constructor
  · rintro ⟨_, a, ⟨b', l, c, -, -, -, -, hmore, heq, hcode⟩, -⟩
    obtain ⟨rfl, rfl⟩ := List.cons.inj heq
    have hc : c ≤ 5 := by
      have := ConnAck.tryFromByte_isSome c
      rw [hcode] at this
      simpa using this.symm
    exact ⟨l, _, rfl, Varint.more_eq_false.1 hmore, ⟨_, c, rest, rfl, hc⟩, rfl⟩
  · rintro ⟨l, _, rfl, hl, ⟨flags, c, rest', rfl, hc⟩, rfl⟩
    have hsome : (ReturnCode.tryFromByte c).isSome = true := by
      rw [ConnAck.tryFromByte_isSome]
      simpa using hc
    obtain ⟨r, hr⟩ := Option.isSome_iff_exists.1 hsome
    exact ⟨_, ⟨⟨flags⟩, r⟩, ⟨b, l, c, _, f, hparse, fun _ => rfl, Varint.more_eq_false.2 hl, rfl,
      hr⟩, rfl⟩

theorem pingResp_accepted {b : UInt8} {f : TypeFlags}
    (hparse : ControlPacketType.parse b = .ok (.pingResp, f)) (tail rest : List UInt8) :
    (∃ p, parseAs .pingResp (b :: tail) = .ok (p, rest)) ↔
      ∃ l body, tail = l :: body ∧ l < 128 ∧ BodyAccepted .pingResp body ∧
        rest = body.drop 0 := by
  simp only [parseAs, mapParsed_eq_ok, BodyAccepted, true_and, List.drop_zero]
  constructor
  · rintro ⟨_, ⟨⟩, h, -⟩
    obtain ⟨b', l, -, -, -, -, hmore, heq⟩ := Bare.parse_eq_ok.1 h
    obtain ⟨rfl, rfl⟩ := List.cons.inj heq
    exact ⟨l, _, rfl, Varint.more_eq_false.1 hmore, rfl⟩
  · rintro ⟨l, _, rfl, hl, rfl⟩
    exact ⟨_, (), Bare.parse_eq_ok.2 ⟨b, l, _, f, hparse, fun _ => rfl,
      Varint.more_eq_false.2 hl, rfl⟩, rfl⟩

/-- A fixed-size packet is accepted whatever the value of its remaining length. -/
theorem fixed_accepted {b : UInt8} {t : ControlPacketType} {f : TypeFlags} {n : ℕ}
    (hparse : ControlPacketType.parse b = .ok (t, f)) (hsize : fixedSize t = some n)
    (tail rest : List UInt8) :
    (∃ p, parseAs t (b :: tail) = .ok (p, rest)) ↔
      ∃ l body, tail = l :: body ∧ l < 128 ∧ BodyAccepted t body ∧ rest = body.drop n := by
  cases t with
  | connAck =>
    obtain rfl : 2 = n := by simpa [fixedSize] using hsize
    exact connAck_accepted hparse tail rest
  | pubAck =>
    obtain rfl : 2 = n := by simpa [fixedSize] using hsize
    exact ack_accepted pubAck hparse tail rest
  | pubRec =>
    obtain rfl : 2 = n := by simpa [fixedSize] using hsize
    exact ack_accepted pubRec hparse tail rest
  | pubRel =>
    obtain rfl : 2 = n := by simpa [fixedSize] using hsize
    exact ack_accepted pubRel hparse tail rest
  | pubComp =>
    obtain rfl : 2 = n := by simpa [fixedSize] using hsize
    exact ack_accepted pubComp hparse tail rest
  | unsubAck =>
    obtain rfl : 2 = n := by simpa [fixedSize] using hsize
    exact ack_accepted unsubAck hparse tail rest
  | pingResp =>
    obtain rfl : 0 = n := by simpa [fixedSize] using hsize
    exact pingResp_accepted hparse tail rest
  | _ => simp [fixedSize] at hsize

/-- PUBLISH and SUBACK end where their header says, and no other packet is accepted. -/
theorem parseAs_agrees {t : ControlPacketType} {buf rest : List UInt8} {p : Packet}
    (hsize : fixedSize t = none) (h : parseAs t buf = .ok (p, rest)) :
    FixedHeader.nextFrame buf = .ok (some (buf.length - rest.length)) := by
  cases t with
  | publish =>
    obtain ⟨this, hthis, -⟩ := mapParsed_eq_ok.1 h
    obtain ⟨t, f, valid, -, rfl, hlen, -⟩ := Publish.parse_eq_ok.1 hthis
    exact nextFrame_of_announced valid hlen
  | subAck =>
    obtain ⟨this, hthis, -⟩ := mapParsed_eq_ok.1 h
    obtain ⟨fixed, t, f, valid, -, rfl, hlen, -⟩ := SubAck.parse_eq_ok.1 hthis
    exact nextFrame_of_announced valid hlen
  | connAck | pubAck | pubRec | pubRel | pubComp | unsubAck | pingResp => simp [fixedSize] at hsize
  | connect | subscribe | unsubscribe | pingReq | disconnect => simp [parseAs] at h

omit [Target] in
/-- The size of an accepted body. -/
theorem BodyAccepted.le_length {t : ControlPacketType} {body : List UInt8} {n : ℕ}
    (h : BodyAccepted t body) (hsize : fixedSize t = some n) : n ≤ body.length := by
  cases t with
  | connAck =>
    obtain ⟨flags, c, rest, rfl, -⟩ := h
    obtain rfl : 2 = n := by simpa [fixedSize] using hsize
    simp
  | pubAck | pubRec | pubRel | pubComp | unsubAck =>
    obtain ⟨pkid, rest, rfl, -⟩ := h
    obtain rfl : 2 = n := by simpa [fixedSize] using hsize
    simp [PacketId.length_wire]
  | pingResp =>
    obtain rfl : 0 = n := by simpa [fixedSize] using hsize
    exact Nat.zero_le _
  | _ => simp [fixedSize] at hsize

/-- The parser and the frame splitter agree unless the size of a fixed-size packet is ignored. -/
theorem parse_agrees_iff (buf : List UInt8) : AgreesWithFrame buf ↔ ¬ SizeIgnored buf := by
  constructor
  · rintro agrees ⟨b, l, body, t, f, n, rfl, hparse, hl, hbody, hsize, hne⟩
    have hle := hbody.le_length hsize
    obtain ⟨p, hp⟩ := (fixed_accepted hparse hsize (l :: body) (body.drop n)).2
      ⟨l, body, rfl, hl, hbody, rfl⟩
    have hframe := agrees p _ (parse_eq_ok.2 ⟨b, _, t, f, rfl, hparse, hp⟩)
    rw [nextFrame_of_byte b hl body] at hframe
    simp only [Except.ok.injEq, Option.some.injEq, List.length_cons, List.length_drop] at hframe
    omega
  · intro hsizes p rest h
    obtain ⟨b, tail, t, f, rfl, hparse, hp⟩ := parse_eq_ok.1 h
    cases hsize : fixedSize t with
    | none => exact parseAs_agrees hsize hp
    | some n =>
      obtain ⟨l, body, rfl, hl, hbody, rfl⟩ := (fixed_accepted hparse hsize tail rest).1 ⟨p, hp⟩
      have hle := hbody.le_length hsize
      have hn : l.toNat = n := by
        by_contra hne
        exact hsizes ⟨b, l, body, t, f, n, rfl, hparse, hl, hbody, hsize, hne⟩
      rw [nextFrame_of_byte b hl body]
      simp only [List.length_cons, List.length_drop]
      congr 2
      omega

end

/-- A PUBACK that announces five bytes is taken to end after two. -/
theorem puback_size_ignored :
    letI := Target.debug
    ¬ AgreesWithFrame [0x40, 5, 0, 1, 7, 7, 7] := by
  let := Target.debug
  intro agrees
  have h := agrees (.pubAck ⟨⟨1⟩⟩) [7, 7, 7] (by decide)
  exact absurd h (by decide)

/-! ## PUBLISH there and back -/

/-- A builder with matching flags and identifier is read back from what it is written as, and a
PUBLISH with a minimal remaining length is written back as it was read. -/
theorem publish_roundtrip [Target] :
    (∀ (value : PublishBuilder) (n : ℕ) (out rest : List UInt8),
      value.pkid.isSome = value.flags.hasQos →
      (Publish.writeSync value).run ([] : List UInt8) = (.ok n, out) →
      ∃ p, parse (out ++ rest) = .ok (.publish p, rest) ∧ p.fixed.flags = value.flags ∧
        p.packetId.map PacketId.pkid = value.pkid.map NonZeroU16.val ∧
        p.topic.data = value.topic ∧ p.payload = value.payload) ∧
    (∀ (b : UInt8) (tail rem : List UInt8) (p : Publish),
      ControlPacketType.tryFrom (b >>> 4) = .ok .publish →
      Publish.parse (b :: tail) = .ok (p, rem) →
      Varint.Minimal p.fixed.remainingLength.len →
      ∃ value n out, p.toBuilder = .ok value ∧
        (Publish.writeSync value).run ([] : List UInt8) = (.ok n, out) ∧
        b :: tail = out ++ rem) := by
  refine ⟨fun value n out rest hpkid hrun => ?_, fun b tail rem p htype hparse hminimal => ?_⟩
  · obtain ⟨hresult, rfl⟩ := Enc.of_run_nil hrun
    obtain ⟨hwild, hvalid, hle, hout, -⟩ := Publish.writeSync_eq_ok hresult
    have hp := Publish.parse_packetWire hpkid hwild hvalid hle rest
    rw [hout]
    refine ⟨Publish.ofBuilder value, ?_, (Publish.ofBuilder_valid hle).flags_eq, ?_, rfl, rfl⟩
    · refine parse_eq_ok.2 ⟨_, _, .publish, value.flags, rfl,
        ControlPacketType.parse_encode _ _ rfl, ?_⟩
      exact mapParsed_eq_ok.2 ⟨_, hp, rfl⟩
    · simp [Publish.ofBuilder, Function.comp_def]
  · obtain ⟨t, f, valid, -, heq, -⟩ := Publish.parse_eq_ok.1 hparse
    obtain ⟨hb, -⟩ : b = p.fixed.typeAndFlags ∧ _ := List.cons.inj heq
    have ht : t = .publish := by
      have := (ControlPacketType.encode_of_parse valid.type).2.2.2
      rw [← hb, htype] at this
      simpa using this.symm
    subst ht
    obtain ⟨value, out, hbuild, hwrites, hbuf⟩ :=
      Publish.toBuilder_writes hparse ⟨f, valid.type⟩ hminimal
    refine ⟨value, out.length, out, hbuild, ?_, hbuf⟩
    rw [Enc.run_nil, hwrites.result_eq, hwrites.output_eq]

theorem publish_roundtrip_qos1 :
    letI := Target.debug
    (∃ p, parse ([0x32, 6, 0, 1, 97, 0, 10, 42] ++ [9]) = .ok (.publish p, [9]) ∧
      p.fixed.flags = TypeFlags.publishQos1 ∧ p.packetId.map PacketId.pkid = some 10 ∧
      p.topic.data = "a" ∧ p.payload = [42]) ∧
    (∃ value n out, Publish.toBuilder
        ⟨⟨0x32, ⟨[6]⟩⟩, ⟨1, "a"⟩, some ⟨10⟩, [42]⟩ = .ok value ∧
      (Publish.writeSync value).run ([] : List UInt8) = (.ok n, out) ∧
      [0x32, 6, 0, 1, 97, 0, 10, 42, 9] = out ++ [9]) := by
  refine ⟨(@publish_roundtrip Target.debug).1 ⟨TypeFlags.publishQos1, some ⟨10, by decide⟩, "a",
    [42]⟩ 8 _ [9] (by decide) (by decide), (@publish_roundtrip Target.debug).2 _ _ _ _
    (by decide) (by decide) (by decide)⟩

end Packet

end Mcutt
