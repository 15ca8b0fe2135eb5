import Mcutt.Lib.Framing
import Mcutt.Packets.Connect
import Mcutt.Packets.Publish
import Mcutt.Packets.Subscribe

/-!
# The packets a client sends

Every packet a client sends, written one after the other to one writer.  What a packet that is
written appends is one frame (`ClientPacket.writeSync_eq_ok`), so the output is cut back into the
packets (`outgoing_frames`).  What a packet that is rejected leaves behind depends on whether the
value was checked before its header was written (`rejected_untouched_iff`).
-/

namespace Mcutt

/-- A packet sent by the client, with what it is made from. -/
inductive ClientPacket where
  | connect (value : ConnectBuilder)
  | publish (value : PublishBuilder)
  | subscribe (value : SubscribeBuilder)
  | unsubscribe (value : UnsubscribeBuilder)
  | pubAck (pkid : NonZeroU16)
  | pubRec (pkid : NonZeroU16)
  | pubRel (pkid : NonZeroU16)
  | pubComp (pkid : NonZeroU16)
  | pingReq
  | disconnect

namespace ClientPacket

/-- The bytes of the packet. -/
def wire : ClientPacket → List UInt8
  | connect value => packetWire .connect TypeFlags.empty (Connect.body value)
  | publish value => packetWire .publish value.flags (Publish.body value)
  | subscribe value => packetWire .subscribe TypeFlags.subscribe (Subscribe.body value)
  | unsubscribe value => packetWire .unsubscribe TypeFlags.unsubscribe (Unsubscribe.body value)
  | pubAck pkid => packetWire .pubAck TypeFlags.empty (PacketId.wire pkid.val)
  | pubRec pkid => packetWire .pubRec TypeFlags.empty (PacketId.wire pkid.val)
  | pubRel pkid => packetWire .pubRel TypeFlags.pubrel (PacketId.wire pkid.val)
  | pubComp pkid => packetWire .pubComp TypeFlags.empty (PacketId.wire pkid.val)
  | pingReq => packetWire .pingReq TypeFlags.empty []
  | disconnect => packetWire .disconnect TypeFlags.empty []

section

variable [Target]

def writeSync : ClientPacket → Enc ℕ
  | connect value => Connect.writeSync value
  | publish value => Publish.writeSync value
  | subscribe value => Subscribe.writeSync value
  | unsubscribe value => Unsubscribe.writeSync value
  | pubAck pkid => PubAck.writeSync pkid
  | pubRec pkid => PubRec.writeSync pkid
  | pubRel pkid => PubRel.writeSync pkid
  | pubComp pkid => PubComp.writeSync pkid
  | pingReq => PingReq.writeSync
  | disconnect => Disconnect.writeSync

theorem isFrame_packetWire (t : ControlPacketType) (f : TypeFlags) {bs : List UInt8}
    (hle : bs.length ≤ 268435455) :
    Framing.IsFrame FixedHeader.nextFrame (packetWire t f bs) :=
  ⟨by simp [packetWire, headerWire], nextFrame_packetWire t f hle⟩

/-- A packet that is written appends one frame and returns its length. -/
theorem writeSync_eq_ok {p : ClientPacket} {n : ℕ} (hok : p.writeSync.result = .ok n) :
    p.writeSync.output = p.wire ∧ n = p.wire.length ∧
      Framing.IsFrame FixedHeader.nextFrame p.wire := by
  have ack (t : ControlPacketType) (pkid : NonZeroU16)
      (hok : (Ack.writeSync t pkid).result = .ok n) :
      (Ack.writeSync t pkid).output =
          packetWire t (FixedHeaderBuilder.defaultFlags t) (PacketId.wire pkid.val) ∧
        n = (packetWire t (FixedHeaderBuilder.defaultFlags t) (PacketId.wire pkid.val)).length ∧
        Framing.IsFrame FixedHeader.nextFrame
          (packetWire t (FixedHeaderBuilder.defaultFlags t) (PacketId.wire pkid.val)) := by
    have hw := Ack.writeSync_writes t pkid
    rw [hw.result_eq] at hok
    exact ⟨hw.output_eq, (Except.ok.inj hok).symm,
      isFrame_packetWire t _ (by simp [PacketId.length_wire])⟩
  have bare (t : ControlPacketType) (hok : (Bare.writeSync t).result = .ok n) :
      (Bare.writeSync t).output = packetWire t (FixedHeaderBuilder.defaultFlags t) [] ∧
        n = (packetWire t (FixedHeaderBuilder.defaultFlags t) []).length ∧
        Framing.IsFrame FixedHeader.nextFrame
          (packetWire t (FixedHeaderBuilder.defaultFlags t) []) := by
    have hw := Bare.writeSync_writes t
    rw [hw.result_eq] at hok
    exact ⟨hw.output_eq, (Except.ok.inj hok).symm, isFrame_packetWire t _ (by simp)⟩
  cases p with
  | connect value =>
    obtain ⟨-, hle, hout, hn⟩ := Connect.writeSync_eq_ok hok
    exact ⟨hout, hn, isFrame_packetWire _ _ hle⟩
  | publish value =>
    obtain ⟨-, -, hle, hout, hn⟩ := Publish.writeSync_eq_ok hok
    exact ⟨hout, hn, isFrame_packetWire _ _ hle⟩
  | subscribe value =>
    obtain ⟨-, hle, hout, hn⟩ := Subscribe.writeSync_eq_ok hok
    exact ⟨hout, hn, isFrame_packetWire _ _ hle⟩
  | unsubscribe value =>
    obtain ⟨-, -, hle, hout, hn⟩ := Unsubscribe.writeSync_checked hok
    exact ⟨hout, hn, isFrame_packetWire _ _ hle⟩
  | pubAck pkid => exact ack .pubAck pkid hok
  | pubRec pkid => exact ack .pubRec pkid hok
  | pubRel pkid => exact ack .pubRel pkid hok
  | pubComp pkid => exact ack .pubComp pkid hok
  | pingReq => exact bare .pingReq hok
  | disconnect => exact bare .disconnect hok

/-- Every packet starts with its type byte, unless it is rejected before. -/
theorem writeSync_opens (p : ClientPacket) : ∃ b, p.writeSync.Opens [b] := by
  cases p with
  | connect | publish | subscribe | unsubscribe | pubAck | pubRec | pubRel | pubComp =>
    exact ⟨_, writePacket_opens⟩
  | pingReq | disconnect => exact ⟨_, FixedHeaderSlice.writeSync_opens _⟩

/-! ## One packet after the other -/

/-- Writing packets to one `Vec<u8>` until one fails: for each, what the call returns and the
bytes it appends. -/
def writeEach : List ClientPacket → List UInt8 → Exec (List (ℕ × List UInt8)) × List UInt8
  | [], w => (.ok [], w)
  | p :: ps, w =>
    match p.writeSync.run w with
    | (.error e, w') => (.error e, w')
    | (.ok n, w') =>
      match writeEach ps w' with
      | (.error e, w'') => (.error e, w'')
      | (.ok calls, w'') => (.ok ((n, w'.drop w.length) :: calls), w'')

theorem writeEach_eq_ok {ps : List ClientPacket} {w w' : List UInt8}
    {calls : List (ℕ × List UInt8)} (hok : writeEach ps w = (.ok calls, w')) :
    w' = w ++ (ps.map wire).flatten ∧ calls = ps.map (fun p => (p.wire.length, p.wire)) ∧
      ∀ p ∈ ps, Framing.IsFrame FixedHeader.nextFrame p.wire := by
  induction ps generalizing w calls with
  | nil =>
    obtain ⟨rfl, rfl⟩ : [] = calls ∧ w = w' := by simpa [writeEach] using hok
    simp
  | cons p ps ih =>
    simp only [writeEach] at hok
    split at hok
    · simp at hok
    · rename_i n v hrun
      split at hok
      · simp at hok
      · rename_i calls' v' hrest
        simp only [Prod.mk.injEq, Except.ok.injEq] at hok
        obtain ⟨rfl, rfl⟩ := hok
        have hsink := p.writeSync.run_sink w
        rw [hrun] at hsink
        obtain ⟨hout, hn, hframe⟩ := writeSync_eq_ok hsink.1.symm
        have hv : v = w ++ p.wire := hsink.2.trans (congrArg (w ++ ·) hout)
        obtain ⟨hw, hcalls, hframes⟩ := ih hrest
        refine ⟨?_, ?_, ?_⟩
        · rw [hw, hv, List.map_cons, List.flatten_cons, List.append_assoc]
        · rw [hv, List.drop_left, hn, hcalls, List.map_cons]
        · exact List.forall_mem_cons.2 ⟨hframe, hframes⟩

/-- Every call returns the number of bytes it appends, and what the calls append is cut back into
one frame for each of them. -/
theorem outgoing_frames (ps : List ClientPacket) (w w' : List UInt8)
    (calls : List (ℕ × List UInt8)) (hok : writeEach ps w = (.ok calls, w')) :
    calls.length = ps.length ∧ (∀ call ∈ calls, call.1 = call.2.length) ∧
      w' = w ++ (calls.map Prod.snd).flatten ∧
      Framing.frames FixedHeader.nextFrame (w'.drop w.length) =
        .ok (calls.map Prod.snd, []) := by
  obtain ⟨rfl, rfl, hframes⟩ := writeEach_eq_ok hok
  refine ⟨by simp, by simp, by simp [Function.comp_def], ?_⟩
  rw [List.drop_left, List.map_map]
  apply Framing.frames_flatten rfl
  intro q hq
  obtain ⟨p, hp, rfl⟩ := List.mem_map.1 hq
  exact hframes p hp

end

theorem outgoing_frames_two :
    letI := Target.debug
    let calls := [(8, [0x32, 6, 0, 1, 97, 0, 10, 42]), (2, [0xE0, 0])]
    let out := [0x32, 6, 0, 1, 97, 0, 10, 42, 0xE0, 0]
    calls.length = 2 ∧ (∀ call ∈ calls, call.1 = call.2.length) ∧
      out = [] ++ (calls.map Prod.snd).flatten ∧
      Framing.frames FixedHeader.nextFrame (out.drop 0) = .ok (calls.map Prod.snd, []) := by
  refine @outgoing_frames Target.debug
    [.publish ⟨TypeFlags.publishQos1, some ⟨10, by decide⟩, "a", [42]⟩, .disconnect] [] _ _ ?_
  decide

end ClientPacket

/-! ## Rejected packets -/

section

variable [Target]

/-- Which values leave no trace when they are rejected.  CONNECT checks nothing before its header
is written, the other packets check their wildcards, and every encoder checks its length. -/
theorem rejected_untouched_iff :
    (∀ value, (Connect.writeSync value).Untouched ↔
      (∀ n, Connect.encodeLen value = .ok n → 268435455 < n) ∨ Connect.PartsValid value) ∧
    (∀ value, (Publish.writeSync value).Untouched ↔ containsWildcardChar value.topic = true ∨
      268435455 < (Publish.body value).length ∨ MqttStr.Valid value.topic) ∧
    (∀ value, (Subscribe.writeSync value).Untouched ↔
      (∃ f ∈ value.filters, hasValidWildcard f.topic = false) ∨
      268435455 < (Subscribe.body value).length ∨ ∀ f ∈ value.filters, MqttStr.Valid f.topic) ∧
    (∀ value, (Unsubscribe.writeSync value).Untouched ↔
      (∃ f ∈ value.filters, hasValidWildcard f = false) ∨
      268435455 < (Unsubscribe.body value).length ∨ ∀ f ∈ value.filters, MqttStr.Valid f) := by
  refine ⟨fun value => ?_, fun value => ?_, fun value => ?_, fun value => ?_⟩
  · rw [Connect.writeSync, writePacket_untouched_iff rfl (Connect.checks_writeBody value)]
    simp
  · rw [Publish.writeSync, writePacket_untouched_iff rfl (Publish.checks_writeBody value),
      (Publish.measures_encodeLen value).too_long_iff (by decide), ne_eq,
      Publish.validateValue_eq_ok, Bool.not_eq_false]
  · rw [Subscribe.writeSync, writePacket_untouched_iff rfl (Subscribe.checks_writeBody value),
      (Subscribe.measures_encodeLen value).too_long_iff (by decide), ne_eq,
      Subscribe.validateValue_eq_ok]
    have bad : (∃ f ∈ value.filters, hasValidWildcard f.topic = false) ↔
        ¬ ∀ f ∈ value.filters, hasValidWildcard f.topic = true := by simp
    rw [bad]
    by_cases hwild : ∀ f ∈ value.filters, hasValidWildcard f.topic = true
    · exact or_congr_right (or_congr_right
        (forall₂_congr fun f hf => and_iff_right (hwild f hf)))
    · exact iff_of_true (Or.inl hwild) (Or.inl hwild)
  · rw [Unsubscribe.writeSync, writePacket_untouched_iff rfl (Unsubscribe.checks_writeBody value),
      (Unsubscribe.measures_encodeLen value).too_long_iff (by decide), ne_eq,
      Unsubscribe.validateValue_eq_ok]
    simp

end

/-- A topic with a control character is rejected after the fixed header is written. -/
theorem rejected_topic_written :
    letI := Target.debug
    ¬ (Publish.writeSync (PublishBuilder.new "\x01" [])).Untouched := by
  let := Target.debug
  rw [Enc.untouched_iff]
  intro h
  exact absurd (h ⟨.invalid, "string contains invalid characters"⟩ (by decide)) (by decide)

end Mcutt
