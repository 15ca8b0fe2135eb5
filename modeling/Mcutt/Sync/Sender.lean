import Mcutt.Lib.Interleaving
import Mcutt.Packets.Outgoing
import Mcutt.Sync.Half

/-!
# Sending packets

The methods of `Sender` for `WriterHalf`, which `Connection` passes its own on to.  They take
`&self` and hold no lock, so two of them may run at a time, each making the `write_all` calls of
its encoder on the one writer.  Sends that do not overlap put their packets on the wire one after
the other, and any two sends can overlap such that neither packet is whole (`concurrent_sends`).
-/

namespace Mcutt

open Interleaving

/-! ## The methods -/

namespace WriterHalf

variable {W : Type} [Target] [Write W]

/-- `write_sync`, `flush` and `sent_flag.store(true)`. -/
def send (packet : Enc ℕ) : EStateM Fault (WriterHalf W) Unit := do
  let _ ← writeSync packet
  flush
  modify fun self => { self with sentFlag := true }

def publish (value : PublishBuilder) : EStateM Fault (WriterHalf W) Unit :=
  send (Publish.writeSync value)

def subscribe (value : SubscribeBuilder) : EStateM Fault (WriterHalf W) Unit :=
  send (Subscribe.writeSync value)

def unsubscribe (value : UnsubscribeBuilder) : EStateM Fault (WriterHalf W) Unit :=
  send (Unsubscribe.writeSync value)

def disconnect : EStateM Fault (WriterHalf W) Unit := do
  let _ ← writeSync Disconnect.writeSync
  flush

end WriterHalf

/-- A call of a method of `Sender`. -/
inductive SenderCall where
  | publish (value : PublishBuilder)
  | subscribe (value : SubscribeBuilder)
  | unsubscribe (value : UnsubscribeBuilder)
  | disconnect

namespace SenderCall

/-- The packet of the call. -/
def packet : SenderCall → ClientPacket
  | publish value => .publish value
  | subscribe value => .subscribe value
  | unsubscribe value => .unsubscribe value
  | disconnect => .disconnect

section

variable [Target]

def run {W : Type} [Write W] : SenderCall → EStateM Fault (WriterHalf W) Unit
  | publish value => WriterHalf.publish value
  | subscribe value => WriterHalf.subscribe value
  | unsubscribe value => WriterHalf.unsubscribe value
  | disconnect => WriterHalf.disconnect

/-- The encoder accepts the packet of the call. -/
def Valid (call : SenderCall) : Prop := ∃ n, call.packet.writeSync.result = .ok n

/-- The `write_all` calls the call makes. -/
def writes (call : SenderCall) : List (List UInt8) := call.packet.writeSync.writes

theorem Valid.flatten_writes {call : SenderCall} (valid : call.Valid) :
    call.writes.flatten = call.packet.wire := by
  obtain ⟨n, hn⟩ := valid
  rw [writes, Enc.flatten_writes, (ClientPacket.writeSync_eq_ok hn).1]

end

end SenderCall

/-! ## The bytes after the first -/

theorem le_encodeTypeAndFlags (t : ControlPacketType) (f : TypeFlags) :
    16 ≤ (encodeTypeAndFlags t f).toNat := by
  obtain ⟨bits⟩ := f
  revert bits
  cases t <;> decide

/-- A remaining length that is one byte repeated is that byte. -/
theorem RemainingLength.wire_append_eq_replicate {bs : List UInt8} {n : ℕ} {b : UInt8}
    (hle : bs.length ≤ 268435455) (h : wire bs.length ++ bs = List.replicate n b) :
    bs = List.replicate b.toNat b := by
  obtain ⟨-, hwire, hbs⟩ := List.append_eq_replicate_iff.1 h
  have hterm := terminated_wire hle
  rw [hwire, Varint.Terminated.replicate_iff] at hterm
  obtain ⟨hone, hmore⟩ := hterm
  have hvalue := value_wire hle
  rw [hwire, hone, List.replicate_one, Varint.value_cons, Varint.value_nil] at hvalue
  have hdigit : Varint.digit b = b.toNat := Nat.mod_eq_of_lt (Varint.more_eq_false.1 hmore)
  have hlen : bs.length = b.toNat := by omega
  rw [← hlen]
  exact hbs

/-- A buffer that begins with one byte repeated is long. -/
theorem Buff.wire_append_eq_replicate {bs rest : List UInt8} {n : ℕ} {b : UInt8}
    (hle : bs.length ≤ 65535) (h : wire bs ++ rest = List.replicate n b) :
    256 * b.toNat + 2 ≤ n := by
  have hlen := congrArg List.length h
  rw [List.length_append, length_wire, List.length_replicate] at hlen
  have hhi : UInt8.ofNat (bs.length / 256) = b := by
    have hmem : UInt8.ofNat (bs.length / 256) ∈ List.replicate n b := by
      rw [← h]
      simp [wire, beBytes]
    exact List.eq_of_mem_replicate hmem
  rw [← hhi, UInt8.toNat_ofNat']
  omega

namespace SenderCall

variable [Target]

/-- With its length in front, the body is not one of the larger bytes repeated. -/
def Varied (bs : List UInt8) : Prop :=
  ∀ n b, 3 ≤ b.toNat → RemainingLength.wire bs.length ++ bs ≠ List.replicate n b

omit [Target] in
/-- A list of fields of which the first begins with a buffer. -/
theorem varied_of_filters {α : Type} {pkid : UInt16} {items : List α} {wire : α → List UInt8}
    (hle : (PacketId.wire pkid ++ items.flatMap wire).length ≤ 268435455)
    (hwire : ∀ a ∈ items, ∃ bs rest, wire a = Buff.wire bs ++ rest ∧ bs.length ≤ 65535) :
    Varied (PacketId.wire pkid ++ items.flatMap wire) := by
  intro n b hb h
  have hbody := RemainingLength.wire_append_eq_replicate hle h
  have hlen := congrArg List.length hbody
  rw [List.length_append, PacketId.length_wire, List.length_replicate] at hlen
  obtain ⟨-, -, hitems⟩ := List.append_eq_replicate_iff.1 hbody
  cases items with
  | nil =>
    rw [List.flatMap_nil, List.length_nil] at hlen
    omega
  | cons a items =>
    obtain ⟨bs, rest, ha, hbs⟩ := hwire a List.mem_cons_self
    rw [List.flatMap_cons, ha, List.append_assoc] at hitems hlen
    have := Buff.wire_append_eq_replicate hbs hitems
    omega

/-- A valid call writes its type byte first, and its packet has a body that is varied. -/
theorem Valid.exists_writes {call : SenderCall} (valid : call.Valid) : ∃ t f bs rest,
    call.packet.wire = packetWire t f bs ∧ call.writes = [encodeTypeAndFlags t f] :: rest ∧
      Varied bs := by
  obtain ⟨n, hn⟩ := valid
  cases call with
  | publish value =>
    obtain ⟨-, hvalid, hle, -⟩ := Publish.writeSync_eq_ok hn
    obtain ⟨rest, hrest⟩ := writePacket_opens.starts hn
    refine ⟨_, _, _, rest, rfl, hrest, ?_⟩
    intro n b hb h
    have hbody := RemainingLength.wire_append_eq_replicate hle h
    have := Buff.wire_append_eq_replicate hvalid.2 hbody
    omega
  | subscribe value =>
    obtain ⟨hvalid, hle, -⟩ := Subscribe.writeSync_eq_ok hn
    obtain ⟨rest, hrest⟩ := writePacket_opens.starts hn
    exact ⟨_, _, _, rest, rfl, hrest,
      varied_of_filters hle fun f hf => ⟨_, _, rfl, (hvalid f hf).2.2⟩⟩
  | unsubscribe value =>
    obtain ⟨-, hvalid, hle, -⟩ := Unsubscribe.writeSync_checked hn
    obtain ⟨rest, hrest⟩ := writePacket_opens.starts hn
    exact ⟨_, _, _, rest, rfl, hrest,
      varied_of_filters hle fun f hf => ⟨_, [], (List.append_nil _).symm, (hvalid f hf).2⟩⟩
  | disconnect =>
    obtain ⟨rest, hrest⟩ := (FixedHeaderSlice.writeSync_opens _).starts hn
    refine ⟨_, _, [], rest, rfl, hrest, ?_⟩
    intro n b hb h
    have hbody := congrArg List.length
      (RemainingLength.wire_append_eq_replicate (Nat.zero_le _) h)
    rw [List.length_replicate, List.length_nil] at hbody
    omega

/-- The first write of a call is a larger byte, and the others are not one such byte repeated. -/
theorem Valid.starts {call : SenderCall} (valid : call.Valid) : ∃ b rest,
    call.writes = [b] :: rest ∧ 3 ≤ b.toNat ∧
      ∀ n c, 3 ≤ c.toNat → rest.flatten ≠ List.replicate n c := by
  obtain ⟨t, f, bs, rest, hwire, hrest, varied⟩ := valid.exists_writes
  have hflat : rest.flatten = RemainingLength.wire bs.length ++ bs := by
    have hpacket := valid.flatten_writes
    rw [hrest, hwire] at hpacket
    simpa [packetWire, headerWire] using hpacket
  have hb := le_encodeTypeAndFlags t f
  refine ⟨_, rest, hrest, by omega, fun n c hc => ?_⟩
  rw [hflat]
  exact varied n c hc

end SenderCall

/-! ## Two sends at a time -/

/-- The `write_all` calls of two callers, made on the writer they share. -/
def onWriter {W : Type} [Write W] (tr : Trace UInt8) (w : W) : W :=
  tr.foldl (fun w c => (Write.writeAll (c.elim id id) w).2) w

theorem written_onWriter {W : Type} [Sink W] (tr : Trace UInt8) (w : W) :
    Sink.written (onWriter tr w) = Sink.written w ++ tr.stream := by
  induction tr generalizing w with
  | nil => exact (List.append_nil _).symm
  | cons c tr ih =>
    show Sink.written (onWriter tr (Write.writeAll (c.elim id id) w).2) =
      Sink.written w ++ (c.elim id id ++ Trace.stream tr)
    rw [ih, Sink.written_writeAll, List.append_assoc]

/-- What `write_sync` does to a writer is the `write_all` calls of the encoder. -/
theorem WriterHalf.inner_writeSync {W : Type} [Sink W] (packet : Enc ℕ) (self : WriterHalf W) :
    (Machine.final (WriterHalf.writeSync packet self)).inner =
      packet.writes.foldl (fun w bs => (Write.writeAll bs w).2) self.inner := by
  rw [← Enc.run_eq_foldl, WriterHalf.writeSync]
  rcases packet.run self.inner with ⟨_ | _, inner⟩ <;> rfl

section

variable [Target]

/-- Two sends that do not overlap put one packet after the other on the wire.  Any two sends can
overlap such that what is on the wire is not the two packets in either order. -/
theorem concurrent_sends {W : Type} [Sink W] (w : W) {p q : SenderCall} (hp : p.Valid)
    (hq : q.Valid) :
    (∀ tr : Trace UInt8, tr.Merges p.writes q.writes →
      (tr.LeftFirst → Sink.written (onWriter tr w) =
        Sink.written w ++ (p.packet.wire ++ q.packet.wire)) ∧
      (tr.RightFirst → Sink.written (onWriter tr w) =
        Sink.written w ++ (q.packet.wire ++ p.packet.wire))) ∧
    ∃ tr : Trace UInt8, tr.Merges p.writes q.writes ∧
      Sink.written (onWriter tr w) ≠ Sink.written w ++ (p.packet.wire ++ q.packet.wire) ∧
      Sink.written (onWriter tr w) ≠ Sink.written w ++ (q.packet.wire ++ p.packet.wire) := by
  simp only [written_onWriter, ne_eq, List.append_cancel_left_eq]
  rw [← hp.flatten_writes, ← hq.flatten_writes]
  constructor
  · intro tr merges
    exact ⟨fun h => h.stream_eq merges, fun h => h.stream_eq merges⟩
  · obtain ⟨a, xs, hxs, ha, hx⟩ := hp.starts
    obtain ⟨b, ys, hys, hb, hy⟩ := hq.starts
    rw [hxs, hys]
    exact exists_mixed (fun n => hx n b hb) fun n => hy n a ha

end

theorem concurrent_sends_two :
    letI := Target.debug
    let p := SenderCall.publish (PublishBuilder.new "a" [1])
    let q := SenderCall.unsubscribe ⟨⟨10, by decide⟩, ["b"]⟩
    (∀ tr : Trace UInt8, tr.Merges p.writes q.writes →
      (tr.LeftFirst → Sink.written (onWriter tr ([] : List UInt8)) =
        [] ++ (p.packet.wire ++ q.packet.wire)) ∧
      (tr.RightFirst → Sink.written (onWriter tr ([] : List UInt8)) =
        [] ++ (q.packet.wire ++ p.packet.wire))) ∧
    ∃ tr : Trace UInt8, tr.Merges p.writes q.writes ∧
      Sink.written (onWriter tr ([] : List UInt8)) ≠ [] ++ (p.packet.wire ++ q.packet.wire) ∧
      Sink.written (onWriter tr ([] : List UInt8)) ≠ [] ++ (q.packet.wire ++ p.packet.wire) :=
  @concurrent_sends Target.debug (List UInt8) _ [] (.publish (PublishBuilder.new "a" [1]))
    (.unsubscribe ⟨⟨10, by decide⟩, ["b"]⟩) ⟨6, by decide⟩ ⟨7, by decide⟩

/-- Two PUBLISH packets of which the second starts after the type byte of the first. -/
theorem concurrent_sends_mixed :
    letI := Target.debug
    let p := SenderCall.publish (PublishBuilder.new "a" [1])
    let q := SenderCall.publish (PublishBuilder.new "b" [2])
    p.Valid ∧ q.Valid ∧ ¬ ∀ tr : Trace UInt8, tr.Merges p.writes q.writes →
      Sink.written (onWriter tr ([] : List UInt8)) = p.packet.wire ++ q.packet.wire ∨
      Sink.written (onWriter tr ([] : List UInt8)) = q.packet.wire ++ p.packet.wire := by
  let := Target.debug
  refine ⟨⟨6, by decide⟩, ⟨6, by decide⟩, fun h => ?_⟩
  have mixed := h [.inl [0x30], .inr [0x30], .inr [4], .inr [0, 1], .inr [98], .inr [2],
    .inl [4], .inl [0, 1], .inl [97], .inl [1]] ⟨by decide, by decide⟩
  revert mixed
  decide

end Mcutt
