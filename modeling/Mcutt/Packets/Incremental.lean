import Mcutt.Fixed.Agreement
import Mcutt.Lib.Incremental
import Mcutt.Packets.ConnectDecode
import Mcutt.Packets.Filters
import Mcutt.Packets.Packet

/-!
# Packets that have not arrived whole

Every decoder is incremental, where `NotEnoughSpace` is the error that asks for more: any other
answer stays the same whatever arrives behind its bytes, an accepted packet that is cut short is
refused with `NotEnoughSpace`, and no packet is the beginning of another one
(`decoders_wait`).
-/

namespace Mcutt

open Parsing

/-- `ErrorKind::NotEnoughSpace`. -/
def Short (e : Fault) : Prop := ∃ msg, e = .err ⟨.notEnoughSpace, msg⟩

theorem short_mk (msg : String) : Short (.err ⟨.notEnoughSpace, msg⟩) := ⟨msg, rfl⟩

theorem incremental_splitAt (n : ℕ) (msg : String) :
    Incremental Short fun buf : List UInt8 => okOr (splitAtChecked buf n) .notEnoughSpace msg := by
  refine (incremental_take (short_mk msg) n).congr fun buf => ?_
  unfold splitAtChecked
  split_ifs <;> rfl

section

variable [Target]

/-! ## Headers -/

theorem RemainingLength.incremental : Incremental Short RemainingLength.parse := by
  constructor
  · intro buf
    rw [RemainingLength.parse_eq]
    split_ifs with hmany hall
    · refine .inr fun more => ?_
      have hmore : 4 ≤ ((buf ++ more).takeWhile Varint.more).length := by
        refine hmany.trans (List.IsPrefix.length_le ?_)
        rw [List.takeWhile_append]
        split_ifs with h
        · exact (List.takeWhile_prefix _).trans (List.prefix_append _ _)
        · exact List.prefix_rfl
      rw [RemainingLength.parse_eq, if_pos hmore]
      rfl
    · exact .inl ⟨_, rfl, short_mk "remaining length"⟩
    · refine .inr fun more => ?_
      have hterm := Varint.terminated_take (not_le.1 hall)
      set n := (buf.takeWhile Varint.more).length + 1
      have hlen : (buf.take n).length ≤ 4 := (List.length_take_le _ _).trans (by omega)
      conv_lhs => rw [← List.take_append_drop n buf, List.append_assoc]
      exact RemainingLength.parse_append hterm hlen
  · intro buf this rest h
    obtain ⟨rfl, hterm, hlen⟩ := RemainingLength.parse_eq_ok.1 h
    exact ⟨this.len, rfl, fun rest' => RemainingLength.parse_append hterm hlen⟩

theorem FixedHeaderSlice.parse_bind (b : UInt8) (tail : List UInt8) :
    FixedHeaderSlice.parse (b :: tail) = (ControlPacketType.parse b >>= fun _ =>
      RemainingLength.parse tail >>= fun r => .ok (⟨b, r.1⟩, r.2)) := by
  simp only [FixedHeaderSlice.parse]
  cases ControlPacketType.parse b with
  | error e => rfl
  | ok t =>
    simp only [ok_bind]
    cases hparse : RemainingLength.parse tail with
    | error e => rfl
    | ok r =>
      obtain ⟨this, rest⟩ := r
      obtain ⟨rfl, -⟩ := RemainingLength.parse_eq_ok.1 hparse
      have hsplit : splitAtChecked (this.len ++ rest) this.len.length = some (this.len, rest) :=
        splitAtChecked_eq_some.2 ⟨rfl, rfl⟩
      simp only [ok_bind, hsplit, okOr_some]

theorem FixedHeaderSlice.incremental : Incremental Short FixedHeaderSlice.parse := by
  refine incremental_cons (short_mk "fixed header")
    (q := fun b tail => FixedHeaderSlice.parse (b :: tail)) (fun b => ?_) ?_
  · refine Incremental.congr ?_ (FixedHeaderSlice.parse_bind b)
    refine incremental_guard _ fun _ => ?_
    refine RemainingLength.incremental.bind fun this => ?_
    exact incremental_pure (⟨b, this⟩ : FixedHeader)
  · rintro (_ | ⟨b, tail⟩) <;> rfl

omit [Target] in
theorem FixedHeaderArray.parse_bind (n : ℕ) (b : UInt8) (tail : List UInt8) :
    FixedHeaderArray.parse n (b :: tail) =
      (okOr (splitAtChecked tail n) .notEnoughSpace "fixed header" >>= fun r =>
        FixedHeader.validate ⟨b, ⟨r.1⟩⟩ >>= fun _ => .ok (⟨b, ⟨r.1⟩⟩, r.2)) := by
  simp only [FixedHeaderArray.parse, splitAtChecked]
  by_cases hlt : tail.length < n
  · rw [if_pos hlt, if_neg (not_le.2 hlt)]
    rfl
  · rw [if_neg hlt, if_pos (not_lt.1 hlt)]
    rfl

omit [Target] in
theorem FixedHeaderArray.incremental (n : ℕ) : Incremental Short (FixedHeaderArray.parse n) := by
  refine incremental_cons (short_mk "fixed header")
    (q := fun b tail => FixedHeaderArray.parse n (b :: tail)) (fun b => ?_) ?_
  · refine Incremental.congr ?_ (FixedHeaderArray.parse_bind n b)
    refine (incremental_splitAt n _).bind fun bytes => ?_
    exact incremental_guard (FixedHeader.validate ⟨b, ⟨bytes⟩⟩) fun _ =>
      incremental_pure (⟨b, ⟨bytes⟩⟩ : FixedHeader)
  · rintro (_ | ⟨b, tail⟩) <;> rfl

/-! ## Fields -/

omit [Target] in
/-- A parser that takes two bytes. -/
theorem incremental_two {β : Type} {msg : String} {q : UInt8 → UInt8 → List UInt8 → Exec (β × List UInt8)}
    {p : List UInt8 → Exec (β × List UInt8)} (hq : ∀ a b, Incremental Short (q a b))
    (hnil : p [] = fail .notEnoughSpace msg) (hone : ∀ a, p [a] = fail .notEnoughSpace msg)
    (hp : ∀ a b rest, p (a :: b :: rest) = q a b rest) : Incremental Short p := by
  refine incremental_cons (short_mk msg) (q := fun a tail => p (a :: tail)) (fun a => ?_) ?_
  · refine incremental_cons (short_mk msg) (hq a) ?_
    rintro (_ | ⟨b, rest⟩)
    · exact hone a
    · exact hp a b rest
  · rintro (_ | ⟨a, tail⟩)
    · exact hnil
    · rfl

omit [Target] in
theorem PacketId.incremental : Incremental Short PacketId.parse :=
  incremental_two (q := fun hi lo rest => do
      (⟨UInt16.ofNat (fromBe hi lo)⟩ : PacketId).validate
      .ok (⟨UInt16.ofNat (fromBe hi lo)⟩, rest))
    (fun _ _ => incremental_guard _ fun _ => incremental_pure _) rfl (fun _ => rfl)
    fun _ _ _ => rfl

theorem Buff.incremental : Incremental Short Buff.parse := by
  refine incremental_two (fun hi lo => ?_) rfl (fun _ => rfl) fun _ _ _ => rfl
  refine (incremental_splitAt (fromBe hi lo) _).bind fun data => ?_
  exact incremental_guard _ fun _ => incremental_pure _

theorem MqttStr.incremental : Incremental Short MqttStr.parse := by
  refine Buff.incremental.bind fun buff => ?_
  refine incremental_guard _ fun data => ?_
  exact incremental_guard _ fun _ => incremental_pure _

omit [Target] in
theorem parseIf_incremental {β : Type} (present : Bool) {p : List UInt8 → Exec (β × List UInt8)}
    (hp : Incremental Short p) : Incremental Short (parseIf present p) := by
  cases present with
  | true =>
    refine hp.bind fun v => ?_
    exact incremental_pure (some v)
  | false => exact incremental_pure none

/-! ## Packets of fixed size -/

theorem ConnAck.incremental : Incremental Short ConnAck.parse := by
  refine (FixedHeaderArray.incremental 1).bind fun fixed => ?_
  refine incremental_guard _ fun _ => ?_
  refine Incremental.bind (p := ConnAck.tryRefFromPrefix) ?_ fun this => ?_
  · refine incremental_two (fun flags code => ?_) rfl (fun _ => rfl) fun _ _ _ => rfl
    exact incremental_guard _ fun code => incremental_pure _
  · exact incremental_guard _ fun _ => incremental_pure this

theorem Ack.incremental (t : ControlPacketType) : Incremental Short (Ack.parse t) := by
  refine (FixedHeaderArray.incremental 1).bind fun fixed => ?_
  refine incremental_guard _ fun _ => ?_
  refine PacketId.incremental.bind fun pkid => ?_
  exact incremental_pure _

theorem Bare.incremental (t : ControlPacketType) : Incremental Short (Bare.parse t) := by
  refine (FixedHeaderArray.incremental 1).bind fun fixed => ?_
  exact incremental_guard _ fun _ => incremental_pure ()

/-! ## Packets of announced size -/

omit [Target] in
/-- A body of known length, of which something is made. -/
theorem incremental_body {β : Type} (n : ℕ) (msg : String) (f : List UInt8 → Exec β) :
    Incremental Short fun buf => okOr (splitAtChecked buf n) .notEnoughSpace msg >>= fun r =>
      f r.1 >>= fun this => .ok (this, r.2) := by
  refine (incremental_splitAt n msg).bind fun body => ?_
  exact incremental_guard (f body) fun this => incremental_pure this

/-- What `Publish::parse` makes of the bytes behind the header. -/
def Publish.ofBody (fixed : FixedHeader) (body : List UInt8) : Exec Publish :=
  MqttStr.parse body >>= fun topic =>
    parseIf (fixed.flags.intersects (TypeFlags.publishQos1 ||| TypeFlags.publishQos2))
        PacketId.parse topic.2 >>= fun packetId =>
      let this : Publish := ⟨fixed, topic.1, packetId.1, packetId.2⟩
      this.validate >>= fun _ => .ok this

theorem Publish.incremental : Incremental Short Publish.parse := by
  refine FixedHeaderSlice.incremental.bind fun fixed => ?_
  refine incremental_guard _ fun _ => ?_
  refine incremental_guard _ fun remLen => ?_
  refine (incremental_body remLen "PUBLISH packet" (ofBody fixed)).congr fun buf => ?_
  simp only [ofBody, bind_assoc, ok_bind]

/-- What the decoders of filters make of the bytes behind the header. -/
def FilterPacket.ofBody (validate : FilterPacket → Exec Unit) (body : List UInt8) :
    Exec FilterPacket :=
  PacketId.parse body >>= fun pkid =>
    let this : FilterPacket := ⟨pkid.1, pkid.2⟩
    validate this >>= fun _ => .ok this

theorem FilterPacket.incremental (t : ControlPacketType) (validate : FilterPacket → Exec Unit) :
    Incremental Short (FilterPacket.parse t validate) := by
  refine FixedHeaderSlice.incremental.bind fun fixed => ?_
  refine incremental_guard _ fun _ => ?_
  refine incremental_guard _ fun remLen => ?_
  refine (incremental_body remLen "SUBSCRIBE packet" (ofBody validate)).congr fun buf => ?_
  simp only [ofBody, bind_assoc, ok_bind]

theorem SubAck.incremental : Incremental Short SubAck.parse := by
  refine FixedHeaderSlice.incremental.bind fun fixed => ?_
  refine incremental_guard _ fun _ => ?_
  refine incremental_guard _ fun remLen => ?_
  refine incremental_guard _ fun codesCount => ?_
  refine Incremental.bind (p := fun buf => SubAck.tryRefFromPrefixWithElems buf codesCount) ?_
    fun this => ?_
  · refine incremental_two (fun hi lo => ?_) rfl (fun _ => rfl) fun _ _ _ => rfl
    refine (incremental_splitAt codesCount _).bind fun codes => ?_
    exact incremental_guard _ fun returnCodes => incremental_pure _
  · exact incremental_guard _ fun _ => incremental_pure this

/-! ## CONNECT -/

theorem WillMsg.incremental : Incremental Short WillMsg.parse := by
  refine MqttStr.incremental.bind fun topic => ?_
  refine Buff.incremental.bind fun message => ?_
  exact incremental_guard _ fun _ => incremental_pure _

theorem ClientId.incremental : Incremental Short ClientId.parse := by
  refine MqttStr.incremental.bind fun str => ?_
  exact incremental_guard _ fun _ => incremental_pure _

omit [Target] in
theorem ConnectHeader.refFromPrefix_eq (buf : List UInt8) :
    okOr (ConnectHeader.refFromPrefix buf) .notEnoughSpace "connect header" =
      (okOr (splitAtChecked buf 10) .notEnoughSpace "connect header" >>= fun r =>
        okOr (ConnectHeader.refFromPrefix r.1) .notEnoughSpace "connect header" >>= fun this =>
          .ok (this.1, r.2)) := by
  rcases buf with _ | ⟨n₀, _ | ⟨n₁, _ | ⟨n₂, _ | ⟨n₃, _ | ⟨n₄, _ | ⟨n₅, _ | ⟨level, _ | ⟨flags,
    _ | ⟨hi, _ | ⟨lo, rest⟩⟩⟩⟩⟩⟩⟩⟩⟩⟩ <;> rfl

omit [Target] in
theorem ConnectHeader.incremental : Incremental Short ConnectHeader.parse := by
  refine Incremental.bind (p := fun buf => okOr (refFromPrefix buf) .notEnoughSpace
    "connect header") ?_ fun this => ?_
  · refine Incremental.congr ?_ refFromPrefix_eq
    refine (incremental_splitAt 10 _).bind fun bytes => ?_
    exact incremental_guard (okOr (refFromPrefix bytes) .notEnoughSpace "connect header")
      fun this => incremental_pure this.1
  · exact incremental_guard _ fun _ => incremental_pure this

theorem Connect.incremental : Incremental Short Connect.parse := by
  refine FixedHeaderSlice.incremental.bind fun fixed => ?_
  refine incremental_guard _ fun _ => ?_
  refine ConnectHeader.incremental.bind fun header => ?_
  refine ClientId.incremental.bind fun clientId => ?_
  refine (parseIf_incremental _ WillMsg.incremental).bind fun will => ?_
  refine (parseIf_incremental _ MqttStr.incremental).bind fun username => ?_
  refine (parseIf_incremental _ Buff.incremental).bind fun password => ?_
  exact incremental_guard _ fun _ => incremental_pure _

/-! ## The dispatch -/

omit [Target] in
theorem Packet.mapParsed_incremental {β γ : Type} (f : β → γ)
    {p : List UInt8 → Exec (β × List UInt8)} (hp : Incremental Short p) :
    Incremental Short fun buf => Packet.mapParsed f (p buf) := by
  refine Incremental.bind hp fun this => ?_
  exact incremental_pure (f this)

theorem Packet.parseAs_incremental (t : ControlPacketType) :
    Incremental Short (Packet.parseAs t) := by
  cases t with
  | connAck => exact mapParsed_incremental _ ConnAck.incremental
  | publish => exact mapParsed_incremental _ Publish.incremental
  | pubAck => exact mapParsed_incremental _ (Ack.incremental .pubAck)
  | pubRec => exact mapParsed_incremental _ (Ack.incremental .pubRec)
  | pubRel => exact mapParsed_incremental _ (Ack.incremental .pubRel)
  | pubComp => exact mapParsed_incremental _ (Ack.incremental .pubComp)
  | subAck => exact mapParsed_incremental _ SubAck.incremental
  | unsubAck => exact mapParsed_incremental _ (Ack.incremental .unsubAck)
  | pingResp =>
    exact mapParsed_incremental (fun _ => Packet.pingResp) (Bare.incremental .pingResp)
  | connect | subscribe | unsubscribe | pingReq | disconnect =>
    exact incremental_guard (fail .invalid "packet type received") incremental_pure

theorem Packet.parse_bind (b : UInt8) (tail : List UInt8) :
    Packet.parse (b :: tail) =
      (ControlPacketType.parse b >>= fun r => Packet.parseAs r.1 (b :: tail)) := rfl

theorem Packet.incremental : Incremental Short Packet.parse := by
  refine incremental_cons (short_mk "empty buffer")
    (q := fun b tail => Packet.parse (b :: tail)) (fun b => ?_) ?_
  · refine Incremental.congr ?_ (Packet.parse_bind b)
    refine incremental_guard _ fun r => (Packet.parseAs_incremental r.1).tail ?_ b
    cases r.1 <;> exact ⟨_, rfl⟩
  · rintro (_ | ⟨b, tail⟩) <;> rfl

/-! ## Decoders that wait -/

/-- Only an answer that asks for more depends on what follows, an accepted packet depends on its own
bytes, and what is cut off of it asks for more. -/
structure Waits {β : Type} (parse : List UInt8 → Exec (β × List UInt8)) : Prop where
  final : ∀ buf more, (∀ msg, parse buf ≠ .error (.err ⟨.notEnoughSpace, msg⟩)) →
    parse (buf ++ more) = extend more (parse buf)
  whole : ∀ buf p rest, parse buf = .ok (p, rest) → ∃ c, buf = c ++ rest ∧
    (∀ more, parse (c ++ more) = .ok (p, more)) ∧
    ∀ f, f <+: c → f ≠ c → ∃ msg, parse f = .error (.err ⟨.notEnoughSpace, msg⟩)

omit [Target] in
theorem waits_of_incremental {β : Type} {parse : List UInt8 → Exec (β × List UInt8)}
    (h : Incremental Short parse) : Waits parse := by
  refine ⟨fun buf more hshort => ?_, fun buf p rest hparse => ?_⟩
  · refine (h.settled buf).resolve_left ?_ more
    rintro ⟨_, he, msg, rfl⟩
    exact hshort msg he
  · obtain ⟨c, hbuf, hc⟩ := h.front buf p rest hparse
    refine ⟨c, hbuf, hc, fun f hf hne => ?_⟩
    have hwhole := hc []
    rw [List.append_nil] at hwhole
    obtain ⟨_, he, msg, rfl⟩ := h.waits hwhole hf hne
    exact ⟨msg, he⟩

/-- The decoder of the packets of a server and the decoders of the packets of a client wait for a
packet to be whole. -/
theorem decoders_wait : Waits Packet.parse ∧ Waits Connect.parse ∧ Waits Subscribe.parse ∧
    Waits Unsubscribe.parse := by
  refine ⟨?_, ?_, ?_, ?_⟩
  · exact waits_of_incremental Packet.incremental
  · exact waits_of_incremental Connect.incremental
  · exact waits_of_incremental (FilterPacket.incremental .subscribe Subscribe.validate)
  · exact waits_of_incremental (FilterPacket.incremental .unsubscribe Unsubscribe.validate)

end

end Mcutt
