import Mcutt.Packets.Filters
import Mcutt.Packets.Publish
import Mcutt.Topics

/-!
# What the decoders of PUBLISH, SUBSCRIBE and UNSUBSCRIBE accept

Each decoder against the grammar of its packet.  The decoder of PUBLISH also takes packets with
both QoS bits set (`publish_grammar_iff`), that of SUBSCRIBE also filters with a wildcard out of
place, which its encoder does not write (`subscribe_writes_back_iff`), and that of UNSUBSCRIBE also
packets without a filter (`unsubscribe_grammar_iff`).
-/

namespace Mcutt

/-! ## The announced body -/

/-- Behind the type byte stand one to four bytes that announce the length of `body`, then `body`,
then `rest`. -/
def Carries (tail body rest : List UInt8) : Prop :=
  ∃ len, tail = len ++ (body ++ rest) ∧ Varint.Terminated len ∧ len.length ≤ 4 ∧
    Varint.value len = body.length

theorem Carries.inj {tail body body' rest rest' : List UInt8} (h : Carries tail body rest)
    (h' : Carries tail body' rest') : body = body' ∧ rest = rest' := by
  obtain ⟨len, rfl, hterm, -, hvalue⟩ := h
  obtain ⟨len', heq, hterm', -, hvalue'⟩ := h'
  obtain ⟨rfl, hrest⟩ := hterm.append_inj hterm' heq
  exact List.append_inj hrest (hvalue.symm.trans hvalue')

theorem Carries.length_le {tail body rest : List UInt8} (h : Carries tail body rest) :
    body.length ≤ 268435455 := by
  obtain ⟨len, -, -, hle, hvalue⟩ := h
  have hlt := Varint.value_lt len
  have hpow := RemainingLength.pow_length_le hle
  omega

/-- A type byte and what it carries are a header and a body. -/
theorem carries_iff {b : UInt8} {tail body rest : List UInt8} {t : ControlPacketType}
    {f : TypeFlags} (htype : ControlPacketType.parse b = .ok (t, f)) :
    Carries tail body rest ↔ ∃ fixed : FixedHeader, fixed.Valid t f ∧
      b :: tail = fixed.bytes ++ (body ++ rest) ∧
      Varint.value fixed.remainingLength.len = body.length := by
  constructor
  · rintro ⟨len, rfl, hterm, hle, hvalue⟩
    exact ⟨⟨b, ⟨len⟩⟩, ⟨htype, hterm, hle⟩, rfl, hvalue⟩
  · rintro ⟨⟨b', ⟨len⟩⟩, valid, heq, hvalue⟩
    obtain ⟨-, rfl⟩ := List.cons.inj heq
    exact ⟨len, rfl, valid.terminated, valid.length_le, hvalue⟩

theorem type_of_bytes_eq {b : UInt8} {tail rest : List UInt8} {fixed : FixedHeader}
    {t : ControlPacketType} {f : TypeFlags} (h : b :: tail = fixed.bytes ++ rest)
    (valid : fixed.Valid t f) : ControlPacketType.parse b = .ok (t, f) := by
  obtain ⟨rfl, -⟩ := List.cons.inj h
  exact valid.type

theorem FilterPacket.carries_of_parse [Target] {b : UInt8} {tail rest : List UInt8}
    {t : ControlPacketType} {validate : FilterPacket → Exec Unit} {this : FilterPacket}
    (h : parse t validate (b :: tail) = .ok (this, rest)) :
    ∃ t' f, ControlPacketType.parse b = .ok (t', f) ∧ Carries tail (bodyWire this) rest ∧
      this.pkid.pkid ≠ 0 ∧ validate this = .ok () := by
  obtain ⟨fixed, t', f, valid, -, heq, hlen, hne, hval⟩ := parse_eq_ok.1 h
  have htype := type_of_bytes_eq heq valid
  exact ⟨t', f, htype, (carries_iff htype).2 ⟨fixed, valid, heq, hlen⟩, hne, hval⟩

/-! ## PUBLISH -/

/-- The QoS bits of a type byte, as a number. -/
def qosBits (b : UInt8) : ℕ := b.toNat / 2 % 4

theorem parse_publish {b : UInt8} (h : b >>> 4 = 3) :
    ControlPacketType.parse b = .ok (.publish, TypeFlags.fromBitsRetain (b &&& 0x0f)) ∧
      (TypeFlags.fromBitsRetain (b &&& 0x0f)).hasQos = decide (qosBits b ≠ 0) := by
  have all : ∀ b : UInt8, b >>> 4 = 3 →
      decide (ControlPacketType.parse b =
        .ok (.publish, TypeFlags.fromBitsRetain (b &&& 0x0f))) = true ∧
      (TypeFlags.fromBitsRetain (b &&& 0x0f)).hasQos = decide (qosBits b ≠ 0) :=
    byte_forall (by decide +kernel)
  obtain ⟨hparse, hqos⟩ := all b h
  exact ⟨of_decide_eq_true hparse, hqos⟩

theorem containsWildcardChar_eq_false_iff {topic : String} :
    containsWildcardChar topic = false ↔ '+' ∉ topic.toList ∧ '#' ∉ topic.toList := by
  have hplus : 43 ∈ strBytes topic ↔ '+' ∈ topic.toList := mem_strBytes_iff (d := '+') (by decide)
  have hhash : 35 ∈ strBytes topic ↔ '#' ∈ topic.toList := mem_strBytes_iff (d := '#') (by decide)
  rw [← hplus, ← hhash, containsWildcardChar, memchr2]
  simp only [List.findIdx?_isSome, List.any_eq_false, Bool.or_eq_true, beq_iff_eq]
  constructor
  · intro h
    exact ⟨fun hmem => h 43 hmem (.inl rfl), fun hmem => h 35 hmem (.inr rfl)⟩
  · rintro ⟨h₁, h₂⟩ b hb (rfl | rfl)
    · exact h₁ hb
    · exact h₂ hb

namespace Publish

/-- The body of a PUBLISH with an identifier or without one: a topic, then the identifier, then any
payload. -/
def Body (hasId : Bool) (body : List UInt8) : Prop :=
  ∃ topic pkid payload, body = bodyWire topic pkid payload ∧ MqttStr.Valid topic ∧
    ('+' ∉ topic.toList ∧ '#' ∉ topic.toList) ∧ pkid.isSome = hasId ∧ ∀ id ∈ pkid, id ≠ 0

/-- A PUBLISH whose body has an identifier or not. -/
def Framed (hasId : Bool) (tail : List UInt8) : Prop :=
  ∃ body rest, Carries tail body rest ∧ Body hasId body

/-- A PUBLISH: one of the three QoS, and an identifier in QoS 1 and 2. -/
def Grammar (b : UInt8) (tail : List UInt8) : Prop :=
  qosBits b ≠ 3 ∧ Framed (decide (qosBits b = 1 ∨ qosBits b = 2)) tail

section

variable [Target]

/-- The decoder accepts the bytes. -/
def Accepts (buff : List UInt8) : Prop := ∃ this rest, parse buff = .ok (this, rest)

/-- The decoder reads an identifier if a QoS bit is set. -/
theorem accepts_iff {b : UInt8} {tail : List UInt8} (h : b >>> 4 = 3) :
    Accepts (b :: tail) ↔ Framed (decide (qosBits b ≠ 0)) tail := by
  obtain ⟨htype, hqos⟩ := parse_publish h
  rw [← hqos]
  constructor
  · rintro ⟨this, rest, hparse⟩
    obtain ⟨t, f, valid, -, heq, hlen, -, hvalid, hwild, hsome, hne⟩ := parse_eq_ok.1 hparse
    have htype' := type_of_bytes_eq heq valid
    obtain ⟨rfl, rfl⟩ := Prod.mk.inj (Except.ok.inj (htype.symm.trans htype'))
    refine ⟨_, rest, (carries_iff htype).2 ⟨_, valid, heq, hlen⟩, _, _, _, rfl, hvalid,
      containsWildcardChar_eq_false_iff.1 hwild, ?_, ?_⟩
    · rw [Option.isSome_map]
      exact hsome
    · intro id hid
      obtain ⟨packetId, hmem, rfl⟩ := Option.map_eq_some_iff.1 hid
      exact hne packetId hmem
  · rintro ⟨body, rest, hcarries, topic, pkid, payload, rfl, hvalid, hwild, hsome, hne⟩
    obtain ⟨fixed, valid, heq, hlen⟩ := (carries_iff htype).1 hcarries
    have hids : (pkid.map PacketId.mk).map PacketId.pkid = pkid := by
      rw [Option.map_map]
      exact Option.map_id_apply
    refine ⟨⟨fixed, MqttStr.ofString topic, pkid.map PacketId.mk, payload⟩, rest, parse_eq_ok.2
      ⟨_, _, valid, fun _ => rfl, ?_, ?_, rfl, hvalid, containsWildcardChar_eq_false_iff.2 hwild,
        ?_, ?_⟩⟩
    · rw [hids]
      exact heq
    · rw [hids]
      exact hlen
    · rw [Option.isSome_map]
      exact hsome
    · intro id hid
      obtain ⟨value, hmem, rfl⟩ := Option.map_eq_some_iff.1 hid
      exact hne value hmem

end

end Publish

/-- The decoder of PUBLISH accepts the grammar exactly on the bytes that are not a packet with an
identifier and both QoS bits set. -/
theorem publish_grammar_iff [Target] {b : UInt8} {tail : List UInt8} (h : b >>> 4 = 3) :
    (Publish.Accepts (b :: tail) ↔ Publish.Grammar b tail) ↔
      ¬ (qosBits b = 3 ∧ Publish.Framed true tail) := by
  rw [Publish.accepts_iff h, Publish.Grammar]
  have hlt : qosBits b < 4 := Nat.mod_lt _ (by decide)
  by_cases hthree : qosBits b = 3
  · simp [hthree]
  · have hcases : decide (qosBits b = 1 ∨ qosBits b = 2) = decide (qosBits b ≠ 0) := by
      congr 1
      apply propext
      omega
    rw [hcases]
    simp [hthree]

theorem publish_grammar_iff_qos1 :
    letI := Target.debug
    Publish.Accepts [0x32, 6, 0, 1, 97, 0, 1, 7] ↔
      Publish.Grammar 0x32 [6, 0, 1, 97, 0, 1, 7] := by
  let := Target.debug
  exact (publish_grammar_iff (by decide)).2 fun h => absurd h.1 (by decide)

/-- A PUBLISH with both QoS bits set is accepted. -/
theorem publish_qos3_accepted :
    letI := Target.debug
    Publish.Accepts [0x36, 6, 0, 1, 97, 0, 1, 7] ∧
      ¬ Publish.Grammar 0x36 [6, 0, 1, 97, 0, 1, 7] := by
  let := Target.debug
  exact ⟨⟨⟨⟨0x36, ⟨[6]⟩⟩, MqttStr.ofString "a", some ⟨1⟩, [7]⟩, [], by decide +kernel⟩,
    fun h => absurd h.1 (by decide)⟩

/-! ## SUBSCRIBE -/

theorem TopicFilter.validate_eq_ok [Target] {this : TopicFilter} (h : this.topic.Parsed) :
    this.validate = .ok () ↔ hasValidWildcard this.topic.data = true := by
  rw [TopicFilter.validate, MqttStr.Parsed.validate_eq h, ok_bind]
  cases hasValidWildcard this.topic.data <;> simp

namespace Subscribe

/-- The filters of the payload all have their wildcards in place. -/
def WildcardsPlaced (tail : List UInt8) : Prop :=
  ∃ pkid, ∃ filters : List SubscribeFilter, ∃ rest,
    Carries tail (PacketId.wire pkid ++ filters.flatMap TopicFilter.wire) rest ∧
      ∀ f ∈ filters, MqttStr.Valid f.topic ∧ ValidFilter f.topic

variable [Target]

/-- The filters that were read pass their own check, and are written back as the bytes that were
read. -/
def WrittenBack (s : FilterPacket) (buff rest : List UInt8) : Prop :=
  ∃ items value n out, filters s = .ok items ∧ (∀ item ∈ items, item.validate = .ok ()) ∧
    s.pkid.read = .ok value.pkid ∧ value.filters = items.map TopicFilter.toFilter ∧
    (writeSync value).run ([] : List UInt8) = (.ok n, out) ∧ buff = out ++ rest

/-- SUBSCRIBE is written if its filters are strings with valid wildcards. -/
theorem writeSync_writes {value : SubscribeBuilder}
    (hvalid : ∀ f ∈ value.filters, hasValidWildcard f.topic = true ∧ MqttStr.Valid f.topic)
    (hle : (body value).length ≤ 268435455) :
    (writeSync value).Writes (packetWire .subscribe TypeFlags.subscribe (body value)).length
      (packetWire .subscribe TypeFlags.subscribe (body value)) :=
  writePacket_writes rfl ((checks_writeBody value).writes hvalid)
    (validateValue_eq_ok.2 fun f hf => (hvalid f hf).1)
    ((measures_encodeLen value).eq_ok (by omega)) hle

theorem WrittenBack.wildcardsPlaced {tail rest : List UInt8} {s : FilterPacket}
    (h : WrittenBack s (0x82 :: tail) rest)
    (hparse : parse (0x82 :: tail) = .ok (s, rest)) : WildcardsPlaced tail := by
  obtain ⟨items, value, n, out, hitems, hchecked, -⟩ := h
  obtain ⟨t, f, -, hcarries, -, hval⟩ := FilterPacket.carries_of_parse hparse
  have hle := hcarries.length_le
  obtain ⟨items', hfilters, hparsed⟩ :=
    (FilterPacket.validate_eq_ok TopicFilter.itemCodec hle).1 hval
  have hread : filters s = .ok items' :=
    FilterPacket.iter_eq_ok TopicFilter.itemCodec hle hfilters fun i hi => (hparsed i hi).1
  obtain rfl : items' = items := Except.ok.inj (hread.symm.trans hitems)
  refine ⟨s.pkid.pkid, items'.map TopicFilter.toFilter, rest, ?_, ?_⟩
  · rw [List.flatMap_map, ← hfilters]
    exact hcarries
  · intro g hg
    obtain ⟨item, hitem, rfl⟩ := List.mem_map.1 hg
    have hwild := (TopicFilter.validate_eq_ok (hparsed item hitem).1).1 (hchecked item hitem)
    exact ⟨(hparsed item hitem).1.2, (hasValidWildcard_eq_true_iff _).1 hwild⟩

theorem WildcardsPlaced.writtenBack {tail rest : List UInt8} {s : FilterPacket}
    (h : WildcardsPlaced tail) (hparse : parse (0x82 :: tail) = .ok (s, rest))
    (hmin : MinimalLength (0x82 :: tail)) : WrittenBack s (0x82 :: tail) rest := by
  obtain ⟨pkid, filters, rest', hcarries', hvalid⟩ := h
  obtain ⟨t, f, -, hcarries, hne, -⟩ := FilterPacket.carries_of_parse hparse
  have hle := hcarries.length_le
  obtain ⟨hpkid, hfilters⟩ := List.append_inj (hcarries.inj hcarries').1 rfl
  have hwild : ∀ g ∈ filters, hasValidWildcard g.topic = true ∧ MqttStr.Valid g.topic :=
    fun g hg => ⟨(hasValidWildcard_eq_true_iff _).2 (hvalid g hg).2, (hvalid g hg).1⟩
  let items := filters.map TopicFilter.ofFilter
  have hitems : s.filters = items.flatMap fun this => TopicFilter.wire this.toFilter := by
    rw [hfilters, List.flatMap_map]
    rfl
  have hparsed : ∀ item ∈ items, item.topic.Parsed ∧ hasValidWildcard item.topic.data = true := by
    intro item hitem
    obtain ⟨g, hg, rfl⟩ := List.mem_map.1 hitem
    exact ⟨⟨rfl, (hwild g hg).2⟩, (hwild g hg).1⟩
  let value : SubscribeBuilder := ⟨⟨s.pkid.pkid, hne⟩, filters⟩
  have hbody : body value = FilterPacket.bodyWire s := by
    rw [body, FilterPacket.bodyWire, hfilters]
  have hwrites : (writeSync value).Writes _ _ := writeSync_writes hwild (hbody ▸ hle)
  refine ⟨items, value, _, _, ?_, ?_, PacketId.read_eq hne, ?_, hwrites.run_nil, ?_⟩
  · exact FilterPacket.iter_eq_ok TopicFilter.itemCodec hle hitems fun i hi => (hparsed i hi).1
  · intro item hitem
    obtain ⟨hparsed, hwild⟩ := hparsed item hitem
    exact (TopicFilter.validate_eq_ok hparsed).2 hwild
  · rw [List.map_map]
    exact (List.map_id _).symm
  · have htype : ControlPacketType.tryFrom ((0x82 : UInt8) >>> 4) = .ok .subscribe := rfl
    obtain ⟨f, hflags, heq, -⟩ := FilterPacket.parse_minimal htype hparse hmin
    obtain rfl : f = TypeFlags.subscribe := by
      by_contra hf
      simp [validateTypeFlags, hf] at hflags
    rw [heq, hbody]

end Subscribe

/-- What the decoder of SUBSCRIBE reads is written back exactly if the wildcards are in place, which
the decoder does not look at. -/
theorem subscribe_writes_back_iff [Target] {tail rest : List UInt8} {s : FilterPacket}
    (hparse : Subscribe.parse (0x82 :: tail) = .ok (s, rest))
    (hmin : MinimalLength (0x82 :: tail)) :
    Subscribe.WrittenBack s (0x82 :: tail) rest ↔ Subscribe.WildcardsPlaced tail :=
  ⟨fun h => h.wildcardsPlaced hparse, fun h => h.writtenBack hparse hmin⟩

theorem subscribe_writes_back_iff_one :
    letI := Target.debug
    Subscribe.WrittenBack ⟨⟨1⟩, [0, 1, 35, 0]⟩ [0x82, 6, 0, 1, 0, 1, 35, 0] [] := by
  let := Target.debug
  refine (subscribe_writes_back_iff (by decide) ⟨[6], [0, 1, 0, 1, 35, 0], rfl, .last rfl,
    by decide⟩).2 ?_
  refine ⟨1, [⟨"#", .atMostOnce⟩], [], ⟨[6], rfl, .last rfl, by decide, rfl⟩, ?_⟩
  intro f hf
  obtain rfl : f = ⟨"#", .atMostOnce⟩ := List.mem_singleton.1 hf
  exact ⟨by decide, (hasValidWildcard_eq_true_iff _).1 (by decide)⟩

/-- A filter that does not pass its own check is read, and is not written. -/
theorem subscribe_misplaced_accepted :
    letI := Target.debug
    Subscribe.parse [0x82, 7, 0, 1, 0, 2, 97, 35, 0] = .ok (⟨⟨1⟩, [0, 2, 97, 35, 0]⟩, []) ∧
      MinimalLength [0x82, 7, 0, 1, 0, 2, 97, 35, 0] ∧
      ¬ Subscribe.WrittenBack ⟨⟨1⟩, [0, 2, 97, 35, 0]⟩ [0x82, 7, 0, 1, 0, 2, 97, 35, 0] [] := by
  let := Target.debug
  refine ⟨by decide, ⟨[7], _, rfl, .last rfl, by decide⟩, ?_⟩
  rintro ⟨items, value, n, out, hitems, hchecked, -⟩
  have read : Subscribe.filters ⟨⟨1⟩, [0, 2, 97, 35, 0]⟩ = .ok [⟨⟨2, "a#"⟩, .atMostOnce⟩] := by
    decide
  obtain rfl := Except.ok.inj (read.symm.trans hitems)
  exact absurd (hchecked _ (List.mem_singleton_self _)) (by decide)

/-! ## UNSUBSCRIBE -/

theorem parse_unsubscribe {b : UInt8} {t : ControlPacketType} {f : TypeFlags} (h : b >>> 4 = 10) :
    ControlPacketType.parse b = .ok (t, f) ↔
      b &&& 0x0f = 2 ∧ (t, f) = (.unsubscribe, TypeFlags.unsubscribe) := by
  have all : ∀ b : UInt8, b >>> 4 = 10 → (match ControlPacketType.parse b with
      | .ok r => decide (b &&& 0x0f = 2 ∧ r = (.unsubscribe, TypeFlags.unsubscribe))
      | .error _ => decide (b &&& 0x0f ≠ 2)) = true := byte_forall (by decide +kernel)
  have := all b h
  cases hparse : ControlPacketType.parse b with
  | ok r =>
    rw [hparse] at this
    obtain ⟨hflags, rfl⟩ := of_decide_eq_true this
    rw [Except.ok.injEq, and_iff_right hflags, eq_comm]
  | error e =>
    rw [hparse] at this
    have hflags : b &&& 0x0f ≠ 2 := of_decide_eq_true this
    exact iff_of_false (by simp) fun h => hflags h.1

namespace Unsubscribe

/-- The body of an UNSUBSCRIBE: an identifier, then the topics. -/
def Body (topics : List String) (body : List UInt8) : Prop :=
  ∃ pkid, pkid ≠ 0 ∧ body = PacketId.wire pkid ++ topics.flatMap MqttStr.wire ∧
    ∀ topic ∈ topics, MqttStr.Valid topic ∧ ValidFilter topic

/-- A topic takes bytes behind the identifier. -/
theorem Body.two_lt {topics : List String} {body : List UInt8} (h : Body topics body)
    (hne : topics ≠ []) : 2 < body.length := by
  obtain ⟨pkid, -, rfl, -⟩ := h
  obtain ⟨topic, topics, rfl⟩ := List.exists_cons_of_ne_nil hne
  rw [List.length_append, PacketId.length_wire, List.flatMap_cons, List.length_append,
    MqttStr.length_wire]
  omega

/-- An UNSUBSCRIBE: the reserved flags, and at least one topic. -/
def Grammar (b : UInt8) (tail : List UInt8) : Prop :=
  b &&& 0x0f = 2 ∧ ∃ topics body rest, topics ≠ [] ∧ Carries tail body rest ∧ Body topics body

/-- Nothing stands behind the identifier. -/
def NoPayload (tail : List UInt8) : Prop :=
  ∃ pkid rest, pkid ≠ 0 ∧ Carries tail (PacketId.wire pkid) rest

section

variable [Target]

/-- The decoder accepts the bytes. -/
def Accepts (buff : List UInt8) : Prop := ∃ this rest, parse buff = .ok (this, rest)

theorem accepts_iff {b : UInt8} {tail : List UInt8} (h : b >>> 4 = 10) :
    Accepts (b :: tail) ↔
      b &&& 0x0f = 2 ∧ ∃ topics body rest, Carries tail body rest ∧ Body topics body := by
  constructor
  · rintro ⟨this, rest, hparse⟩
    obtain ⟨t, f, htype, hcarries, hne, hval⟩ := FilterPacket.carries_of_parse hparse
    obtain ⟨hflags, -⟩ := (parse_unsubscribe h).1 htype
    obtain ⟨topics, hfilters, hchecked⟩ := (validate_eq_ok hcarries.length_le).1 hval
    refine ⟨hflags, topics.map MqttStr.data, _, rest, hcarries, this.pkid.pkid, hne, ?_, ?_⟩
    · rw [FilterPacket.bodyWire, hfilters]
    · intro topic htopic
      obtain ⟨item, hitem, rfl⟩ := List.mem_map.1 htopic
      obtain ⟨hparsed, hwild⟩ := hchecked item hitem
      exact ⟨hparsed.2, (hasValidWildcard_eq_true_iff _).1 hwild⟩
  · rintro ⟨hflags, topics, body, rest, hcarries, pkid, hne, rfl, htopics⟩
    have htype : ControlPacketType.parse b = .ok (.unsubscribe, TypeFlags.unsubscribe) :=
      (parse_unsubscribe h).2 ⟨hflags, rfl⟩
    let this : FilterPacket := ⟨⟨pkid⟩, topics.flatMap MqttStr.wire⟩
    have hle : (FilterPacket.bodyWire this).length ≤ 268435455 := hcarries.length_le
    obtain ⟨fixed, valid, heq, hlen⟩ := (carries_iff htype).1 hcarries
    have hdata : (topics.map MqttStr.ofString).map MqttStr.data = topics := by
      rw [List.map_map]
      exact List.map_id _
    have hval : validate this = .ok () := by
      refine (validate_eq_ok hle).2 ⟨topics.map MqttStr.ofString, by rw [hdata], ?_⟩
      intro item hitem
      obtain ⟨topic, htopic, rfl⟩ := List.mem_map.1 hitem
      obtain ⟨hvalid, hfilter⟩ := htopics topic htopic
      exact ⟨⟨rfl, hvalid⟩, (hasValidWildcard_eq_true_iff _).2 hfilter⟩
    exact ⟨this, rest, FilterPacket.parse_eq_ok.2
      ⟨fixed, _, _, valid, fun _ => rfl, heq, hlen, hne, hval⟩⟩

end

end Unsubscribe

/-- The decoder of UNSUBSCRIBE accepts the grammar exactly on the bytes that are not a packet
without a topic. -/
theorem unsubscribe_grammar_iff [Target] {b : UInt8} {tail : List UInt8} (h : b >>> 4 = 10) :
    (Unsubscribe.Accepts (b :: tail) ↔ Unsubscribe.Grammar b tail) ↔
      ¬ (b &&& 0x0f = 2 ∧ Unsubscribe.NoPayload tail) := by
  rw [Unsubscribe.accepts_iff h, Unsubscribe.Grammar]
  constructor
  · rintro hiff ⟨hflags, pkid, rest, hne, hcarries⟩
    obtain ⟨-, topics, body, rest', htopics, hcarries', hbody⟩ :=
      hiff.1 ⟨hflags, [], _, rest, hcarries, pkid, hne, (List.append_nil _).symm, by simp⟩
    have hlt := hbody.two_lt htopics
    rw [← (hcarries.inj hcarries').1, PacketId.length_wire] at hlt
    exact absurd hlt (by decide)
  · intro hpayload
    apply and_congr_right
    intro hflags
    constructor
    · rintro ⟨topics, body, rest, hcarries, hbody⟩
      refine ⟨topics, body, rest, ?_, hcarries, hbody⟩
      rintro rfl
      obtain ⟨pkid, hne, rfl, -⟩ := hbody
      rw [List.flatMap_nil, List.append_nil] at hcarries
      exact hpayload ⟨hflags, pkid, rest, hne, hcarries⟩
    · rintro ⟨topics, body, rest, -, hcarries, hbody⟩
      exact ⟨topics, body, rest, hcarries, hbody⟩

theorem unsubscribe_grammar_iff_one :
    letI := Target.debug
    Unsubscribe.Accepts [0xA2, 5, 0, 1, 0, 1, 97] ↔
      Unsubscribe.Grammar 0xA2 [5, 0, 1, 0, 1, 97] := by
  let := Target.debug
  apply (unsubscribe_grammar_iff (by decide)).2
  rintro ⟨-, pkid, rest, -, hcarries⟩
  have carries : Carries [5, 0, 1, 0, 1, 97] [0, 1, 0, 1, 97] [] :=
    ⟨[5], rfl, .last rfl, by decide, rfl⟩
  have hlen := congrArg List.length (hcarries.inj carries).1
  exact absurd hlen (by rw [PacketId.length_wire]; decide)

/-- An UNSUBSCRIBE without a topic is accepted. -/
theorem unsubscribe_empty_accepted :
    letI := Target.debug
    Unsubscribe.Accepts [0xA2, 2, 0, 1] ∧ ¬ Unsubscribe.Grammar 0xA2 [2, 0, 1] := by
  let := Target.debug
  refine ⟨⟨⟨⟨1⟩, []⟩, [], by decide +kernel⟩, ?_⟩
  rintro ⟨-, topics, body, rest, htopics, hcarries, hbody⟩
  have carries : Carries [2, 0, 1] [0, 1] [] := ⟨[2], rfl, .last rfl, by decide, rfl⟩
  have hlt := hbody.two_lt htopics
  rw [(hcarries.inj carries).1] at hlt
  exact absurd hlt (by decide)

end Mcutt
