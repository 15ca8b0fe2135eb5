import Mcutt.Fixed.Header

/-!
# The codecs of a header compared

The crate reads a fixed header in three ways and writes it in two.  `FixedHeader::next_frame`
counts the flags on whatever bytes are there, `FixedHeaderSlice` counts and splits,
`FixedHeaderArray::<N>` takes `N` bytes and checks them afterwards.  The three decoders agree
(`nextFrame_refines_parse`, `FixedHeaderArray.parse_iff_slice`).  Of the two encoders the one of a
fixed width, given here with the array it is made of, checks the value but not the width, and
agrees with the other on the values of its own width alone
(`FixedHeaderArray.agreesWithSlice_iff`).
-/

namespace Mcutt

/-! ## The decoders -/

section

variable [Target]

theorem RemainingLength.parse_eq (buff : List UInt8) :
    parse buff =
      if 4 ≤ (buff.takeWhile Varint.more).length then
        fail .invalid "remaining length continuation flags require more than 4 bytes"
      else if buff.length ≤ (buff.takeWhile Varint.more).length then
        fail .notEnoughSpace "remaining length"
      else .ok (⟨buff.take ((buff.takeWhile Varint.more).length + 1)⟩,
        buff.drop ((buff.takeWhile Varint.more).length + 1)) := by
  by_cases hflags : 4 ≤ (buff.takeWhile Varint.more).length
  · rw [if_pos hflags, parse, countContinueFlags_eq, if_pos hflags]
    rfl
  · rw [if_neg hflags]
    by_cases hlen : buff.length ≤ (buff.takeWhile Varint.more).length
    · rw [if_pos hlen, parse, countContinueFlags_eq, if_neg hflags, ok_bind,
        decide_eq_true (by omega), debugAssert_true, ok_bind, splitAtChecked, if_neg (by omega)]
      rfl
    · rw [if_neg hlen]
      apply parse_eq_ok.2
      have hterm := Varint.terminated_take (not_le.1 hlen)
      refine ⟨(List.take_append_drop _ _).symm, hterm, ?_⟩
      rw [List.length_take]
      omega

/-- A header with a good type byte is read as far as its remaining length is. -/
theorem FixedHeaderSlice.parse_cons {t : UInt8} {p : ControlPacketType × TypeFlags}
    (htype : ControlPacketType.parse t = .ok p) (l : List UInt8) :
    parse (t :: l) =
      if 4 ≤ (l.takeWhile Varint.more).length then
        fail .invalid "remaining length continuation flags require more than 4 bytes"
      else if l.length ≤ (l.takeWhile Varint.more).length then
        fail .notEnoughSpace "remaining length"
      else .ok (⟨t, ⟨l.take ((l.takeWhile Varint.more).length + 1)⟩⟩,
        l.drop ((l.takeWhile Varint.more).length + 1)) := by
  by_cases hflags : 4 ≤ (l.takeWhile Varint.more).length
  · rw [if_pos hflags, parse, htype, ok_bind, RemainingLength.parse_eq, if_pos hflags]
    rfl
  · rw [if_neg hflags]
    by_cases hlen : l.length ≤ (l.takeWhile Varint.more).length
    · rw [if_pos hlen, parse, htype, ok_bind, RemainingLength.parse_eq, if_neg hflags,
        if_pos hlen]
      rfl
    · rw [if_neg hlen]
      apply parse_eq_ok.2
      have hterm := Varint.terminated_take (not_le.1 hlen)
      refine ⟨?_, p.1, p.2, htype, hterm, ?_⟩
      · rw [FixedHeader.bytes, List.cons_append, List.take_append_drop]
      · rw [List.length_take]
        omega

/-- Cutting the stream and parsing the header in front of it come to the same. -/
theorem FixedHeader.nextFrame_refines_parse (b : List UInt8) :
    (∀ (e : List UInt8) (n : ℕ), nextFrame b = .ok (some n) →
      nextFrame (b ++ e) = .ok (some n)) ∧
    (∀ (e : List UInt8) (f : Fault), nextFrame b = .error f → nextFrame (b ++ e) = .error f) ∧
    (5 ≤ b.length → nextFrame b ≠ .ok none) ∧
    (∀ h rest, FixedHeaderSlice.parse b = .ok (h, rest) →
      ∃ remLen, h.remainingLength.readLen = .ok remLen ∧
        nextFrame b = .ok (some (b.length - rest.length + remLen))) ∧
    ((∀ t ∈ b.head?, ∃ p, ControlPacketType.parse t = .ok p) →
      (nextFrame b = .ok none ↔ ∃ msg, FixedHeaderSlice.parse b = fail .notEnoughSpace msg) ∧
      ((∃ err, nextFrame b = .error (.err err)) ↔
        ∃ msg, FixedHeaderSlice.parse b = fail .invalid msg)) := by
  refine ⟨fun e n h => nextFrame_append h e, fun e f h => nextFrame_error_append h e,
    fun hlen h => ?_, fun h rest hparse => ?_, fun htype => ?_⟩
  · have := length_lt_of_nextFrame_none h
    omega
  · obtain ⟨rfl, t, f, valid⟩ := FixedHeaderSlice.parse_eq_ok.1 hparse
    refine ⟨_, valid.readLen_eq, nextFrame_eq_some.2 ⟨h.typeAndFlags, h.remainingLength.len, rest,
      rfl, valid.terminated, valid.length_le, ?_⟩⟩
    rw [List.length_append, Nat.add_sub_cancel, bytes, List.length_cons]
    omega
  · cases b with
    | nil => simp [nextFrame, FixedHeaderSlice.parse, fail]
    | cons t l =>
      obtain ⟨p, hp⟩ := htype t rfl
      rw [nextFrame_cons, FixedHeaderSlice.parse_cons hp]
      split_ifs <;> simp [fail]

/-- The header of a fixed width is the header of a variable width, where the width is right. -/
theorem FixedHeaderArray.parse_iff_slice {n : ℕ} (hn : 1 ≤ n) (buf rest : List UInt8) :
    ((∃ h, parse n buf = .ok (h, rest)) ↔
      ∃ h', FixedHeaderSlice.parse buf = .ok (h', rest) ∧ h'.remainingLength.len.length = n) ∧
    ∀ h h' rest', parse n buf = .ok (h, rest) → FixedHeaderSlice.parse buf = .ok (h', rest') →
      rest' = rest ∧ (∃ t, h.packetType = .ok t ∧ h'.packetType = .ok t) ∧ h.flags = h'.flags ∧
        ∃ v, h.remainingLength.read = .ok v ∧ h'.remainingLength.read = .ok v := by
  constructor
  · constructor
    · rintro ⟨h, hparse⟩
      obtain ⟨hbuf, hlen, hvalid⟩ := (parse_eq_ok hn).1 hparse
      exact ⟨h, FixedHeaderSlice.parse_eq_ok.2 ⟨hbuf, hvalid⟩, hlen⟩
    · rintro ⟨h, hparse, hlen⟩
      obtain ⟨hbuf, hvalid⟩ := FixedHeaderSlice.parse_eq_ok.1 hparse
      exact ⟨h, (parse_eq_ok hn).2 ⟨hbuf, hlen, hvalid⟩⟩
  · intro h h' rest' harray hslice
    obtain ⟨hbuf, -, t, f, valid⟩ := (parse_eq_ok hn).1 harray
    obtain ⟨hbuf', t', f', valid'⟩ := FixedHeaderSlice.parse_eq_ok.1 hslice
    obtain ⟨htype, htail⟩ := List.cons.inj (hbuf.symm.trans hbuf')
    obtain ⟨hlen, hrest⟩ := valid.terminated.append_inj valid'.terminated htail
    have heq : t = t' ∧ f = f' := by
      have := valid.type.symm.trans (htype ▸ valid'.type)
      simpa using this
    refine ⟨hrest.symm, ⟨t, valid.packetType_eq, ?_⟩, ?_, _,
      RemainingLength.read_eq valid.length_le, ?_⟩
    · rw [valid'.packetType_eq, heq.1]
    · rw [valid.flags_eq, valid'.flags_eq, heq.2]
    · rw [hlen]
      exact RemainingLength.read_eq valid'.length_le

end

/-- Two bytes of remaining length, read in either way. -/
theorem FixedHeaderArray.parse_iff_slice_two :
    (∃ h, parse 2 [0x30, 0x80, 0x01, 7] = .ok (h, [7])) ↔
      ∃ h', @FixedHeaderSlice.parse Target.debug [0x30, 0x80, 0x01, 7] = .ok (h', [7]) ∧
        h'.remainingLength.len.length = 2 :=
  (@parse_iff_slice Target.debug 2 (by decide) [0x30, 0x80, 0x01, 7] [7]).1

/-! ## The encoders -/

section

variable [Target]

namespace FixedHeaderArray

/-- `impl Input<FixedHeaderBuilder> for FixedHeaderArray<N>`. -/
def validateValue (n : ℕ) (value : FixedHeaderBuilder) : Exec FixedHeader := do
  validateTypeFlags value.packetType value.flags
  let _ ← RemainingLength.validateValue value.remainingLength
  let len ← RemainingLength.encodeToArray n value.remainingLength
  .ok ⟨encodeTypeAndFlags value.packetType value.flags, ⟨len⟩⟩

/-- `FixedHeaderArray::<N>::write_sync`; `size_of::<Self>()` is `N + 1`. -/
def writeSync (n : ℕ) (value : FixedHeaderBuilder) : Enc ℕ := do
  let this ← validateValue n value
  Enc.writeAll this.bytes "writing fixed header"
  pure (n + 1)

/-- The two encoders of a header agree on a value, for the width `n`. -/
structure AgreesWithSlice (n : ℕ) (value : FixedHeaderBuilder) : Prop where
  noPanic : ∀ w : List UInt8, NoPanic ((writeSync n value).run w).1
  ok_iff : ∀ w : List UInt8, (∃ k, ((writeSync n value).run w).1 = .ok k) ↔
    (∃ k, ((FixedHeaderSlice.writeSync value).run w).1 = .ok k) ∧
      RemainingLength.lenFromU32 value.remainingLength = .ok n
  run_eq : ∀ (w : List UInt8) (k : ℕ), ((writeSync n value).run w).1 = .ok k →
    (writeSync n value).run w = (FixedHeaderSlice.writeSync value).run w

/-- The value is checked before its width matters. -/
theorem writeSync_rejects {value : FixedHeaderBuilder} (n : ℕ)
    (h : validateTypeFlags value.packetType value.flags ≠ .ok () ∨
      268435455 < value.remainingLength.toNat) :
    (writeSync n value).Rejects ∧ (FixedHeaderSlice.writeSync value).Rejects := by
  by_cases hflags : validateTypeFlags value.packetType value.flags = .ok ()
  · have hlen := RemainingLength.lenFromU32_of_lt (h.resolve_left (not_not.2 hflags))
    have hslice : FixedHeaderSlice.validateValue value = fail .outOfRange "remaining length" := by
      rw [FixedHeaderSlice.validateValue, hflags, RemainingLength.validateValue, hlen]
      rfl
    have harray : validateValue n value = fail .outOfRange "remaining length" := by
      rw [validateValue, hflags, RemainingLength.validateValue, hlen]
      rfl
    exact ⟨(Enc.rejects_lift harray).bind _, FixedHeaderSlice.writeSync_rejects hslice⟩
  · obtain ⟨err, herr⟩ := (validateTypeFlags_noPanic _ _).fails fun _ => hflags
    have hslice : FixedHeaderSlice.validateValue value = .error (.err err) := by
      rw [FixedHeaderSlice.validateValue, herr]
      rfl
    have harray : validateValue n value = .error (.err err) := by
      rw [validateValue, herr]
      rfl
    exact ⟨(Enc.rejects_lift harray).bind _, (Enc.rejects_lift hslice).bind _⟩

theorem validateValue_eq {value : FixedHeaderBuilder}
    (hflags : validateTypeFlags value.packetType value.flags = .ok ())
    (hlen : value.remainingLength.toNat ≤ 268435455) (n : ℕ) :
    validateValue n value = (debugAssert
      (decide (RemainingLength.width value.remainingLength.toNat = n))
      "remaining length array length" >>= fun _ =>
        .ok ⟨encodeTypeAndFlags value.packetType value.flags,
          ⟨Varint.encode n value.remainingLength.toNat⟩⟩) := by
  rw [validateValue, hflags, ok_bind, RemainingLength.validateValue,
    RemainingLength.encodeToArray, RemainingLength.lenFromU32_eq hlen, ok_bind,
    RemainingLength.encodeDigits_eq]
  simp only [Except.ok.injEq]
  cases debugAssert (decide (RemainingLength.width value.remainingLength.toNat = n))
    "remaining length array length" <;> rfl

/-- With the right width the bytes are those of the other encoder. -/
theorem writeSync_writes {value : FixedHeaderBuilder} {n : ℕ}
    (hflags : validateTypeFlags value.packetType value.flags = .ok ())
    (hlen : value.remainingLength.toNat ≤ 268435455)
    (hn : RemainingLength.width value.remainingLength.toNat = n) :
    (writeSync n value).Writes (n + 1)
      (headerWire value.packetType value.flags value.remainingLength.toNat) := by
  have hval := validateValue_eq hflags hlen n
  rw [decide_eq_true hn, debugAssert_true, ok_bind] at hval
  refine Enc.Writes.congr ((Enc.writes_lift hval).bind
    ((Enc.writes_writeAll _ _).bind (Enc.writes_pure (n + 1)))) ?_
  rw [List.append_nil, List.nil_append, FixedHeader.bytes, headerWire, RemainingLength.wire, hn]

/-- With a wrong width the assertion fails where it is compiled in, and elsewhere the encoder ends
well. -/
theorem result_writeSync_of_ne {value : FixedHeaderBuilder} {n : ℕ}
    (hflags : validateTypeFlags value.packetType value.flags = .ok ())
    (hlen : value.remainingLength.toNat ≤ 268435455)
    (hn : RemainingLength.width value.remainingLength.toNat ≠ n) :
    (writeSync n value).result = if Target.debugAssertions then
      .error (.panicked "remaining length array length") else .ok (n + 1) := by
  have hval := validateValue_eq hflags hlen n
  rw [decide_eq_false hn, debugAssert, Bool.not_false, Bool.and_true] at hval
  rw [writeSync, Enc.result_bind, Enc.result_lift, hval]
  split_ifs <;> rfl

theorem AgreesWithSlice.of_rejects {value : FixedHeaderBuilder} {n : ℕ}
    (harray : (writeSync n value).Rejects) (hslice : (FixedHeaderSlice.writeSync value).Rejects) :
    AgreesWithSlice n value := by
  obtain ⟨err, harray⟩ := harray.1
  obtain ⟨err', hslice⟩ := hslice.1
  refine ⟨fun w msg hp => ?_, fun w => ?_, fun w k hk => ?_⟩
  · rw [Enc.run_vec, harray] at hp
    cases hp
  · rw [Enc.run_vec, Enc.run_vec, harray, hslice]
    simp
  · rw [Enc.run_vec, harray] at hk
    cases hk

theorem AgreesWithSlice.of_width {value : FixedHeaderBuilder} {n : ℕ}
    (hflags : validateTypeFlags value.packetType value.flags = .ok ())
    (hlen : value.remainingLength.toNat ≤ 268435455)
    (hn : RemainingLength.width value.remainingLength.toNat = n) : AgreesWithSlice n value := by
  have harray := writeSync_writes hflags hlen hn
  have hslice := FixedHeaderSlice.writeSync_writes value hflags hlen
  rw [hn] at hslice
  refine ⟨fun w => ?_, fun w => ?_, fun w k _ => ?_⟩
  · rw [harray.run_vec]
    exact noPanic_ok _
  · rw [harray.run_vec, hslice.run_vec, RemainingLength.lenFromU32_eq hlen, hn]
    simp
  · rw [harray.run_vec, hslice.run_vec]

/-- A value that is not rejected has the width of the array if the encoders agree on it. -/
theorem AgreesWithSlice.width_eq {value : FixedHeaderBuilder} {n : ℕ}
    (h : AgreesWithSlice n value)
    (hflags : validateTypeFlags value.packetType value.flags = .ok ())
    (hlen : value.remainingLength.toNat ≤ 268435455) :
    RemainingLength.width value.remainingLength.toNat = n := by
  by_contra hn
  have hres := result_writeSync_of_ne hflags hlen hn
  have hnot := h.noPanic []
  have hiff := h.ok_iff []
  rw [Enc.run_nil, hres] at hnot hiff
  split_ifs at hnot hiff
  · exact hnot _ rfl
  · have hok := (hiff.1 ⟨_, rfl⟩).2
    rw [RemainingLength.lenFromU32_eq hlen] at hok
    exact hn (Except.ok.inj hok)

/-- The encoders agree on what both reject and on the values of the array's own width. -/
theorem agreesWithSlice_iff (n : ℕ) (value : FixedHeaderBuilder) :
    AgreesWithSlice n value ↔ validateTypeFlags value.packetType value.flags ≠ .ok () ∨
      268435455 < value.remainingLength.toNat ∨
        RemainingLength.width value.remainingLength.toNat = n := by
  by_cases hrej : validateTypeFlags value.packetType value.flags ≠ .ok () ∨
      268435455 < value.remainingLength.toNat
  · obtain ⟨harray, hslice⟩ := writeSync_rejects n hrej
    exact iff_of_true (.of_rejects harray hslice) (or_assoc.1 (.inl hrej))
  · push Not at hrej
    obtain ⟨hflags, hlen⟩ := hrej
    constructor
    · intro h
      exact .inr (.inr (h.width_eq hflags hlen))
    · intro h
      have hn : RemainingLength.width value.remainingLength.toNat = n :=
        (h.resolve_left (not_not.2 hflags)).resolve_left (not_lt.2 hlen)
      exact .of_width hflags hlen hn

end FixedHeaderArray

end

/-- A PUBLISH of 128 bytes through the array of one byte: a debug build panics, a release build
writes half of the remaining length. -/
theorem FixedHeaderArray.writeSync_truncates :
    (@writeSync Target.debug 1 ⟨.publish, .empty, 128⟩).run ([] : List UInt8) =
      (.error (.panicked "remaining length array length"), []) ∧
    (@writeSync ⟨64, by decide, false⟩ 1 ⟨.publish, .empty, 128⟩).run ([] : List UInt8) =
      (.ok 2, [0x30, 0x80]) ∧
    ¬ @AgreesWithSlice Target.debug 1 ⟨.publish, .empty, 128⟩ ∧
    ¬ @AgreesWithSlice ⟨64, by decide, false⟩ 1 ⟨.publish, .empty, 128⟩ := by
  refine ⟨by decide, by decide, fun h => ?_, fun h => ?_⟩
  · exact @AgreesWithSlice.noPanic Target.debug 1 _ h [] "remaining length array length"
      (by decide)
  · have hok := (@AgreesWithSlice.ok_iff ⟨64, by decide, false⟩ 1 _ h []).1 ⟨2, by decide⟩
    exact absurd hok.2 (by decide)

end Mcutt
