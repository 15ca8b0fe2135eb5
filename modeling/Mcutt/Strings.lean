import Mcutt.Common

/-!
# The characters of a string

What `is_valid_char` of `common/string.rs` accepts, against the code points that MQTT forbids.  The
check for the noncharacters of the supplementary planes looks at the low byte of a code point, not
at its low sixteen bits, so it also takes 255 pairs of other characters of each plane for
noncharacters (`isValidChar_eq_true_iff`); a string with one of them is rejected by the encoder and
by the decoder (`accepted_iff_clean_iff`).
-/

namespace Mcutt

/-! ## Code points -/

/-- A Unicode noncharacter: U+FDD0..U+FDEF and the last two code points of each plane. -/
def Noncharacter (c : Char) : Prop :=
  (0xFDD0 ≤ c.toNat ∧ c.toNat ≤ 0xFDEF) ∨ c.toNat % 0x10000 = 0xFFFE ∨ c.toNat % 0x10000 = 0xFFFF

/-- U+0000, a control character U+0001..U+001F or a noncharacter. -/
def Forbidden (c : Char) : Prop := c.toNat ≤ 0x1F ∨ Noncharacter c

instance (c : Char) : Decidable (Noncharacter c) := inferInstanceAs (Decidable (_ ∨ _ ∨ _))

instance (c : Char) : Decidable (Forbidden c) := inferInstanceAs (Decidable (_ ∨ _))

/-- A character of a supplementary plane that shares its low byte with a noncharacter. -/
def Lookalike (c : Char) : Prop :=
  0x10000 ≤ c.toNat ∧ (c.toNat % 0x100 = 0xFE ∨ c.toNat % 0x100 = 0xFF) ∧ ¬ Noncharacter c

instance (c : Char) : Decidable (Lookalike c) := inferInstanceAs (Decidable (_ ∧ _ ∧ _))

theorem toNat_le (c : Char) : c.toNat ≤ 0x10FFFF := by
  have := c.valid
  unfold UInt32.isValidChar Nat.isValidChar at this
  show c.val.toNat ≤ _
  omega

theorem isLastTwoSupplementary_iff {c : Char} :
    isLastTwoSupplementary c = true ↔
      0x10000 ≤ c.toNat ∧ (c.toNat % 0x100 = 0xFE ∨ c.toNat % 0x100 = 0xFF) := by
  have hle := toNat_le c
  have hlow : (c.val &&& 0xFF).toNat = c.toNat % 0x100 := by
    rw [UInt32.toNat_and]
    exact Nat.and_two_pow_sub_one_eq_mod c.toNat 8
  have hhigh : (c.val >>> 16).toNat = c.toNat / 0x10000 := by
    rw [UInt32.toNat_shiftRight]
    exact Nat.shiftRight_eq_div_pow c.toNat 16
  simp only [isLastTwoSupplementary, Bool.and_eq_true, Bool.or_eq_true, beq_iff_eq,
    decide_eq_true_eq, ← UInt32.toNat_inj, UInt32.le_iff_toNat_le, hlow, hhigh]
  have h1 : (0x01 : UInt32).toNat = 1 := rfl
  have h16 : (0x10 : UInt32).toNat = 16 := rfl
  have hFE : (0xFE : UInt32).toNat = 0xFE := rfl
  have hFF : (0xFF : UInt32).toNat = 0xFF := rfl
  rw [h1, h16, hFE, hFF]
  omega

/-- The check accepts what is neither forbidden nor looks like it. -/
theorem isValidChar_eq_true_iff {c : Char} :
    isValidChar c = true ↔ ¬ Forbidden c ∧ ¬ Lookalike c := by
  have hle := toNat_le c
  have hranges : (c.val = 0x0000 ∨ (0x0001 ≤ c.val ∧ c.val ≤ 0x001F) ∨
      (0xFDD0 ≤ c.val ∧ c.val ≤ 0xFDEF) ∨ (0xFFFE ≤ c.val ∧ c.val ≤ 0xFFFF)) ↔
      c.toNat ≤ 0x1F ∨ (0xFDD0 ≤ c.toNat ∧ c.toNat ≤ 0xFDEF) ∨
        (0xFFFE ≤ c.toNat ∧ c.toNat ≤ 0xFFFF) := by
    simp only [← UInt32.toNat_inj, UInt32.le_iff_toNat_le, UInt32.reduceToNat]
    have hval : c.val.toNat = c.toNat := rfl
    rw [hval]
    omega
  have hlast := isLastTwoSupplementary_iff (c := c)
  simp only [isValidChar, hranges, Forbidden, Lookalike, Noncharacter]
  split_ifs with h
  · apply iff_of_false (by simp)
    omega
  · rw [Bool.not_eq_true', ← Bool.not_eq_true, hlast]
    omega

/-! ## Strings -/

theorem strBytes_inj {s t : String} (h : strBytes s = strBytes t) : s = t := by
  have hs := fromUtf8_strBytes s
  rw [h, fromUtf8_strBytes] at hs
  exact (Option.some.inj hs).symm

/-- A string is written character by character. -/
theorem strBytes_eq_flatMap (s : String) : strBytes s = s.toList.flatMap String.utf8EncodeChar := by
  rw [strBytes, ← String.utf8Encode_toList, List.utf8Encode]
  simp

/-- A byte below 128 is written only for the character of this number. -/
theorem mem_utf8EncodeChar_iff {c d : Char} (hd : d.toNat < 128) :
    UInt8.ofNat d.toNat ∈ String.utf8EncodeChar c ↔ c = d := by
  have hval : c.val.toNat = c.toNat := rfl
  have high {n : ℕ} (hn : n < 128) (k : ℕ) (hk : n + k < 256) (hlow : 128 ≤ n + k) :
      UInt8.ofNat d.toNat ≠ UInt8.ofNat (n + k) := by
    intro h
    have := congrArg UInt8.toNat h
    rw [UInt8.toNat_ofNat', UInt8.toNat_ofNat'] at this
    omega
  have hne (h : ¬ c.toNat ≤ 0x7f) : c ≠ d := by
    rintro rfl
    omega
  unfold String.utf8EncodeChar
  simp only [hval]
  split_ifs with h₁ h₂ h₃
  · rw [List.mem_singleton, ← UInt8.toNat_inj, UInt8.toNat_ofNat', UInt8.toNat_ofNat',
      Nat.mod_eq_of_lt (by omega), Nat.mod_eq_of_lt (by omega), eq_comm, Char.toNat_inj]
  all_goals
    refine iff_of_false ?_ (hne h₁)
    simp only [List.mem_cons, List.not_mem_nil, or_false, not_or]
  · exact ⟨high (by omega) _ (by omega) (by omega), high (by omega) _ (by omega) (by omega)⟩
  · exact ⟨high (by omega) _ (by omega) (by omega), high (by omega) _ (by omega) (by omega),
      high (by omega) _ (by omega) (by omega)⟩
  · exact ⟨high (by omega) _ (by omega) (by omega), high (by omega) _ (by omega) (by omega),
      high (by omega) _ (by omega) (by omega), high (by omega) _ (by omega) (by omega)⟩

/-- An ASCII character is in a string if its byte is. -/
theorem mem_strBytes_iff {s : String} {d : Char} (hd : d.toNat < 128) :
    UInt8.ofNat d.toNat ∈ strBytes s ↔ d ∈ s.toList := by
  rw [strBytes_eq_flatMap, List.mem_flatMap]
  simp only [mem_utf8EncodeChar_iff hd, exists_eq_right]

/-- Two buffers in front of the same bytes are the same. -/
theorem Buff.wire_append_inj {as bs rest rest' : List UInt8} (ha : as.length ≤ 65535)
    (hb : bs.length ≤ 65535) (h : wire as ++ rest = wire bs ++ rest') : as = bs ∧ rest = rest' := by
  let := Target.debug
  have parsed : parse (wire as ++ rest) = .ok (ofBytes as, rest) := parse_eq_ok.2 ⟨rfl, rfl, ha⟩
  have parsed' : parse (wire bs ++ rest') = .ok (ofBytes bs, rest') :=
    parse_eq_ok.2 ⟨rfl, rfl, hb⟩
  rw [h, parsed', Except.ok.injEq, Prod.mk.injEq, ofBytes, Buff.mk.injEq] at parsed
  exact ⟨parsed.1.2.symm, parsed.2.symm⟩

theorem MqttStr.wire_append_inj {s t : String} {rest rest' : List UInt8}
    (hs : (strBytes s).length ≤ 65535) (ht : (strBytes t).length ≤ 65535)
    (h : wire s ++ rest = wire t ++ rest') : s = t ∧ rest = rest' := by
  obtain ⟨hbytes, hrest⟩ := Buff.wire_append_inj hs ht h
  exact ⟨strBytes_inj hbytes, hrest⟩

/-- A string that MQTT permits. -/
def Clean (s : String) : Prop := ∀ c ∈ s.toList, ¬ Forbidden c

theorem valid_iff {s : String} (hlen : (strBytes s).length ≤ 65535) :
    MqttStr.Valid s ↔ Clean s ∧ ∀ c ∈ s.toList, ¬ Lookalike c := by
  simp only [MqttStr.Valid, hlen, and_true, List.all_eq_true, isValidChar_eq_true_iff, Clean,
    ← forall₂_and]

section

variable [Target]

/-- The encoder accepts the string. -/
def MqttStr.Writes (s : String) : Prop :=
  ∃ n out, (MqttStr.writeSync s).run ([] : List UInt8) = (.ok n, out)

/-- The decoder accepts the string with its length in front. -/
def MqttStr.Parses (s : String) : Prop :=
  ∃ this rest, MqttStr.parse (beBytes (strBytes s).length ++ strBytes s) = .ok (this, rest)

omit [Target] in
theorem MqttStr.writes_iff {s : String} : MqttStr.Writes s ↔ MqttStr.Valid s := by
  constructor
  · rintro ⟨n, out, hrun⟩
    exact ((MqttStr.checks_writeSync s).of_ok (Enc.of_run_nil hrun).1).1
  · exact fun valid => ⟨_, _, (MqttStr.writeSync_writes valid).run_nil⟩

theorem MqttStr.parses_iff {s : String} (hlen : (strBytes s).length ≤ 65535) :
    MqttStr.Parses s ↔ MqttStr.Valid s := by
  constructor
  · rintro ⟨this, rest, hparse⟩
    obtain ⟨heq, -, valid⟩ := MqttStr.parse_eq_ok.1 hparse
    rw [← List.append_nil (beBytes (strBytes s).length ++ strBytes s)] at heq
    obtain ⟨rfl, -⟩ := MqttStr.wire_append_inj hlen valid.2 heq
    exact valid
  · intro valid
    refine ⟨MqttStr.ofString s, [], MqttStr.parse_eq_ok.2 ⟨?_, rfl, valid⟩⟩
    exact (List.append_nil _).symm

/-- Both directions accept exactly the permitted strings, unless a permitted one has a character
that looks like a noncharacter. -/
theorem accepted_iff_clean_iff {s : String} (hlen : (strBytes s).length ≤ 65535) :
    ((MqttStr.Writes s ↔ Clean s) ∧ (MqttStr.Parses s ↔ Clean s)) ↔
      (Clean s → ∀ c ∈ s.toList, ¬ Lookalike c) := by
  rw [MqttStr.writes_iff, MqttStr.parses_iff hlen, valid_iff hlen, and_self]
  constructor
  · exact fun h hclean => (h.2 hclean).2
  · exact fun h => ⟨fun hs => hs.1, fun hclean => ⟨hclean, h hclean⟩⟩

end

theorem accepted_iff_clean_iff_snowman :
    letI := Target.debug
    (MqttStr.Writes "a☃" ↔ Clean "a☃") ∧ (MqttStr.Parses "a☃" ↔ Clean "a☃") := by
  let := Target.debug
  have ordinary : ∀ c ∈ ['a', '☃'], ¬ Lookalike c :=
    List.forall_mem_cons.2 ⟨by decide, List.forall_mem_singleton.2 (by decide)⟩
  exact (accepted_iff_clean_iff (by decide)).2 fun _ => ordinary

/-- U+1F5FE ends in the byte of a noncharacter. -/
theorem lookalike_rejected :
    letI := Target.debug
    (strBytes "🗾").length ≤ 65535 ∧
      ¬ ((MqttStr.Writes "🗾" ↔ Clean "🗾") ∧ (MqttStr.Parses "🗾" ↔ Clean "🗾")) := by
  let := Target.debug
  have clean : ∀ c ∈ ['🗾'], ¬ Forbidden c := List.forall_mem_singleton.2 (by decide)
  refine ⟨by decide, fun h => ?_⟩
  have valid := MqttStr.writes_iff.1 (h.1.2 clean)
  exact absurd valid (by decide)

end Mcutt
