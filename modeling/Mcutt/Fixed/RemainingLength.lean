import Mcutt.Encoder
import Mcutt.Lib.Varint

/-!
# The remaining length

`common/fixed/remaining_length.rs`: the number of bytes after the fixed header, written in one to
four bytes as a base-128 number with continuation flags.  The second half relates the source's
functions to `Varint`: the flag and the mask are `more` and `digit`, none of the arithmetic of a
reader overflows on four bytes (`readLoop_eq`), the writer's bytes are `Varint.encode`, and the
parser takes exactly the terminated strings of at most four bytes (`parse_eq_ok`).
-/

namespace Mcutt

/-- The encoded bytes of a remaining length. -/
structure RemainingLength where
  len : List UInt8
  deriving DecidableEq, Repr

namespace RemainingLength

def continueFlag : UInt8 := 0b1000_0000

def valueMask : UInt8 := ~~~continueFlag

def maxBytes : ℕ := 4

def u32Max : ℕ := 2 ^ 32 - 1

def hasContinueFlag (b : UInt8) : Bool := (continueFlag &&& b) == continueFlag

def countContinueFlags (buf : List UInt8) : Exec ℕ :=
  let flags := ((buf.takeWhile hasContinueFlag).take maxBytes).length
  if 4 ≤ flags then
    fail .invalid "remaining length continuation flags require more than 4 bytes"
  else .ok flags

section

variable [Target]

/-- The `map` with a running multiplier and the `sum`, on a type with largest value `max`. -/
def readLoop (max : ℕ) (multiplier acc : ℕ) : List UInt8 → Exec ℕ
  | [] => .ok acc
  | byte :: bytes => do
    let value ← arith max ((byte &&& valueMask).toNat * multiplier)
    let multiplier ← arith max (multiplier * 128)
    let acc ← arith max (acc + value)
    readLoop max multiplier acc bytes

def readFromBuf (buff : List UInt8) : Exec ℕ := readLoop u32Max 1 0 buff

def read (self : RemainingLength) : Exec ℕ := readLoop u32Max 1 0 self.len

def readLen (self : RemainingLength) : Exec ℕ := readLoop usizeMax 1 0 self.len

end

def lenFromU32 (value : UInt32) : Exec ℕ :=
  if value.toNat ≤ 127 then .ok 1
  else if value.toNat ≤ 16383 then .ok 2
  else if value.toNat ≤ 2097151 then .ok 3
  else if value.toNat ≤ 268435455 then .ok 4
  else fail .outOfRange "remaining length"

/-- The closure of `encode_to_array`, called once for each of the `n` bytes. -/
def encodeDigits : ℕ → ℕ → List UInt8
  | 0, _ => []
  | n + 1, value =>
    let b := UInt8.ofNat (value % 128)
    let value := value / 128
    (if 0 < value then b ||| 128 else b) :: encodeDigits n value

/-- `RemainingLength::validate_value`. -/
def validateValue (value : UInt32) : Exec ℕ := lenFromU32 value

/-- `impl Parsed for RemainingLength`. -/
def validate (self : RemainingLength) : Exec Unit :=
  if 4 < self.len.length then fail .invalid "remaining length too many bytes"
  else
    match self.len.reverse with
    | [] => .ok ()
    | last :: iter =>
      if hasContinueFlag last then fail .invalid "remaining length last byte continuation set"
      else if !iter.all hasContinueFlag then
        fail .invalid "remaining length continuation flag unset"
      else .ok ()

section

variable [Target]

def encodeToArray (n : ℕ) (value : UInt32) : Exec (List UInt8) := do
  debugAssert (decide (lenFromU32 value = .ok n)) "remaining length array length"
  .ok (encodeDigits n value.toNat)

def writeSyncArray (n : ℕ) (value : UInt32) : Enc ℕ := do
  let buf ← encodeToArray n value
  Enc.writeAll buf "writing remaining length"
  pure n

/-- `RemainingLengthSlice::encode_len`. -/
def encodeLen (value : UInt32) : Exec ℕ := lenFromU32 value

/-- `RemainingLengthSlice::write_sync`. -/
def writeSync (value : UInt32) : Enc ℕ :=
  if value.toNat ≤ 127 then writeSyncArray 1 value
  else if value.toNat ≤ 16383 then writeSyncArray 2 value
  else if value.toNat ≤ 2097151 then writeSyncArray 3 value
  else if value.toNat ≤ 268435455 then writeSyncArray 4 value
  else .done (fail .outOfRange "remaining length")

/-- `RemainingLengthSlice::parse`. -/
def parse (buff : List UInt8) : Exec (RemainingLength × List UInt8) := do
  let flags ← countContinueFlags buff
  debugAssert (decide (flags ≤ 3)) "(0..=3).contains(&flags)"
  let (this, rest) ← okOr (splitAtChecked buff (flags + 1)) .notEnoughSpace "remaining length"
  debugAssert (decide (1 ≤ this.length ∧ this.length ≤ 4)) "(1..=4).contains(&this.len.len())"
  .ok (⟨this⟩, rest)

end

/-! ## The flag and the mask -/

theorem hasContinueFlag_eq_more : hasContinueFlag = Varint.more := by
  funext b
  have all : ∀ n : Fin 256, hasContinueFlag (UInt8.ofNat n) = Varint.more (UInt8.ofNat n) := by
    decide +kernel
  simpa using all ⟨b.toNat, b.toNat_lt⟩

theorem and_valueMask (b : UInt8) : (b &&& valueMask).toNat = Varint.digit b := by
  have all : ∀ n : Fin 256,
      (UInt8.ofNat n &&& valueMask).toNat = Varint.digit (UInt8.ofNat n) := by
    decide +kernel
  simpa using all ⟨b.toNat, b.toNat_lt⟩

theorem or_continueFlag (d : ℕ) (h : d < 128) :
    UInt8.ofNat d ||| 128 = UInt8.ofNat (d + 128) := by
  have all : ∀ d : Fin 128, UInt8.ofNat d ||| 128 = UInt8.ofNat (d + 128) := by decide +kernel
  exact all ⟨d, h⟩

theorem encodeDigits_eq (n v : ℕ) : encodeDigits n v = Varint.encode n v := by
  induction n generalizing v with
  | zero => rfl
  | succ n ih =>
    simp only [encodeDigits, Varint.encode, ih, List.cons.injEq, and_true]
    by_cases h : 128 ≤ v
    · rw [if_pos (by omega), if_pos h, or_continueFlag _ (by omega)]
    · rw [if_neg (by omega), if_neg h, Nat.mod_eq_of_lt (by omega)]

/-! ## Counting and reading -/

theorem countContinueFlags_eq (buf : List UInt8) :
    countContinueFlags buf =
      if 4 ≤ (buf.takeWhile Varint.more).length then
        fail .invalid "remaining length continuation flags require more than 4 bytes"
      else .ok (buf.takeWhile Varint.more).length := by
  unfold countContinueFlags
  rw [hasContinueFlag_eq_more, maxBytes, List.length_take]
  by_cases h : 4 ≤ (buf.takeWhile Varint.more).length
  · simp [h]
  · have : min 4 (buf.takeWhile Varint.more).length = (buf.takeWhile Varint.more).length := by
      omega
    simp [h, this]

theorem countContinueFlags_eq_ok {buf : List UInt8} {n : ℕ} :
    countContinueFlags buf = .ok n ↔ (buf.takeWhile Varint.more).length = n ∧ n ≤ 3 := by
  rw [countContinueFlags_eq]
  split_ifs with h
  · simp only [fail_ne_ok, false_iff]
    omega
  · rw [Except.ok.injEq]
    omega

section

variable [Target]

/-- No operation of a reader overflows as long as the sum and the last multiplier fit. -/
theorem readLoop_eq (max multiplier acc : ℕ) (bs : List UInt8) (pos : 0 < multiplier)
    (sum : acc + multiplier * Varint.value bs ≤ max) (last : multiplier * 128 ^ bs.length ≤ max) :
    readLoop max multiplier acc bs = .ok (acc + multiplier * Varint.value bs) := by
  induction bs generalizing multiplier acc with
  | nil => simp [readLoop]
  | cons b bs ih =>
    rw [Varint.value_cons] at sum ⊢
    rw [List.length_cons, pow_succ'] at last
    have next : multiplier * 128 * 128 ^ bs.length ≤ max := by rwa [Nat.mul_assoc]
    have hmul : multiplier * 128 ≤ max :=
      le_trans (Nat.le_mul_of_pos_right _ (by positivity)) next
    have hdig : Varint.digit b * multiplier ≤ max := by
      have := Nat.mul_le_mul_right multiplier (Varint.digit_lt b).le
      omega
    have split : multiplier * (Varint.digit b + 128 * Varint.value bs) =
        Varint.digit b * multiplier + multiplier * 128 * Varint.value bs := by ring
    rw [split, ← Nat.add_assoc] at sum ⊢
    rw [readLoop, and_valueMask, arith_of_le hdig, ok_bind, arith_of_le hmul, ok_bind,
      arith_of_le (by omega), ok_bind, ih _ _ (by omega) sum next]

omit [Target] in
theorem pow_length_le {bs : List UInt8} (h : bs.length ≤ 4) : 128 ^ bs.length ≤ 2 ^ 28 :=
  Nat.pow_le_pow_right (by decide) h

theorem readFromBuf_eq {bs : List UInt8} (h : bs.length ≤ 4) :
    readFromBuf bs = .ok (Varint.value bs) := by
  have lt := Varint.value_lt bs
  have pow := pow_length_le h
  rw [readFromBuf, readLoop_eq _ _ _ _ (by decide), Nat.zero_add, Nat.one_mul] <;>
    unfold u32Max <;> omega

theorem read_eq {self : RemainingLength} (h : self.len.length ≤ 4) :
    self.read = .ok (Varint.value self.len) := readFromBuf_eq h

theorem readLen_eq {self : RemainingLength} (h : self.len.length ≤ 4) :
    self.readLen = .ok (Varint.value self.len) := by
  have lt := Varint.value_lt self.len
  have pow := pow_length_le h
  rw [readLen, readLoop_eq _ _ _ _ (by decide), Nat.zero_add, Nat.one_mul] <;>
    apply le_usizeMax <;> omega

end

/-! ## Writing and parsing -/

/-- The number of bytes a remaining length needs. -/
def width (v : ℕ) : ℕ :=
  if v ≤ 127 then 1 else if v ≤ 16383 then 2 else if v ≤ 2097151 then 3 else 4

/-- The bytes of a remaining length. -/
def wire (v : ℕ) : List UInt8 := Varint.encode (width v) v

theorem width_cases {v : ℕ} (h : v ≤ 268435455) :
    ∃ n, width v = n + 1 ∧ n ≤ 3 ∧ (n = 0 ∨ 128 ^ n ≤ v) ∧ v < 128 ^ (n + 1) := by
  unfold width
  split_ifs with h₁ h₂ h₃
  · exact ⟨0, rfl, by omega, Or.inl rfl, by omega⟩
  · exact ⟨1, rfl, by omega, Or.inr (by omega), by omega⟩
  · exact ⟨2, rfl, by omega, Or.inr (by omega), by omega⟩
  · exact ⟨3, rfl, by omega, Or.inr (by omega), by omega⟩

theorem length_wire (v : ℕ) : (wire v).length = width v := Varint.length_encode _ _

theorem width_le (v : ℕ) : width v ≤ 4 := by
  unfold width
  split_ifs <;> omega

theorem terminated_wire {v : ℕ} (h : v ≤ 268435455) : Varint.Terminated (wire v) := by
  obtain ⟨n, hn, -, lo, hi⟩ := width_cases h
  rw [wire, hn]
  exact Varint.terminated_encode n v lo hi

theorem value_wire {v : ℕ} (h : v ≤ 268435455) : Varint.value (wire v) = v := by
  obtain ⟨n, hn, -, -, hi⟩ := width_cases h
  rw [wire, hn]
  exact Varint.value_encode _ _ hi

/-- A minimally encoded remaining length is the one the encoder writes. -/
theorem wire_value {bs : List UInt8} (h : Varint.Terminated bs) (hm : Varint.Minimal bs)
    (hl : bs.length ≤ 4) : wire (Varint.value bs) = bs := by
  have lt := Varint.value_lt bs
  have hw : width (Varint.value bs) = bs.length := by
    have pos := h.length_pos
    have hlow : bs.length = 1 ∨ 128 ^ (bs.length - 1) ≤ Varint.value bs :=
      hm.imp_right h.pow_le_value
    unfold width
    rcases (by omega : bs.length = 1 ∨ bs.length = 2 ∨ bs.length = 3 ∨ bs.length = 4)
      with e | e | e | e <;> rw [e] at lt hlow ⊢ <;> split_ifs <;> omega
  rw [wire, hw]
  exact h.encode_value hm

theorem minimal_wire {v : ℕ} (h : v ≤ 268435455) : Varint.Minimal (wire v) := by
  obtain ⟨n, hn, -, lo, hi⟩ := width_cases h
  rw [wire, hn]
  exact Varint.minimal_encode n v lo hi

/-- The encoder gives back the minimal encodings, and no others. -/
theorem wire_value_iff {bs : List UInt8} (h : Varint.Terminated bs) (hl : bs.length ≤ 4) :
    wire (Varint.value bs) = bs ↔ Varint.Minimal bs := by
  refine ⟨fun heq => ?_, fun hm => wire_value h hm hl⟩
  have lt := Varint.value_lt bs
  have pow := pow_length_le hl
  have hm := minimal_wire (v := Varint.value bs) (by omega)
  rwa [heq] at hm

theorem lenFromU32_eq {value : UInt32} (h : value.toNat ≤ 268435455) :
    lenFromU32 value = .ok (width value.toNat) := by
  unfold lenFromU32 width
  split_ifs <;> rfl

theorem lenFromU32_of_lt {value : UInt32} (h : 268435455 < value.toNat) :
    lenFromU32 value = fail .outOfRange "remaining length" := by
  unfold lenFromU32
  split_ifs <;> first | omega | rfl

section

variable [Target]

theorem writeSyncArray_writes {n : ℕ} {value : UInt32} (h : lenFromU32 value = .ok n) :
    (writeSyncArray n value).Writes n (Varint.encode n value.toNat) := by
  have hbuf : encodeToArray n value = .ok (Varint.encode n value.toNat) := by
    simp [encodeToArray, h, encodeDigits_eq]
  exact (Enc.writes_lift hbuf).bind
    (((Enc.writes_writeAll _ _).bind (Enc.writes_pure n)).congr (by simp))

theorem writeSync_writes {value : UInt32} (h : value.toNat ≤ 268435455) :
    (writeSync value).Writes (width value.toNat) (wire value.toNat) := by
  have hlen := lenFromU32_eq h
  unfold writeSync
  unfold wire
  unfold width at hlen ⊢
  split_ifs at hlen ⊢ <;> exact writeSyncArray_writes hlen

/-- The parser takes exactly the terminated byte strings of at most four bytes. -/
theorem parse_eq_ok {buff rest : List UInt8} {this : RemainingLength} :
    parse buff = .ok (this, rest) ↔
      buff = this.len ++ rest ∧ Varint.Terminated this.len ∧ this.len.length ≤ 4 := by
  constructor
  · intro h
    simp only [parse, bind_eq_ok, okOr_eq_ok] at h
    obtain ⟨flags, hflags, -, -, ⟨t, r⟩, hsplit, -, -, heq⟩ := h
    obtain ⟨rfl, hlen⟩ := splitAtChecked_eq_some.1 hsplit
    obtain ⟨rfl, rfl⟩ : this = ⟨t⟩ ∧ rest = r := by simpa [eq_comm] using heq
    obtain ⟨hcount, hle⟩ := countContinueFlags_eq_ok.1 hflags
    have hlt : ((t ++ rest).takeWhile Varint.more).length < (t ++ rest).length := by
      rw [List.length_append]
      omega
    have hterm := Varint.terminated_take hlt
    rw [hcount, ← hlen, List.take_left] at hterm
    have hle' : t.length ≤ 4 := by omega
    exact ⟨rfl, hterm, hle'⟩
  · rintro ⟨rfl, hterm, hle⟩
    have hcount := hterm.length_takeWhile rest
    have hpos := hterm.length_pos
    have hflags : countContinueFlags (this.len ++ rest) = .ok (this.len.length - 1) :=
      countContinueFlags_eq_ok.2 (by omega)
    have hsplit : splitAtChecked (this.len ++ rest) (this.len.length - 1 + 1) =
        some (this.len, rest) := splitAtChecked_eq_some.2 ⟨rfl, by omega⟩
    have h₁ : decide (this.len.length - 1 ≤ 3) = true := by
      simp only [decide_eq_true_eq]
      omega
    have h₂ : decide (1 ≤ this.len.length ∧ this.len.length ≤ 4) = true := by
      simp only [decide_eq_true_eq]
      omega
    simp only [parse, hflags, ok_bind, h₁, debugAssert_true, hsplit, okOr_some, h₂]

omit [Target] in
theorem countContinueFlags_noPanic (buf : List UInt8) : NoPanic (countContinueFlags buf) :=
  noPanic_ite _ _ _ _

theorem parse_noPanic (buff : List UInt8) : NoPanic (parse buff) := by
  refine (countContinueFlags_noPanic buff).bind fun flags hflags => ?_
  obtain ⟨-, hle⟩ := countContinueFlags_eq_ok.1 hflags
  have h₁ : decide (flags ≤ 3) = true := decide_eq_true hle
  simp only [h₁, debugAssert_true, ok_bind]
  refine (noPanic_okOr _ _ _).bind fun ⟨this, rest⟩ hsplit => ?_
  obtain ⟨-, hlen⟩ := splitAtChecked_eq_some.1 (okOr_eq_ok.1 hsplit)
  have h₂ : decide (1 ≤ this.length ∧ this.length ≤ 4) = true := by
    simp only [decide_eq_true_eq]
    omega
  simp only [h₂, debugAssert_true, ok_bind]
  exact noPanic_ok _

theorem parse_append {this : RemainingLength} {rest : List UInt8}
    (h : Varint.Terminated this.len) (hl : this.len.length ≤ 4) :
    parse (this.len ++ rest) = .ok (this, rest) := parse_eq_ok.2 ⟨rfl, h, hl⟩

end

/-- The coding of a remaining length: every number the encoder takes is read back from what it
wrote, by each of the three readers; a number above the limit leaves nothing behind; and no
operation of a reader overflows on what the parser lets through, of which the encoder gives back
the minimal strings. -/
theorem coding_roundTrip [Target] :
    (∀ (v : UInt32) (w rest : List UInt8), v.toNat ≤ 268435455 → ∃ n out r,
      lenFromU32 v = .ok n ∧ (writeSync v).run w = (.ok n, w ++ out) ∧ out.length = n ∧
      parse (out ++ rest) = .ok (r, rest) ∧ r.read = .ok v.toNat ∧ r.readLen = .ok v.toNat ∧
      readFromBuf r.len = .ok v.toNat) ∧
    (∀ (v : UInt32) (w : List UInt8), 268435455 < v.toNat →
      (writeSync v).run w = (fail .outOfRange "remaining length", w)) ∧
    ∀ (buf rest : List UInt8) (r : RemainingLength), parse buf = .ok (r, rest) →
      1 ≤ r.len.length ∧ r.len.length ≤ 4 ∧ ∃ v : UInt32, v.toNat ≤ 268435455 ∧
        (∀ t : Target, @read t r = .ok v.toNat) ∧
        ∀ w : List UInt8, ((writeSync v).run w).2 = w ++ r.len ↔
          r.len.length = 1 ∨ r.len.getLast? ≠ some 0 := by
  refine ⟨fun v w rest hv => ?_, fun v w hv => ?_, fun buf rest r hparse => ?_⟩
  · have hlen : (wire v.toNat).length = width v.toNat := length_wire _
    have hle : (wire v.toNat).length ≤ 4 := hlen.trans_le (width_le _)
    have hval := value_wire hv
    refine ⟨width v.toNat, wire v.toNat, ⟨wire v.toNat⟩, lenFromU32_eq hv,
      (writeSync_writes hv).run_vec w, hlen, parse_append (terminated_wire hv) hle, ?_, ?_, ?_⟩
    · exact (read_eq hle).trans (congrArg Except.ok hval)
    · exact (readLen_eq hle).trans (congrArg Except.ok hval)
    · exact (readFromBuf_eq hle).trans (congrArg Except.ok hval)
  · unfold writeSync
    rw [if_neg (by omega), if_neg (by omega), if_neg (by omega), if_neg (by omega)]
    rfl
  · obtain ⟨-, hterm, hle⟩ := parse_eq_ok.1 hparse
    have lt := Varint.value_lt r.len
    have pow := pow_length_le hle
    have hnat : (UInt32.ofNat (Varint.value r.len)).toNat = Varint.value r.len := by
      rw [UInt32.toNat_ofNat']
      omega
    have hlimit : (UInt32.ofNat (Varint.value r.len)).toNat ≤ 268435455 := by
      rw [hnat]
      omega
    refine ⟨hterm.length_pos, hle, _, hlimit, fun t => ?_, fun w => ?_⟩
    · rw [hnat]
      exact @read_eq t r hle
    · rw [(writeSync_writes hlimit).run_vec w, hnat, List.append_right_inj]
      exact wire_value_iff hterm hle

theorem validate_noPanic (self : RemainingLength) : NoPanic self.validate := by
  unfold validate
  split_ifs
  · exact noPanic_fail _ _
  · split
    · exact noPanic_ok _
    · split_ifs <;> first | exact noPanic_fail _ _ | exact noPanic_ok _

/-- The check of a fixed-width remaining length. -/
theorem validate_eq_ok {self : RemainingLength} (h : self.len ≠ []) :
    self.validate = .ok () ↔ Varint.Terminated self.len ∧ self.len.length ≤ 4 := by
  obtain ⟨bs⟩ := self
  obtain ⟨init, last, rfl⟩ := (List.eq_nil_or_concat' bs).resolve_left h
  simp only [validate, List.reverse_append, List.reverse_singleton, List.singleton_append,
    Varint.Terminated.concat_iff, hasContinueFlag_eq_more]
  by_cases hlen : 4 < (init ++ [last]).length
  · rw [if_pos hlen]
    exact iff_of_false (by simp) (by omega)
  · rw [if_neg hlen]
    cases hl : Varint.more last with
    | true => simp
    | false =>
      have hall : init.reverse.all Varint.more = true ↔ ∀ b ∈ init, Varint.more b = true := by
        simp
      by_cases ha : ∀ b ∈ init, Varint.more b = true
      · rw [hall.2 ha]
        exact iff_of_true rfl ⟨⟨ha, rfl⟩, by omega⟩
      · rw [Bool.eq_false_iff.2 (fun hc => ha (hall.1 hc))]
        simp [ha]

end RemainingLength

end Mcutt
