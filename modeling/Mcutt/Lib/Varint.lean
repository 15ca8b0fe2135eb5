import Mathlib.Data.Nat.Digits.Defs
import Mathlib.Tactic

/-!
# Base-128 numbers with continuation flags

A number is written as its base-128 digits, least significant first, one digit in the low seven
bits of each byte; the high bit (`more`) is set on every byte but the last.  The file gives the
value of a byte string, the writer with a fixed number of bytes, and the facts a codec needs: the
writer's output ends where its last byte says (`terminated_encode`), reading it back gives the
number (`value_encode`), and the strings without a superfluous zero digit are the writer's
(`minimal_encode`), each the output for its own value (`encode_value`).
-/

namespace Varint

/-- The continuation flag of a byte. -/
def more (b : UInt8) : Bool := decide (128 ≤ b.toNat)

/-- The digit in the low seven bits of a byte. -/
def digit (b : UInt8) : ℕ := b.toNat % 128

/-- The number written by a string of bytes. -/
def value (bs : List UInt8) : ℕ := Nat.ofDigits 128 (bs.map digit)

/-- `n` bytes of the number `v`, flagged as long as something of `v` is left. -/
def encode : ℕ → ℕ → List UInt8
  | 0, _ => []
  | n + 1, v => (if 128 ≤ v then UInt8.ofNat (v % 128 + 128) else UInt8.ofNat v) ::
      encode n (v / 128)

/-- Every byte but the last is flagged. -/
inductive Terminated : List UInt8 → Prop
  | last {b : UInt8} (flag : more b = false) : Terminated [b]
  | cons {b : UInt8} {bs : List UInt8} (flag : more b = true) (rest : Terminated bs) :
      Terminated (b :: bs)

/-- No superfluous leading zero digit. -/
def Minimal (bs : List UInt8) : Prop := bs.length = 1 ∨ bs.getLast? ≠ some 0

instance (bs : List UInt8) : Decidable (Minimal bs) :=
  inferInstanceAs (Decidable (bs.length = 1 ∨ bs.getLast? ≠ some 0))

@[simp]
theorem value_nil : value [] = 0 := rfl

@[simp]
theorem value_cons (b : UInt8) (bs : List UInt8) : value (b :: bs) = digit b + 128 * value bs := by
  simp [value, Nat.ofDigits_cons]

theorem more_eq_false {b : UInt8} : more b = false ↔ b < 128 := by
  rw [more, decide_eq_false_iff_not, UInt8.lt_iff_toNat_lt]
  exact not_le

theorem digit_lt (b : UInt8) : digit b < 128 := Nat.mod_lt _ (by decide)

theorem value_lt (bs : List UInt8) : value bs < 128 ^ bs.length := by
  induction bs with
  | nil => simp
  | cons b bs ih =>
    have hd := digit_lt b
    rw [value_cons, List.length_cons, pow_succ]
    omega

@[simp]
theorem length_encode (n v : ℕ) : (encode n v).length = n := by
  induction n generalizing v with
  | zero => rfl
  | succ n ih => simp [encode, ih]

/-- The byte written for the lowest digit of `v`. -/
theorem digit_head (v : ℕ) :
    digit (if 128 ≤ v then UInt8.ofNat (v % 128 + 128) else UInt8.ofNat v) = v % 128 := by
  unfold digit
  split_ifs with h
  · rw [UInt8.toNat_ofNat']
    omega
  · rw [UInt8.toNat_ofNat']
    omega

theorem more_head (v : ℕ) :
    more (if 128 ≤ v then UInt8.ofNat (v % 128 + 128) else UInt8.ofNat v) = decide (128 ≤ v) := by
  unfold more
  split_ifs with h
  · simp only [UInt8.toNat_ofNat', h, decide_true, decide_eq_true_eq]
    omega
  · simp only [UInt8.toNat_ofNat', h, decide_false, decide_eq_false_iff_not]
    omega

/-- Reading the writer's bytes gives the number back. -/
theorem value_encode (n v : ℕ) (h : v < 128 ^ n) : value (encode n v) = v := by
  induction n generalizing v with
  | zero =>
    simp only [pow_zero] at h
    simp only [encode, value_nil]
    omega
  | succ n ih =>
    have hv : v / 128 < 128 ^ n := by
      rw [pow_succ] at h
      omega
    rw [encode, value_cons, digit_head, ih _ hv]
    omega

/-- A number of exactly `n + 1` digits is written as a terminated string. -/
theorem terminated_encode (n v : ℕ) (lo : n = 0 ∨ 128 ^ n ≤ v) (hi : v < 128 ^ (n + 1)) :
    Terminated (encode (n + 1) v) := by
  induction n generalizing v with
  | zero =>
    refine .last ?_
    rw [more_head]
    simpa using hi
  | succ n ih =>
    have lo' : 128 ^ (n + 1) ≤ v := lo.resolve_left (by omega)
    have big : 128 ≤ v := le_trans (Nat.le_self_pow (by omega) 128) lo'
    rw [pow_succ] at lo' hi
    refine .cons ?_ (ih (v / 128) (Or.inr (by omega)) (by omega))
    rw [more_head]
    simpa using big

/-- The last byte written for a number of at most `n + 1` digits is its highest digit. -/
theorem getLast?_encode (n v : ℕ) (hi : v < 128 ^ (n + 1)) :
    (encode (n + 1) v).getLast? = some (UInt8.ofNat (v / 128 ^ n)) := by
  induction n generalizing v with
  | zero =>
    have small : ¬ 128 ≤ v := by
      simpa using hi
    simp [encode, small]
  | succ n ih =>
    have hv : v / 128 < 128 ^ (n + 1) := by
      rw [pow_succ] at hi
      omega
    have ne : encode (n + 1) (v / 128) ≠ [] := by
      rw [← List.length_pos_iff, length_encode]
      omega
    rw [encode, List.getLast?_cons_of_ne_nil ne, ih _ hv, Nat.div_div_eq_div_mul, ← pow_succ']

/-- A number of exactly `n + 1` digits is written without a superfluous digit. -/
theorem minimal_encode (n v : ℕ) (lo : n = 0 ∨ 128 ^ n ≤ v) (hi : v < 128 ^ (n + 1)) :
    Minimal (encode (n + 1) v) := by
  apply lo.imp
  · intro hn
    rw [length_encode, hn]
  · intro hlow hzero
    rw [getLast?_encode n v hi, Option.some.injEq] at hzero
    have pos : 0 < v / 128 ^ n := Nat.div_pos hlow (by positivity)
    have small : v / 128 ^ n < 128 := by
      rw [pow_succ] at hi
      exact Nat.div_lt_of_lt_mul hi
    have := congrArg UInt8.toNat hzero
    rw [UInt8.toNat_ofNat', UInt8.toNat_zero] at this
    omega

namespace Terminated

theorem length_pos {bs : List UInt8} (h : Terminated bs) : 0 < bs.length := by
  cases h <;> simp

theorem singleton_iff (b : UInt8) : Terminated [b] ↔ more b = false := by
  refine ⟨fun h => ?_, .last⟩
  cases h with
  | last flag => exact flag
  | cons _ rest => exact absurd rest.length_pos (by simp)

theorem cons_iff (b : UInt8) {bs : List UInt8} (h : bs ≠ []) :
    Terminated (b :: bs) ↔ more b = true ∧ Terminated bs := by
  refine ⟨fun ht => ?_, fun ⟨flag, rest⟩ => .cons flag rest⟩
  cases ht with
  | last => exact absurd rfl h
  | cons flag rest => exact ⟨flag, rest⟩

theorem concat_iff (init : List UInt8) (last : UInt8) :
    Terminated (init ++ [last]) ↔ (∀ b ∈ init, more b = true) ∧ more last = false := by
  induction init with
  | nil => simp [singleton_iff]
  | cons b init ih =>
    rw [List.cons_append, cons_iff _ (by simp), ih, List.forall_mem_cons, and_assoc]

/-- One byte repeated is terminated only as a single byte. -/
theorem replicate_iff (n : ℕ) (b : UInt8) :
    Terminated (List.replicate n b) ↔ n = 1 ∧ more b = false := by
  cases n with
  | zero => exact iff_of_false (fun h => absurd h.length_pos (by simp)) (by simp)
  | succ n =>
    rw [List.replicate_succ', concat_iff]
    constructor
    · rintro ⟨hinit, hlast⟩
      refine ⟨?_, hlast⟩
      by_contra hne
      have := hinit b (List.mem_replicate.2 ⟨by omega, rfl⟩)
      rw [hlast] at this
      cases this
    · rintro ⟨hn, hlast⟩
      obtain rfl : n = 0 := by omega
      exact ⟨by simp, hlast⟩

/-- The flags of a terminated string mark its end, whatever follows. -/
theorem length_takeWhile {bs : List UInt8} (h : Terminated bs) (rest : List UInt8) :
    ((bs ++ rest).takeWhile more).length + 1 = bs.length := by
  induction h with
  | last flag => simp [flag]
  | cons flag _ ih => simpa [flag] using ih

/-- A stream has one terminated prefix. -/
theorem append_inj {as bs rest rest' : List UInt8} (ha : Terminated as) (hb : Terminated bs)
    (h : as ++ rest = bs ++ rest') : as = bs ∧ rest = rest' := by
  have hcountA := ha.length_takeWhile rest
  have hcountB := hb.length_takeWhile rest'
  have hposA := ha.length_pos
  have hposB := hb.length_pos
  rw [h] at hcountA
  exact List.append_inj h (by omega)

/-- A terminated string without a superfluous digit has as many digits as bytes. -/
theorem pow_le_value {bs : List UInt8} (h : Terminated bs) (hl : bs.getLast? ≠ some 0) :
    128 ^ (bs.length - 1) ≤ value bs := by
  induction h with
  | @last b flag =>
    have ne : b.toNat ≠ 0 := by
      intro h0
      have zero : b = 0 := UInt8.toNat_inj.1 h0
      exact hl (by rw [zero]; rfl)
    simp only [more, decide_eq_false_iff_not] at flag
    simp only [List.length_singleton, value_cons, value_nil, digit]
    omega
  | @cons b bs flag rest ih =>
    have pos := rest.length_pos
    have hl' : bs.getLast? ≠ some 0 := by
      rwa [List.getLast?_cons_of_ne_nil (List.length_pos_iff.1 pos)] at hl
    obtain ⟨k, hk⟩ : ∃ k, bs.length = k + 1 := ⟨bs.length - 1, by omega⟩
    have ih := ih hl'
    rw [List.length_cons, value_cons, hk, Nat.add_sub_cancel, pow_succ]
    rw [hk, Nat.add_sub_cancel] at ih
    omega

/-- A minimal terminated string is what the writer makes of its value. -/
theorem encode_value {bs : List UInt8} (h : Terminated bs) (hm : Minimal bs) :
    encode bs.length (value bs) = bs := by
  induction h with
  | @last b flag =>
    simp only [more, decide_eq_false_iff_not] at flag
    have hv : value [b] = b.toNat := by
      simp only [value_cons, value_nil, digit]
      omega
    simp [encode, hv, flag]
  | @cons b bs flag rest ih =>
    have pos := rest.length_pos
    have hl : bs.getLast? ≠ some 0 := by
      rcases hm with hm | hm
      · simp only [List.length_cons] at hm
        omega
      · rwa [List.getLast?_cons_of_ne_nil (List.length_pos_iff.1 pos)] at hm
    have tail : 0 < value bs := lt_of_lt_of_le (by positivity) (rest.pow_le_value hl)
    have hd := digit_lt b
    have head : (digit b + 128 * value bs) % 128 + 128 = b.toNat := by
      simp only [more, decide_eq_true_eq] at flag
      have := b.toNat_lt
      simp only [digit]
      omega
    rw [List.length_cons, value_cons, encode, if_pos (by omega), head, UInt8.ofNat_toNat,
      Nat.add_mul_div_left _ _ (by decide), Nat.div_eq_of_lt hd, Nat.zero_add, ih (Or.inr hl)]

end Terminated

/-- Cutting a byte string after its first unflagged byte gives a terminated string. -/
theorem terminated_take {bs : List UInt8} (h : (bs.takeWhile more).length < bs.length) :
    Terminated (bs.take ((bs.takeWhile more).length + 1)) := by
  induction bs with
  | nil => simp at h
  | cons b bs ih =>
    cases flag : more b with
    | false => simpa [flag] using Terminated.last flag
    | true =>
      simp only [List.takeWhile_cons, flag, if_true, List.length_cons,
        Nat.add_lt_add_iff_right] at h ⊢
      exact .cons flag (ih h)

end Varint
