import Mathlib.Tactic

/-!
# Errors, the target and machine arithmetic

The vocabulary of `bytes.rs`: errors, code that returns `Ok`, returns `Err` or panics (`Exec`),
the unchecked and the checked operations on `usize`, and the slices decoders cut.
-/

namespace Mcutt

/-! ## The target -/

/-- What the compiler fixes: the width of `usize`, of which `read_len` excludes 16, and whether
debug assertions and overflow checks are compiled in. -/
class Target where
  pointerWidth : ℕ
  pointerWidth_ge : 32 ≤ pointerWidth
  debugAssertions : Bool

namespace Target

/-- A 64-bit debug build. -/
@[reducible]
def debug : Target := ⟨64, by decide, true⟩

end Target

/-! ## Errors -/

/-- `std::io::ErrorKind`; the kinds the crate does not name are told apart by a number. -/
inductive IoErrorKind where
  | wouldBlock
  | interrupted
  | unexpectedEof
  | other (code : ℕ)
  deriving DecidableEq, Repr

inductive ErrorKind where
  | outOfRange
  | notEnoughSpace
  | overflow
  | invalid
  | stdIo (kind : IoErrorKind)
  deriving DecidableEq, Repr

structure Error where
  kind : ErrorKind
  msg : String
  deriving DecidableEq, Repr

/-- How a call ends when it does not return `Ok`. -/
inductive Fault where
  | err (e : Error)
  | panicked (msg : String)
  deriving DecidableEq, Repr

/-- Code that returns `Ok`, returns `Err`, or panics. -/
abbrev Exec := Except Fault

/-- `Err(Error::new(kind, msg))`. -/
def fail {α : Type} (kind : ErrorKind) (msg : String) : Exec α := .error (.err ⟨kind, msg⟩)

/-- `opt.ok_or(Error::new(kind, msg))`. -/
def okOr {α : Type} (o : Option α) (kind : ErrorKind) (msg : String) : Exec α :=
  match o with
  | some a => .ok a
  | none => fail kind msg

/-- A value of `Ok` or an `Err`, not a panic. -/
def NoPanic {α : Type} (x : Exec α) : Prop := ∀ msg, x ≠ .error (.panicked msg)

theorem bind_eq_ok {α β : Type} {x : Exec α} {f : α → Exec β} {b : β} :
    (x >>= f) = .ok b ↔ ∃ a, x = .ok a ∧ f a = .ok b := by
  cases x with
  | error e => simp [bind, Except.bind]
  | ok a => simp [bind, Except.bind]

@[simp]
theorem ok_bind {α β : Type} (a : α) (f : α → Exec β) : ((.ok a : Exec α) >>= f) = f a := rfl

@[simp]
theorem error_bind {α β : Type} (e : Fault) (f : α → Exec β) :
    ((.error e : Exec α) >>= f) = .error e := rfl

@[simp]
theorem pure_eq_ok {α : Type} (a : α) : (pure a : Exec α) = .ok a := rfl

@[simp]
theorem fail_bind {α β : Type} (kind : ErrorKind) (msg : String) (f : α → Exec β) :
    (fail kind msg >>= f) = fail kind msg := rfl

@[simp]
theorem fail_ne_ok {α : Type} (kind : ErrorKind) (msg : String) (a : α) :
    fail kind msg ≠ .ok a := by
  simp [fail]

@[simp]
theorem okOr_some {α : Type} (a : α) (kind : ErrorKind) (msg : String) :
    okOr (some a) kind msg = .ok a := rfl

@[simp]
theorem okOr_none {α : Type} (kind : ErrorKind) (msg : String) :
    okOr (none : Option α) kind msg = fail kind msg := rfl

theorem okOr_eq_ok {α : Type} {o : Option α} {kind : ErrorKind} {msg : String} {a : α} :
    okOr o kind msg = .ok a ↔ o = some a := by
  cases o <;> simp

theorem noPanic_ok {α : Type} (a : α) : NoPanic (.ok a : Exec α) := by simp [NoPanic]

theorem noPanic_fail {α : Type} (kind : ErrorKind) (msg : String) :
    NoPanic (fail kind msg : Exec α) := by simp [NoPanic, fail]

theorem noPanic_okOr {α : Type} (o : Option α) (kind : ErrorKind) (msg : String) :
    NoPanic (okOr o kind msg) := by
  cases o with
  | none => exact noPanic_fail _ _
  | some a => exact noPanic_ok a

theorem noPanic_ite {α : Type} (c : Prop) [Decidable c] (kind : ErrorKind) (msg : String) (a : α) :
    NoPanic (if c then fail kind msg else .ok a : Exec α) := by
  split_ifs
  · exact noPanic_fail kind msg
  · exact noPanic_ok a

theorem NoPanic.bind {α β : Type} {x : Exec α} {f : α → Exec β} (hx : NoPanic x)
    (hf : ∀ a, x = .ok a → NoPanic (f a)) : NoPanic (x >>= f) := by
  cases x with
  | error e => exact fun msg h => hx msg (by simpa using h)
  | ok a => exact hf a rfl

/-- What neither panics nor returns `Ok` returns `Err`. -/
theorem NoPanic.fails {α : Type} {x : Exec α} (h : NoPanic x) (hok : ∀ a, x ≠ .ok a) :
    ∃ e, x = .error (.err e) := by
  cases x with
  | ok a => exact absurd rfl (hok a)
  | error f =>
    cases f with
    | err e => exact ⟨e, rfl⟩
    | panicked msg => exact absurd rfl (h msg)

/-- `items.iter().try_for_each(f)`. -/
theorem forM_eq_ok {α : Type} {items : List α} {f : α → Exec Unit} :
    forM items f = .ok () ↔ ∀ a ∈ items, f a = .ok () := by
  induction items with
  | nil => simp
  | cons a items ih =>
    rw [List.forM_cons, bind_eq_ok, List.forall_mem_cons, ← ih]
    exact ⟨fun ⟨⟨⟩, ha, hrest⟩ => ⟨ha, hrest⟩, fun ⟨ha, hrest⟩ => ⟨(), ha, hrest⟩⟩

/-! ## Machine arithmetic -/

section Arithmetic

variable [Target]

def usizeMax : ℕ := 2 ^ Target.pointerWidth - 1

theorem le_usizeMax {n : ℕ} (h : n < 2 ^ 32) : n ≤ usizeMax := by
  have : 2 ^ 32 ≤ 2 ^ Target.pointerWidth := Nat.pow_le_pow_right (by decide) Target.pointerWidth_ge
  unfold usizeMax
  omega

/-- `debug_assert!`. -/
def debugAssert (c : Bool) (msg : String) : Exec Unit :=
  if Target.debugAssertions && !c then .error (.panicked msg) else .ok ()

@[simp]
theorem debugAssert_true (msg : String) : debugAssert true msg = .ok () := by
  simp [debugAssert]

/-- An unchecked `+` or `*` with mathematical result `n` on a type with largest value `max`. -/
def arith (max n : ℕ) : Exec ℕ :=
  if n ≤ max then .ok n
  else if Target.debugAssertions then .error (.panicked "attempt to compute with overflow")
  else .ok (n % (max + 1))

/-- An unchecked `a - b` on `usize`. -/
def usizeSub (a b : ℕ) : Exec ℕ :=
  if b ≤ a then .ok (a - b)
  else if Target.debugAssertions then .error (.panicked "attempt to subtract with overflow")
  else .ok (a + (usizeMax + 1) - b)

/-- `usize::checked_add`. -/
def checkedAdd (a b : ℕ) : Option ℕ := if a + b ≤ usizeMax then some (a + b) else none

theorem arith_of_le {max n : ℕ} (h : n ≤ max) : arith max n = .ok n := by
  simp [arith, h]

theorem usizeSub_of_le {a b : ℕ} (h : b ≤ a) : usizeSub a b = .ok (a - b) := by
  simp [usizeSub, h]

theorem checkedAdd_eq_some {a b c : ℕ} :
    checkedAdd a b = some c ↔ a + b = c ∧ a + b ≤ usizeMax := by
  unfold checkedAdd
  split_ifs with h <;> simp [h]

/-- The computation of a length `n` ends with `n`, or with an error if no `usize` holds it. -/
def Measures (len : Exec ℕ) (n : ℕ) : Prop :=
  if n ≤ usizeMax then len = .ok n else ∃ e, len = .error (.err e)

theorem Measures.eq_ok {len : Exec ℕ} {n : ℕ} (h : Measures len n) (hn : n < 2 ^ 32) :
    len = .ok n := by
  rwa [Measures, if_pos (le_usizeMax hn)] at h

theorem Measures.of_ok {len : Exec ℕ} {n m : ℕ} (h : Measures len n) (hok : len = .ok m) :
    m = n := by
  unfold Measures at h
  split_ifs at h with hn
  · exact Except.ok.inj (hok.symm.trans h)
  · obtain ⟨e, he⟩ := h
    rw [he] at hok
    cases hok

theorem measures_checkedAdd (a b : ℕ) (kind : ErrorKind) (msg : String) :
    Measures (okOr (checkedAdd a b) kind msg) (a + b) := by
  unfold Measures checkedAdd
  split_ifs
  · rfl
  · exact ⟨_, rfl⟩

theorem measures_ok {n : ℕ} (h : n < 2 ^ 32) : Measures (.ok n) n := by
  rw [Measures, if_pos (le_usizeMax h)]

/-- A limit below what every `usize` holds is kept by the computed length if by the length. -/
theorem Measures.too_long_iff {len : Exec ℕ} {n limit : ℕ} (h : Measures len n)
    (hlimit : limit < 2 ^ 32 - 1) : (∀ m, len = .ok m → limit < m) ↔ limit < n := by
  have hmax : 2 ^ 32 - 1 ≤ usizeMax := le_usizeMax (by decide)
  unfold Measures at h
  split_ifs at h with hn
  · rw [h]
    simp
  · obtain ⟨e, rfl⟩ := h
    apply iff_of_true (by simp)
    omega

/-- Once a part does not fit, the whole does not. -/
theorem Measures.bind {len : Exec ℕ} {f : ℕ → Exec ℕ} {n m : ℕ} (h : Measures len n)
    (hf : Measures (f n) m) (hle : n ≤ m) : Measures (len >>= f) m := by
  unfold Measures at h
  split_ifs at h with hn
  · rwa [h, ok_bind]
  · obtain ⟨e, he⟩ := h
    rw [Measures, if_neg (by omega), he, error_bind]
    exact ⟨e, rfl⟩

theorem checkedAdd_of_lt {a b : ℕ} (h : a + b < 2 ^ 32) : checkedAdd a b = some (a + b) :=
  checkedAdd_eq_some.2 ⟨rfl, le_usizeMax h⟩

end Arithmetic

/-! ## Slices -/

/-- `slice::split_at_checked`. -/
def splitAtChecked {α : Type} (bs : List α) (n : ℕ) : Option (List α × List α) :=
  if n ≤ bs.length then some (bs.take n, bs.drop n) else none

theorem splitAtChecked_eq_some {α : Type} {bs a b : List α} {n : ℕ} :
    splitAtChecked bs n = some (a, b) ↔ bs = a ++ b ∧ a.length = n := by
  unfold splitAtChecked
  split_ifs with h
  · simp only [Option.some.injEq, Prod.mk.injEq]
    constructor
    · rintro ⟨rfl, rfl⟩
      exact ⟨(List.take_append_drop n bs).symm, by simpa using h⟩
    · rintro ⟨rfl, rfl⟩
      simp
  · apply iff_of_false (by simp)
    rintro ⟨rfl, rfl⟩
    exact h (by simp)

/-- A 16-bit number in network byte order. -/
def beBytes (n : ℕ) : List UInt8 := [UInt8.ofNat (n / 256), UInt8.ofNat (n % 256)]

def fromBe (hi lo : UInt8) : ℕ := hi.toNat * 256 + lo.toNat

@[simp]
theorem length_beBytes (n : ℕ) : (beBytes n).length = 2 := rfl

theorem fromBe_lt (hi lo : UInt8) : fromBe hi lo < 2 ^ 16 := by
  have := hi.toNat_lt
  have := lo.toNat_lt
  unfold fromBe
  omega

theorem fromBe_beBytes {n : ℕ} (h : n < 2 ^ 16) :
    fromBe (UInt8.ofNat (n / 256)) (UInt8.ofNat (n % 256)) = n := by
  simp only [fromBe, UInt8.toNat_ofNat']
  omega

theorem beBytes_fromBe (hi lo : UInt8) : beBytes (fromBe hi lo) = [hi, lo] := by
  have h₁ := hi.toNat_lt
  have h₂ := lo.toNat_lt
  have e₁ : fromBe hi lo / 256 = hi.toNat := by
    unfold fromBe
    omega
  have e₂ : fromBe hi lo % 256 = lo.toNat := by
    unfold fromBe
    omega
  rw [beBytes, e₁, e₂, UInt8.ofNat_toNat, UInt8.ofNat_toNat]

/-! ## Decoders -/

/-- `Decode::consume`. -/
def consume {α : Type} (parse : List UInt8 → Exec (α × List UInt8)) (buf : List UInt8) :
    Exec α := do
  let (this, rest) ← parse buf
  if !rest.isEmpty then fail .invalid "remaining bytes in consumed packet" else .ok this

theorem consume_eq_ok {α : Type} {parse : List UInt8 → Exec (α × List UInt8)} {buf : List UInt8}
    {a : α} : consume parse buf = .ok a ↔ parse buf = .ok (a, []) := by
  unfold consume
  cases parse buf with
  | error e => simp
  | ok r =>
    obtain ⟨this, rest⟩ := r
    cases rest <;> simp

theorem consume_noPanic_iff {α : Type} {parse : List UInt8 → Exec (α × List UInt8)}
    {buf : List UInt8} : NoPanic (consume parse buf) ↔ NoPanic (parse buf) := by
  unfold consume
  cases parse buf with
  | error e => simp [NoPanic]
  | ok r =>
    obtain ⟨this, rest⟩ := r
    refine iff_of_true ?_ (noPanic_ok _)
    simp only [ok_bind]
    split_ifs <;> first | exact noPanic_ok _ | exact noPanic_fail _ _

/-- `if present { parse(buf).map(|(v, r)| (Some(v), r))? } else { (None, buf) }`. -/
def parseIf {α : Type} (present : Bool) (parse : List UInt8 → Exec (α × List UInt8))
    (buf : List UInt8) : Exec (Option α × List UInt8) :=
  if present then do
    let (v, r) ← parse buf
    .ok (some v, r)
  else .ok (none, buf)

theorem parseIf_noPanic {α : Type} (present : Bool)
    {parse : List UInt8 → Exec (α × List UInt8)} {buf : List UInt8} (h : NoPanic (parse buf)) :
    NoPanic (parseIf present parse buf) := by
  cases present with
  | false => exact noPanic_ok _
  | true => exact h.bind fun _ _ => noPanic_ok _

theorem parseIf_eq_ok {α : Type} {present : Bool} {parse : List UInt8 → Exec (α × List UInt8)}
    {buf rest : List UInt8} {o : Option α} :
    parseIf present parse buf = .ok (o, rest) ↔
      o.isSome = present ∧ (∀ v ∈ o, parse buf = .ok (v, rest)) ∧ (o = none → rest = buf) := by
  unfold parseIf
  cases present with
  | true =>
    cases o with
    | none => simp [bind_eq_ok]
    | some v => simp [bind_eq_ok]
  | false => cases o <;> simp [eq_comm]

/-- An optional part is parsed from its written form if it is there. -/
theorem parseIf_eq_ok_of {α : Type} {present : Bool} {parse : List UInt8 → Exec (α × List UInt8)}
    {wire : α → List UInt8} {Valid : α → Prop}
    (hparse : ∀ {buf rest v}, parse buf = .ok (v, rest) ↔ buf = wire v ++ rest ∧ Valid v)
    {buf rest : List UInt8} {o : Option α} :
    parseIf present parse buf = .ok (o, rest) ↔
      buf = o.elim [] wire ++ rest ∧ o.isSome = present ∧ ∀ v ∈ o, Valid v := by
  rw [parseIf_eq_ok]
  cases o with
  | none => simp [eq_comm, and_comm]
  | some v =>
    simp only [Option.mem_def, Option.some.injEq, forall_eq', hparse, Option.elim_some]
    simp [and_left_comm]

end Mcutt
