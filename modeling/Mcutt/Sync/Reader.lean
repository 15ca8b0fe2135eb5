import Mcutt.Fixed.Header
import Mcutt.Lib.Machine
import Mcutt.Lib.Schedule

/-!
# The buffered reader

`Reader` of `sync.rs`, over any inner reader: the buffer and its indices as the code moves them,
every slice and every subtraction checked.  An inner reader that will do a known thing is a
schedule (`Input`).
-/

namespace Mcutt

/-! ## Inner readers -/

/-- `std::io::Read`, as far as the crate uses it.  `readExact` also returns the bytes it has
written to the buffer by the time it fails. -/
class Read (R : Type) where
  read : ℕ → R → Except IoErrorKind (List UInt8) × R
  readExact : ℕ → R → List UInt8 × Except IoErrorKind Unit × R
  read_length : ∀ n r bytes r', read n r = (.ok bytes, r') → bytes.length ≤ n
  readExact_length : ∀ n r, (readExact n r).1.length ≤ n
  readExact_ok : ∀ n r, (readExact n r).2.1 = .ok () → (readExact n r).1.length = n

/-- What an inner reader will do. -/
abbrev Input := List (Schedule.Event UInt8 IoErrorKind)

/-- `ErrorKind::is_interrupted`, on which `read_exact` asks again. -/
def isInterrupted (kind : IoErrorKind) : Bool := kind == .interrupted

/-- How `read_exact` reports its end. -/
def exactResult : Except (Option IoErrorKind) Unit → Except IoErrorKind Unit
  | .ok () => .ok ()
  | .error (some kind) => .error kind
  | .error none => .error .unexpectedEof

theorem exactResult_eq_ok {r : Except (Option IoErrorKind) Unit} :
    exactResult r = .ok () ↔ r = .ok () := by
  rcases r with (_ | kind) | ⟨⟩ <;> simp [exactResult]

instance : Read Input where
  read := Schedule.read
  readExact n s :=
    let (got, r, s) := Schedule.readExact isInterrupted n s
    (got, exactResult r, s)
  read_length n s bytes s' h := (Schedule.payload_read h).2
  readExact_length n s := by
    simp only [(Schedule.readExact_eq isInterrupted n s).1]
    exact List.length_take_le _ _
  readExact_ok n s h := by
    have hle := (Schedule.readExact_eq isInterrupted n s).2.1 (exactResult_eq_ok.1 h)
    simp only [(Schedule.readExact_eq isInterrupted n s).1, List.length_take]
    omega

theorem readExact_input (n : ℕ) (s : Input) :
    Read.readExact n s = ((Schedule.readExact isInterrupted n s).1,
      exactResult (Schedule.readExact isInterrupted n s).2.1,
      (Schedule.readExact isInterrupted n s).2.2) := rfl

/-- `read_exact` fails with the error of a read, or with `UnexpectedEof` at the end. -/
theorem readExact_input_error {n : ℕ} {s inner : Input} {got : List UInt8} {kind : IoErrorKind}
    (h : Read.readExact n s = (got, .error kind, inner)) :
    ∃ r, Schedule.readExact isInterrupted n s = (got, .error r, inner) ∧
      (r = some kind ∨ r = none ∧ kind = .unexpectedEof) := by
  rw [readExact_input, Prod.mk.injEq, Prod.mk.injEq] at h
  obtain ⟨hgot, hkind, hinner⟩ := h
  rcases hr : (Schedule.readExact isInterrupted n s).2.1 with (_ | e) | ⟨⟩
  · rw [hr] at hkind
    exact ⟨none, Prod.ext hgot (Prod.ext hr hinner), .inr ⟨rfl, by simpa [exactResult, eq_comm]
      using hkind⟩⟩
  · rw [hr] at hkind
    exact ⟨some e, Prod.ext hgot (Prod.ext hr hinner), .inl (by simpa [exactResult] using hkind)⟩
  · rw [hr] at hkind
    cases hkind

/-! ## The code -/

structure Reader (R : Type) where
  buf : List UInt8
  pos : ℕ
  frame : Option ℕ
  filled : ℕ
  inner : R
  deriving DecidableEq, Repr

/-- A method of the reader: what it returns or how it fails, and the reader it leaves. -/
abbrev ReaderM (R : Type) := EStateM Fault (Reader R)

instance {σ : Type} : MonadLift Exec (EStateM Fault σ) where
  monadLift x s := match x with
    | .ok a => .ok a s
    | .error e => .error e s

/-- A panic ends the program; the caller of a method goes on after any other failure. -/
def isPanic {α : Type} : Exec α → Bool
  | .error (.panicked _) => true
  | _ => false

/-- `would_block`. -/
def wouldBlock (err : Error) : Bool := err.kind == .stdIo .wouldBlock

/-- The result of a call that is not tried again. -/
def settled {α : Type} : Exec α → Bool
  | .error (.err e) => !wouldBlock e
  | _ => true

/-- `&buf[start..stop]`. -/
def slice (buf : List UInt8) (start stop : ℕ) : Exec (List UInt8) :=
  if start ≤ stop ∧ stop ≤ buf.length then .ok ((buf.take stop).drop start)
  else .error (.panicked "range out of bounds")

/-- `buf.get_mut(start..stop)`, as the length of the window. -/
def getMut (buf : List UInt8) (start stop : ℕ) : Option ℕ :=
  if start ≤ stop ∧ stop ≤ buf.length then some (stop - start) else none

/-- The buffer after `bytes` were written at `start`. -/
def overwrite (buf : List UInt8) (start : ℕ) (bytes : List UInt8) : List UInt8 :=
  buf.take start ++ bytes ++ buf.drop (start + bytes.length)

namespace Reader

/-- `Reader::MIN`. -/
def MIN : ℕ := 1 + RemainingLength.maxBytes

variable {R : Type}

def withCapacity (reader : R) (capacity : ℕ) : Option (Reader R) :=
  if capacity < MIN then none
  else some ⟨List.replicate capacity 0, 0, none, 0, reader⟩

section

variable [Target]

def buff : ReaderM R (List UInt8) := do
  let self ← get
  slice self.buf self.pos self.filled

def backshift : ReaderM R Unit := do
  let self ← get
  let window ← slice self.buf self.pos self.filled
  let filled ← usizeSub self.filled self.pos
  set { self with buf := overwrite self.buf 0 window, filled, pos := 0 }

def consume : ReaderM R Unit := do
  let self ← get
  match self.frame with
  | some frame => do
    let stop ← arith usizeMax (self.pos + frame)
    set { self with frame := none, pos := min stop self.filled }
  | none => pure ()

variable [Read R]

def fillHead : ReaderM R Unit := do
  let self ← get
  let avail ← usizeSub self.filled self.pos
  let toRead ← usizeSub MIN avail
  let stop ← arith usizeMax (self.filled + toRead)
  let window ← okOr (getMut self.buf self.filled stop) .notEnoughSpace "for header"
  match Read.read window self.inner with
  | (.error kind, inner) => do
    set { self with inner }
    throw (.err ⟨.stdIo kind, "while reading"⟩)
  | (.ok bytes, inner) => do
    set { self with buf := overwrite self.buf self.filled bytes, inner }
    if bytes.length = 0 then throw (.err ⟨.stdIo .unexpectedEof, "while reading"⟩)
    else modify fun self => { self with filled := self.filled + bytes.length }

/-- The `loop` of `next_frame`; it ends before the fuel does (`nextFrameLoop_fuel`). -/
def nextFrameLoop : ℕ → ReaderM R ℕ
  | 0 => throw (.panicked "out of fuel")
  | fuel + 1 => do
    let buf ← buff
    match ← FixedHeader.nextFrame buf with
    | some frame => do
      modify fun self => { self with frame := some frame }
      pure frame
    | none => do
      fillHead
      nextFrameLoop fuel

/-- The `debug_assert!` of `next_frame`. -/
def assertDrained : ReaderM R Unit := do
  let self ← get
  if Target.debugAssertions then do
    let len ← usizeSub self.filled self.pos
    debugAssert (decide (len < MIN)) "(self.filled - self.pos) < Self::MIN"
  else pure ()

def nextFrame : ReaderM R ℕ := do
  assertDrained
  backshift
  nextFrameLoop (MIN + 1)

/-- The part of `read_frame` that reads from the inner reader. -/
def fillFrame (bytes : ℕ) : ReaderM R Unit := do
  let self ← get
  if self.filled < bytes then do
    let window ← slice self.buf self.filled bytes
    match Read.readExact window.length self.inner with
    | (got, .error kind, inner) => do
      set { self with buf := overwrite self.buf self.filled got, inner }
      throw (.err ⟨.stdIo kind, "while reading"⟩)
    | (got, .ok (), inner) =>
      set { self with buf := overwrite self.buf self.filled got, inner, filled := bytes }
  else pure ()

def readFrame (bytes : ℕ) : ReaderM R (List UInt8) := do
  let self ← get
  if self.buf.length < bytes then throw (.err ⟨.outOfRange, "payload is too big"⟩)
  else do
    fillFrame bytes
    buff

/-- The first half of `read`: the length of the current frame. -/
def currentFrame : ReaderM R ℕ := do
  let self ← get
  match self.frame with
  | none => nextFrame
  | some frame => pure frame

def read : ReaderM R (List UInt8) := do
  let frame ← currentFrame
  readFrame frame

end

end Reader

end Mcutt
