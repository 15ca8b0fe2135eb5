import Mcutt.Sync.Reader

/-!
# The reader without its buffer

What matters of a reader is how much its buffer holds, the bytes it has read and not consumed, the
frame it knows, and what its inner reader has yet to deliver (`View`).  The methods on these four
are what the code does to its buffer and its indices (`read_simulates`, `consume_simulates`), on
every inner reader and in every state in which the indices are in order (`Reader.Valid`); so no
slice of the code is out of range and none of its sums and differences overflows.
-/

namespace Mcutt

open Machine

variable {R α : Type}

/-- The bytes that were read and not consumed, `buf[pos..filled]`. -/
def Reader.pending (self : Reader R) : List UInt8 := (self.buf.take self.filled).drop self.pos

/-- A reader without its buffer. -/
structure View (R : Type) where
  capacity : ℕ
  pending : List UInt8
  frame : Option ℕ
  inner : R
  deriving DecidableEq, Repr

def Reader.view (self : Reader R) : View R :=
  ⟨self.buf.length, self.pending, self.frame, self.inner⟩

abbrev ViewM (R : Type) := EStateM Fault (View R)

namespace View

def consume : ViewM R Unit :=
  modify fun self => match self.frame with
    | some frame => { self with frame := none, pending := self.pending.drop frame }
    | none => self

theorem consume_inner (v : View R) : (final (consume v)).inner = v.inner ∧
    (final (consume v)).capacity = v.capacity := by
  obtain ⟨capacity, pending, frame, inner⟩ := v
  cases frame <;> exact ⟨rfl, rfl⟩

theorem consume_frame (v : View R) : (final (consume v)).frame = none := by
  obtain ⟨capacity, pending, frame, inner⟩ := v
  cases frame <;> rfl

section

variable [Target] [Read R]

def fillHead : ViewM R Unit := do
  let self ← get
  match Read.read (Reader.MIN - self.pending.length) self.inner with
  | (.error kind, inner) => do
    set { self with inner }
    throw (.err ⟨.stdIo kind, "while reading"⟩)
  | (.ok bytes, inner) => do
    set { self with pending := self.pending ++ bytes, inner }
    if bytes = [] then throw (.err ⟨.stdIo .unexpectedEof, "while reading"⟩) else pure ()

def nextFrameLoop : ℕ → ViewM R ℕ
  | 0 => throw (.panicked "out of fuel")
  | fuel + 1 => do
    let self ← get
    match ← FixedHeader.nextFrame self.pending with
    | some frame => do
      modify fun self => { self with frame := some frame }
      pure frame
    | none => do
      fillHead
      nextFrameLoop fuel

def nextFrame : ViewM R ℕ := do
  let self ← get
  debugAssert (decide (self.pending.length < Reader.MIN)) "(self.filled - self.pos) < Self::MIN"
  nextFrameLoop (Reader.MIN + 1)

def fillFrame (bytes : ℕ) : ViewM R Unit := do
  let self ← get
  if self.pending.length < bytes then
    match Read.readExact (bytes - self.pending.length) self.inner with
    | (_, .error kind, inner) => do
      set { self with inner }
      throw (.err ⟨.stdIo kind, "while reading"⟩)
    | (got, .ok (), inner) => set { self with pending := self.pending ++ got, inner }
  else pure ()

def readFrame (bytes : ℕ) : ViewM R (List UInt8) := do
  let self ← get
  if self.capacity < bytes then throw (.err ⟨.outOfRange, "payload is too big"⟩)
  else do
    fillFrame bytes
    let self ← get
    pure self.pending

def currentFrame : ViewM R ℕ := do
  let self ← get
  match self.frame with
  | none => nextFrame
  | some frame => pure frame

def read : ViewM R (List UInt8) := do
  let frame ← currentFrame
  readFrame frame

end

end View

/-! ## Writing to the buffer -/

theorem slice_of_le {buf : List UInt8} {start stop : ℕ} (h : start ≤ stop)
    (hstop : stop ≤ buf.length) : slice buf start stop = .ok ((buf.take stop).drop start) := by
  rw [slice, if_pos ⟨h, hstop⟩]

theorem take_overwrite {buf : List UInt8} {start : ℕ} (h : start ≤ buf.length)
    (bytes : List UInt8) :
    (overwrite buf start bytes).take start = buf.take start := by
  rw [overwrite, List.append_assoc, List.take_append_of_le_length (by simp [h])]
  simp

theorem take_overwrite_add {buf : List UInt8} {start : ℕ} (h : start ≤ buf.length)
    (bytes : List UInt8) :
    (overwrite buf start bytes).take (start + bytes.length) = buf.take start ++ bytes := by
  have hlen : (buf.take start ++ bytes).length = start + bytes.length := by simp [h]
  rw [overwrite, ← hlen, List.take_left']
  rfl

@[simp]
theorem overwrite_nil (buf : List UInt8) (start : ℕ) : overwrite buf start [] = buf := by
  simp [overwrite]

theorem length_overwrite {buf bytes : List UInt8} {start : ℕ}
    (h : start + bytes.length ≤ buf.length) :
    (overwrite buf start bytes).length = buf.length := by
  simp only [overwrite, List.length_append, List.length_take, List.length_drop]
  omega

@[simp]
theorem lift_ok {α σ : Type} (a : α) (s : σ) :
    (liftM (Except.ok a : Exec α) : EStateM Fault σ α) s = .ok a s := rfl

/-! ## What the code does to its buffer -/

section

variable [Target]

/-- The indices are in order, and a known frame is the one in front of the buffer. -/
structure Reader.Valid (r : Reader R) : Prop where
  min_le : MIN ≤ r.buf.length
  pos_le : r.pos ≤ r.filled
  filled_le : r.filled ≤ r.buf.length
  known : ∀ n ∈ r.frame, r.pos = 0 ∧ FixedHeader.nextFrame r.pending = .ok (some n)

/-- A valid reader and what it looks like. -/
def Shows (r : Reader R) (v : View R) : Prop := r.Valid ∧ r.view = v

/-- So, and nothing is in front of the pending bytes. -/
def ShowsFront (r : Reader R) (v : View R) : Prop := Shows r v ∧ r.pos = 0

section

variable {buf pending : List UInt8} {pos filled : ℕ} {frame : Option ℕ} {inner : R}

theorem ShowsFront.mk (hmin : Reader.MIN ≤ buf.length) (hle : filled ≤ buf.length)
    (htake : buf.take filled = pending)
    (known : ∀ n ∈ frame, FixedHeader.nextFrame pending = .ok (some n)) :
    ShowsFront ⟨buf, 0, frame, filled, inner⟩ ⟨buf.length, pending, frame, inner⟩ := by
  subst htake
  exact ⟨⟨⟨hmin, Nat.zero_le _, hle, fun n hn => ⟨rfl, known n hn⟩⟩, rfl⟩, rfl⟩

theorem ShowsFront.elim {v : View R} (h : ShowsFront ⟨buf, pos, frame, filled, inner⟩ v) :
    pos = 0 ∧ v = ⟨buf.length, buf.take filled, frame, inner⟩ ∧ Reader.MIN ≤ buf.length ∧
      filled ≤ buf.length ∧
      ∀ n ∈ frame, FixedHeader.nextFrame (buf.take filled) = .ok (some n) := by
  obtain ⟨⟨valid, hview⟩, hpos⟩ := h
  obtain rfl : pos = 0 := hpos
  exact ⟨rfl, hview.symm, valid.min_le, valid.filled_le, fun n hn => (valid.known n hn).2⟩

end

theorem Reader.Valid.length_pending {r : Reader R} (valid : r.Valid) :
    r.pending.length = r.filled - r.pos := by
  have := valid.filled_le
  simp only [pending, List.length_drop, List.length_take]
  omega

theorem ShowsFront.shows {r : Reader R} {v : View R} (h : ShowsFront r v) : Shows r v := h.1

/-- No frame is longer than a `usize`. -/
theorem le_usizeMax_of_nextFrame {b : List UInt8} {n : ℕ}
    (h : FixedHeader.nextFrame b = .ok (some n)) : n ≤ usizeMax := by
  obtain ⟨t, r, rest, -, -, hle, rfl⟩ := FixedHeader.nextFrame_eq_some.1 h
  have hlt := Varint.value_lt r
  have hpow : 128 ^ r.length ≤ 128 ^ 4 := Nat.pow_le_pow_right (by decide) hle
  apply le_usizeMax
  omega

theorem consume_simulates : Simulates (Shows (R := R)) Shows Reader.consume View.consume := by
  rintro ⟨buf, pos, frame, filled, inner⟩ v ⟨valid, rfl⟩
  cases frame with
  | none => exact .ok _ ⟨valid, rfl⟩
  | some n =>
    obtain ⟨hpos, hn⟩ := valid.known n rfl
    obtain rfl : pos = 0 := hpos
    have hrun : Reader.consume ⟨buf, 0, some n, filled, inner⟩ =
        .ok ⟨⟩ ⟨buf, min n filled, none, filled, inner⟩ := by
      simp [Reader.consume, arith_of_le (le_usizeMax_of_nextFrame hn)]
    have hpending : (buf.take filled).drop (min n filled) = (buf.take filled).drop n := by
      rcases le_total n filled with h | h
      · rw [min_eq_left h]
      · rw [min_eq_right h, List.drop_eq_nil_of_le (by simp), List.drop_eq_nil_of_le]
        exact (List.length_take_le _ _).trans h
    have hview : View.consume (Reader.view ⟨buf, 0, some n, filled, inner⟩) =
        .ok ⟨⟩ ⟨buf.length, (buf.take filled).drop n, none, inner⟩ := rfl
    rw [hrun, hview, ← hpending]
    exact .ok _ ⟨⟨valid.min_le, Nat.min_le_right _ _, valid.filled_le, by simp⟩, rfl⟩

theorem Reader.Valid.consume {r : Reader R} (valid : r.Valid) :
    (final (Reader.consume r)).Valid ∧
      (final (Reader.consume r)).view = final (View.consume r.view) :=
  (consume_simulates r r.view ⟨valid, rfl⟩).outcome_eq.2

theorem Reader.Valid.consume_eq {r : Reader R} (valid : r.Valid) :
    Reader.consume r = .ok ⟨⟩ (final (Reader.consume r)) := by
  rcases (consume_simulates r r.view ⟨valid, rfl⟩).cases with ⟨⟨⟩, r', v', hr, -, -⟩ |
    ⟨e, r', v', -, hv, -⟩
  · rw [hr, final_ok]
  · simp [View.consume] at hv

theorem Reader.Valid.buff_eq {r : Reader R} (valid : r.Valid) :
    Reader.buff r = .ok r.pending r := by
  simp only [Reader.buff, bind_apply, get_apply, slice_of_le valid.pos_le valid.filled_le, lift_ok,
    Reader.pending]

theorem Reader.consume_of_none {r : Reader R} (hf : r.frame = none) :
    Reader.consume r = .ok ⟨⟩ r := by
  simp only [Reader.consume, bind_apply, get_apply, hf, pure_apply]

theorem Reader.Valid.pos_consume {r : Reader R} (valid : r.Valid) {n : ℕ} (hf : r.frame = some n) :
    r.pos = 0 ∧ (final (Reader.consume r)).pos = min n r.pending.length := by
  obtain ⟨buf, pos, frame, filled, inner⟩ := r
  obtain rfl : frame = some n := hf
  obtain ⟨hpos, hn⟩ := valid.known n rfl
  obtain rfl : pos = 0 := hpos
  have hfilled : filled ≤ buf.length := valid.filled_le
  simp [Reader.consume, Reader.pending, arith_of_le (le_usizeMax_of_nextFrame hn), hfilled]

/-- What `consume` adds to `pos` it takes off the pending bytes. -/
theorem Reader.Valid.pending_consume {r : Reader R} (valid : r.Valid) :
    (final (Reader.consume r)).pos - r.pos ≤ r.pending.length ∧
      (final (Reader.consume r)).pending =
        r.pending.drop ((final (Reader.consume r)).pos - r.pos) := by
  obtain ⟨buf, pos, frame, filled, inner⟩ := r
  cases frame with
  | none =>
    have hpos : (final (Reader.consume ⟨buf, pos, none, filled, inner⟩)).pos - pos = 0 :=
      Nat.sub_self pos
    rw [hpos, List.drop_zero]
    exact ⟨Nat.zero_le _, rfl⟩
  | some n =>
    obtain ⟨hpos, hn⟩ := valid.known n rfl
    obtain rfl : pos = 0 := hpos
    have hfilled : filled ≤ buf.length := valid.filled_le
    simp [Reader.consume, Reader.pending, arith_of_le (le_usizeMax_of_nextFrame hn), hfilled]

/-- The bytes that are left move to the front. -/
theorem backshift_simulates : Simulates (Shows (R := R)) ShowsFront Reader.backshift
    (pure ⟨⟩) := by
  rintro ⟨buf, pos, frame, filled, inner⟩ v ⟨valid, rfl⟩
  have hpos : pos ≤ filled := valid.pos_le
  have hfilled : filled ≤ buf.length := valid.filled_le
  set window := (buf.take filled).drop pos with hwindow
  have hlen : window.length = filled - pos := by
    simp only [hwindow, List.length_drop, List.length_take]
    omega
  have hrun : Reader.backshift ⟨buf, pos, frame, filled, inner⟩ =
      .ok ⟨⟩ ⟨overwrite buf 0 window, 0, frame, filled - pos, inner⟩ := by
    simp [Reader.backshift, slice_of_le hpos hfilled, usizeSub_of_le hpos, hwindow]
  have hbuf : (overwrite buf 0 window).length = buf.length := length_overwrite (by omega)
  have htake : (overwrite buf 0 window).take (filled - pos) = window := by
    have := take_overwrite_add (Nat.zero_le buf.length) window
    rwa [hlen, Nat.zero_add, List.take_zero, List.nil_append] at this
  have hfront : ShowsFront ⟨overwrite buf 0 window, 0, frame, filled - pos, inner⟩
      ⟨(overwrite buf 0 window).length, window, frame, inner⟩ :=
    .mk (hbuf ▸ valid.min_le) (by omega) htake fun n hn => (valid.known n hn).2
  rw [hrun]
  rw [hbuf] at hfront
  exact .ok _ hfront

/-- Bytes written behind the pending ones become pending. -/
theorem ShowsFront.append {buf : List UInt8} {frame : Option ℕ} {filled : ℕ} {inner : R}
    {v : View R} (h : ShowsFront ⟨buf, 0, frame, filled, inner⟩ v) (bytes : List UInt8)
    (hle : filled + bytes.length ≤ buf.length) (inner' : R) :
    ShowsFront ⟨overwrite buf filled bytes, 0, frame, filled + bytes.length, inner'⟩
      { v with pending := v.pending ++ bytes, inner := inner' } := by
  obtain ⟨-, rfl, hmin, hfilled, known⟩ := h.elim
  have hbuf := length_overwrite hle
  rw [← hbuf] at hle hmin
  simp only [← hbuf]
  exact .mk hmin hle (take_overwrite_add hfilled bytes) fun n hn =>
    FixedHeader.nextFrame_append (known n hn) bytes

/-- Bytes written behind the pending ones and not counted change nothing. -/
theorem ShowsFront.garble {buf : List UInt8} {frame : Option ℕ} {filled : ℕ} {inner : R}
    {v : View R} (h : ShowsFront ⟨buf, 0, frame, filled, inner⟩ v) (bytes : List UInt8)
    (hle : filled + bytes.length ≤ buf.length) (inner' : R) :
    ShowsFront ⟨overwrite buf filled bytes, 0, frame, filled, inner'⟩
      { v with inner := inner' } := by
  obtain ⟨-, rfl, hmin, hfilled, known⟩ := h.elim
  have htake := take_overwrite hfilled bytes
  have hbuf := length_overwrite hle
  rw [← hbuf] at hmin
  simp only [← hbuf]
  exact .mk hmin (by omega) htake known

theorem buff_simulates : Simulates (ShowsFront (R := R)) ShowsFront Reader.buff
    (do
      let self ← get
      pure self.pending) := by
  intro r v h
  obtain ⟨⟨valid, rfl⟩, -⟩ := id h
  simp only [Reader.buff, bind_apply, get_apply, slice_of_le valid.pos_le valid.filled_le]
  exact .ok _ h

theorem assertDrained_simulates : Simulates (Shows (R := R)) Shows Reader.assertDrained
    (do
      let self ← get
      debugAssert (decide (self.pending.length < Reader.MIN))
        "(self.filled - self.pos) < Self::MIN") := by
  rintro r v ⟨valid, rfl⟩
  have hlen : r.view.pending.length = r.filled - r.pos := valid.length_pending
  simp only [Reader.assertDrained, bind_apply, get_apply, debugAssert, hlen,
    usizeSub_of_le valid.pos_le]
  by_cases hd : Target.debugAssertions = true
  · by_cases hlt : r.filled - r.pos < Reader.MIN
    · simp only [hd, hlt, if_true, bind_apply, lift_ok, decide_true]
      exact .ok _ ⟨valid, rfl⟩
    · simp only [hd, hlt, if_true, bind_apply, lift_ok, decide_false]
      exact .error _ ⟨valid, rfl⟩
  · simp only [hd]
    exact .ok _ ⟨valid, rfl⟩

section

variable [Read R]

theorem fillHead_agree {r : Reader R} {v : View R} (h : ShowsFront r v)
    (hlen : v.pending.length < Reader.MIN) :
    Agree ShowsFront ShowsFront (Reader.fillHead r) (View.fillHead v) := by
  obtain ⟨buf, pos, frame, filled, inner⟩ := r
  obtain ⟨rfl, rfl, hmin, hfilled, -⟩ := h.elim
  have htake : (buf.take filled).length = filled := by simp [hfilled]
  simp only [htake] at hlen
  have hstop : filled + (Reader.MIN - filled) = Reader.MIN := by omega
  have hwindow : getMut buf filled Reader.MIN = some (Reader.MIN - filled) := by
    rw [getMut, if_pos ⟨by omega, hmin⟩]
  have hmax : Reader.MIN ≤ usizeMax := le_usizeMax (by decide)
  simp only [Reader.fillHead, View.fillHead, bind_apply, get_apply, Nat.sub_zero, htake,
    usizeSub_of_le (Nat.zero_le _), usizeSub_of_le (by omega : filled ≤ Reader.MIN), hstop,
    arith_of_le hmax, hwindow, okOr_some, lift_ok]
  rcases hread : Read.read (Reader.MIN - filled) inner with ⟨kind | bytes, inner'⟩
  · have hfail := h.garble [] (by simpa using hfilled) inner'
    rw [overwrite_nil] at hfail
    exact .error _ hfail
  · have hbytes := Read.read_length _ _ _ _ hread
    have happend := h.append bytes (by omega) inner'
    by_cases hnil : bytes = []
    · subst hnil
      exact .error _ happend
    · have hne : bytes.length ≠ 0 := by simpa using hnil
      simp only [if_neg hnil, if_neg hne]
      exact .ok _ happend

theorem nextFrameLoop_simulates (fuel : ℕ) : Simulates (ShowsFront (R := R)) ShowsFront
    (Reader.nextFrameLoop fuel) (View.nextFrameLoop fuel) := by
  induction fuel with
  | zero => exact fun _ _ h => .error _ h
  | succ fuel ih =>
    intro r v h
    obtain ⟨buf, pos, frame, filled, inner⟩ := r
    obtain ⟨rfl, rfl, hmin, hfilled, -⟩ := id h.elim
    have hbuff : Reader.buff ⟨buf, 0, frame, filled, inner⟩ =
        .ok (buf.take filled) ⟨buf, 0, frame, filled, inner⟩ := by
      simp [Reader.buff, slice_of_le (Nat.zero_le filled) hfilled]
    simp only [Reader.nextFrameLoop, View.nextFrameLoop, bind_apply, get_apply, hbuff]
    rcases hn : FixedHeader.nextFrame (buf.take filled) with e | _ | n
    · exact .error _ h
    · have hlen := FixedHeader.length_lt_of_nextFrame_none hn
      exact (fillHead_agree h hlen).bind fun _ r v h => ih r v h
    · exact .ok _ (.mk hmin hfilled rfl (by rintro _ ⟨⟩; exact hn))

theorem nextFrame_simulates : Simulates (Shows (R := R)) ShowsFront Reader.nextFrame
    View.nextFrame := by
  have hloop : Simulates (Shows (R := R)) ShowsFront
      (do Reader.backshift; Reader.nextFrameLoop (Reader.MIN + 1))
      (do pure ⟨⟩; View.nextFrameLoop (Reader.MIN + 1)) :=
    backshift_simulates.bind (fun _ _ h => h.shows) fun _ => nextFrameLoop_simulates _
  exact assertDrained_simulates.bind (fun _ _ h => h) fun _ => hloop

theorem currentFrame_simulates : Simulates (Shows (R := R)) ShowsFront Reader.currentFrame
    View.currentFrame := by
  rintro r v ⟨valid, rfl⟩
  cases hf : r.frame with
  | none =>
    have := nextFrame_simulates r r.view ⟨valid, rfl⟩
    simpa [Reader.currentFrame, View.currentFrame, Reader.view, hf] using this
  | some n =>
    have hview : r.view.frame = some n := hf
    simp only [Reader.currentFrame, View.currentFrame, bind_apply, get_apply, hf, hview, pure_apply]
    exact .ok _ ⟨⟨valid, rfl⟩, (valid.known n hf).1⟩

theorem fillFrame_agree {r : Reader R} {v : View R} (h : ShowsFront r v) {bytes : ℕ}
    (hbytes : bytes ≤ v.capacity) :
    Agree ShowsFront ShowsFront (Reader.fillFrame bytes r) (View.fillFrame bytes v) := by
  obtain ⟨buf, pos, frame, filled, inner⟩ := r
  obtain ⟨rfl, rfl, -, hfilled, -⟩ := id h.elim
  replace hbytes : bytes ≤ buf.length := hbytes
  have htake : (buf.take filled).length = filled := by simp [hfilled]
  simp only [Reader.fillFrame, View.fillFrame, bind_apply, get_apply, htake]
  by_cases hfull : filled < bytes
  · have hwindow : ((buf.take bytes).drop filled).length = bytes - filled := by
      simp [hbytes]
    have hlen := Read.readExact_length (bytes - filled) inner
    have hok := Read.readExact_ok (bytes - filled) inner
    simp only [if_pos hfull, bind_apply, slice_of_le hfull.le hbytes, lift_ok, hwindow]
    rcases hread : Read.readExact (bytes - filled) inner with ⟨got, kind | ⟨⟩, inner'⟩
    · simp only [hread] at hlen
      exact .error _ (h.garble got (by omega) inner')
    · simp only [hread, forall_const] at hlen hok
      have happend := h.append got (by omega) inner'
      rw [show filled + got.length = bytes by omega] at happend
      exact .ok _ happend
  · simp only [if_neg hfull]
    exact .ok _ h

theorem readFrame_simulates (bytes : ℕ) : Simulates (ShowsFront (R := R)) ShowsFront
    (Reader.readFrame bytes) (View.readFrame bytes) := by
  intro r v h
  have hcap : r.buf.length = v.capacity := congrArg View.capacity h.shows.2
  simp only [Reader.readFrame, View.readFrame, bind_apply, get_apply, hcap]
  by_cases hbig : v.capacity < bytes
  · simp only [if_pos hbig]
    exact .error _ h
  · simp only [if_neg hbig]
    exact (fillFrame_agree h (not_lt.1 hbig)).bind fun _ => buff_simulates

/-- The code of `read` does to its buffer what `View.read` does to the pending bytes. -/
theorem read_simulates : Simulates (Shows (R := R)) Shows Reader.read View.read :=
  (currentFrame_simulates.bind (fun _ _ h => h.shows) readFrame_simulates).weaken
    fun _ _ h => h.shows

theorem Reader.Valid.read {r : Reader R} (valid : r.Valid) :
    outcome (Reader.read r) = outcome (View.read r.view) ∧ (final (Reader.read r)).Valid ∧
      (final (Reader.read r)).view = final (View.read r.view) :=
  (read_simulates r r.view ⟨valid, rfl⟩).outcome_eq

end

end

end Mcutt
