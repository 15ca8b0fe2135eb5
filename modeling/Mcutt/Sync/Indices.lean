import Mcutt.Sync.Rounds

/-!
# The indices of the reader

The reader without its `debug_assert!`, called in any order and after any error, on an inner
reader that keeps a record of what it is asked (`Recorder`) and does not notice
(`Recorder.results_eq`).  The indices stay in order, nothing underflows and no slice is out of
range, the window for a header is always there, and no request is empty
(`Reader.indices_sound`).
-/

namespace Mcutt

open Machine

/-! ## Recording the requests -/

/-- A request to an inner reader, with its answer. -/
inductive Request where
  | read (size : ℕ) (answer : Except IoErrorKind (List UInt8))
  | readExact (size : ℕ) (answer : Except IoErrorKind Unit)
  deriving DecidableEq

namespace Request

def size : Request → ℕ
  | read size _ => size
  | readExact size _ => size

/-- The answers that are reported as `UnexpectedEof`. -/
def AtEnd : Request → Prop
  | read _ answer => answer = .ok [] ∨ answer = .error .unexpectedEof
  | readExact _ answer => answer = .error .unexpectedEof

end Request

/-- An inner reader with a record of what it was asked. -/
structure Recorder (R : Type) where
  inner : R
  requests : List Request
  deriving DecidableEq

variable {R : Type}

instance [Read R] : Read (Recorder R) where
  read n r := ((Read.read n r.inner).1,
    ⟨(Read.read n r.inner).2, r.requests ++ [.read n (Read.read n r.inner).1]⟩)
  readExact n r := ((Read.readExact n r.inner).1, (Read.readExact n r.inner).2.1,
    ⟨(Read.readExact n r.inner).2.2,
      r.requests ++ [.readExact n (Read.readExact n r.inner).2.1]⟩)
  read_length n r bytes r' h := by
    have hanswer : (Read.read n r.inner).1 = .ok bytes := congrArg Prod.fst h
    exact Read.read_length n r.inner bytes _ (Prod.ext hanswer rfl)
  readExact_length n r := Read.readExact_length n r.inner
  readExact_ok n r h := Read.readExact_ok n r.inner h

theorem Recorder.read_eq [Read R] (n : ℕ) (r : Recorder R) :
    Read.read n r = ((Read.read n r.inner).1,
      ⟨(Read.read n r.inner).2, r.requests ++ [.read n (Read.read n r.inner).1]⟩) := rfl

theorem Recorder.readExact_eq [Read R] (n : ℕ) (r : Recorder R) :
    Read.readExact n r = ((Read.readExact n r.inner).1, (Read.readExact n r.inner).2.1,
      ⟨(Read.readExact n r.inner).2.2,
        r.requests ++ [.readExact n (Read.readExact n r.inner).2.1]⟩) := rfl

/-- A request is recorded with its answer. -/
theorem Recorder.requests_of_read [Read R] {n : ℕ} {r r' : Recorder R}
    {answer : Except IoErrorKind (List UInt8)} (h : Read.read n r = (answer, r')) :
    r'.requests = r.requests ++ [.read n answer] := by
  rw [read_eq, Prod.mk.injEq] at h
  obtain ⟨rfl, rfl⟩ := h
  rfl

theorem Recorder.requests_of_readExact [Read R] {n : ℕ} {r r' : Recorder R} {got : List UInt8}
    {answer : Except IoErrorKind Unit} (h : Read.readExact n r = (got, answer, r')) :
    r'.requests = r.requests ++ [.readExact n answer] := by
  rw [readExact_eq, Prod.mk.injEq, Prod.mk.injEq] at h
  obtain ⟨rfl, rfl, rfl⟩ := h
  rfl

/-! ## Calls -/

section

variable [Target] [Read R]

namespace Reader

/-- `currentFrame` without the `debug_assert!` of `next_frame`. -/
def currentFrameUnasserted : ReaderM R ℕ := do
  let self ← get
  match self.frame with
  | none => do
    backshift
    nextFrameLoop (MIN + 1)
  | some frame => pure frame

/-- `read` without the `debug_assert!` of `next_frame`. -/
def readUnasserted : ReaderM R (List UInt8) := do
  let frame ← currentFrameUnasserted
  readFrame frame

theorem read_eq_readUnasserted (h : Target.debugAssertions = false) :
    (read : ReaderM R (List UInt8)) = readUnasserted := by
  have hassert : (assertDrained : ReaderM R Unit) = pure ⟨⟩ := by
    funext r
    simp only [assertDrained, h, bind_apply, get_apply, Bool.false_eq_true, if_false]
  have hnext : (nextFrame : ReaderM R ℕ) = (do backshift; nextFrameLoop (MIN + 1)) := by
    rw [nextFrame, hassert]
    rfl
  have hcurrent : (currentFrame : ReaderM R ℕ) = currentFrameUnasserted := by
    funext r
    cases hf : r.frame with
    | none =>
      simp only [currentFrame, currentFrameUnasserted, bind_apply, get_apply, hf, hnext]
    | some n =>
      simp only [currentFrame, currentFrameUnasserted, bind_apply, get_apply, hf]
  rw [read, readUnasserted, hcurrent]

end Reader

/-- The two methods of a reader that its owner calls. -/
inductive ReaderCall where
  | read
  | consume
  deriving DecidableEq, Repr

def Reader.call : ReaderCall → ReaderM R (Option (List UInt8))
  | .read => do
    let slice ← readUnasserted
    pure (some slice)
  | .consume => do
    consume
    pure none

namespace View

def currentFrameUnasserted : ViewM R ℕ := do
  let self ← get
  match self.frame with
  | none => nextFrameLoop (Reader.MIN + 1)
  | some frame => pure frame

def readUnasserted : ViewM R (List UInt8) := do
  let frame ← currentFrameUnasserted
  readFrame frame

def call : ReaderCall → ViewM R (Option (List UInt8))
  | .read => do
    let slice ← readUnasserted
    pure (some slice)
  | .consume => do
    consume
    pure none

end View

theorem currentFrameUnasserted_simulates : Simulates (Shows (R := R)) ShowsFront
    Reader.currentFrameUnasserted View.currentFrameUnasserted := by
  rintro r v ⟨valid, rfl⟩
  cases hf : r.frame with
  | none =>
    have hloop : Simulates (Shows (R := R)) ShowsFront
        (do Reader.backshift; Reader.nextFrameLoop (Reader.MIN + 1))
        (do pure ⟨⟩; View.nextFrameLoop (Reader.MIN + 1)) :=
      backshift_simulates.bind (fun _ _ h => h.shows) fun _ => nextFrameLoop_simulates _
    have := hloop r r.view ⟨valid, rfl⟩
    simpa [Reader.currentFrameUnasserted, View.currentFrameUnasserted, Reader.view, hf] using this
  | some n =>
    have hview : r.view.frame = some n := hf
    simp only [Reader.currentFrameUnasserted, View.currentFrameUnasserted, bind_apply, get_apply,
      hf, hview, pure_apply]
    exact .ok _ ⟨⟨valid, rfl⟩, (valid.known n hf).1⟩

theorem call_simulates (c : ReaderCall) : Simulates (Shows (R := R)) Shows (Reader.call c)
    (View.call c) := by
  cases c with
  | read =>
    have hread : Simulates (Shows (R := R)) Shows Reader.readUnasserted View.readUnasserted :=
      (currentFrameUnasserted_simulates.bind (fun _ _ h => h.shows) readFrame_simulates).weaken
        fun _ _ h => h.shows
    exact hread.map some
  | consume => exact consume_simulates.map fun _ => none

end

/-! ## What a call does -/

namespace View

/-- Between `v` and `v'` the requests `qs` were made, none of them empty. -/
def Asked (v v' : View (Recorder R)) (qs : List Request) : Prop :=
  v'.inner.requests = v.inner.requests ++ qs ∧ ∀ q ∈ qs, 1 ≤ q.size

theorem Asked.refl {v v' : View (Recorder R)} (h : v'.inner = v.inner) : Asked v v' [] :=
  ⟨by rw [h, List.append_nil], by simp⟩

theorem Asked.trans {v₁ v₂ v₃ : View (Recorder R)} {qs qs' : List Request}
    (h : Asked v₁ v₂ qs) (h' : Asked v₂ v₃ qs') : Asked v₁ v₃ (qs ++ qs') := by
  refine ⟨by rw [h'.1, h.1, List.append_assoc], fun q hq => ?_⟩
  rcases List.mem_append.1 hq with hq | hq
  · exact h.2 q hq
  · exact h'.2 q hq

theorem Asked.single {v v' : View (Recorder R)} {q : Request}
    (h : v'.inner.requests = v.inner.requests ++ [q]) (hq : 1 ≤ q.size) : Asked v v' [q] :=
  ⟨h, by simpa using hq⟩

/-- A program that ended without a panic and without running out of room, having made no empty
request; it reports `UnexpectedEof` after an answer that says so. -/
structure Sound {α : Type} (v : View (Recorder R))
    (r : EStateM.Result Fault (View (Recorder R)) α) : Prop where
  noPanic : NoPanic (outcome r)
  roomy : ∀ msg, outcome r ≠ fail .notEnoughSpace msg
  asked : ∃ qs, Asked v (final r) qs ∧
    (outcome r = .error (ioFault .unexpectedEof) → ∃ q, qs.getLast? = some q ∧ q.AtEnd)

variable {α β : Type}

theorem Sound.ok {v v' : View (Recorder R)} (a : α) (h : v'.inner = v.inner) :
    Sound v (.ok a v') :=
  ⟨noPanic_ok a, fun msg => (fail_ne_ok _ msg a).symm, [], .refl h, by simp⟩

/-- An error of the inner reader is reported after the answer it came with. -/
theorem Sound.io {v v' : View (Recorder R)} {kind : IoErrorKind} {q : Request}
    (h : Asked v v' [q]) (hend : kind = .unexpectedEof → q.AtEnd) :
    Sound v (.error (ioFault kind) v' : EStateM.Result Fault (View (Recorder R)) α) := by
  refine ⟨by simp [NoPanic, ioFault], by simp [fail, ioFault], [q], h, fun hout => ⟨q, rfl, ?_⟩⟩
  exact hend (by simpa [ioFault] using hout)

theorem Sound.after {v₁ v₂ : View (Recorder R)} {qs : List Request}
    {r : EStateM.Result Fault (View (Recorder R)) α} (h : Asked v₁ v₂ qs) (hr : Sound v₂ r) :
    Sound v₁ r := by
  obtain ⟨qs', hasked, heof⟩ := hr.asked
  refine ⟨hr.noPanic, hr.roomy, qs ++ qs', h.trans hasked, fun hout => ?_⟩
  obtain ⟨q, hq, hend⟩ := heof hout
  exact ⟨q, by rw [List.getLast?_append, hq]; rfl, hend⟩

/-- How a program failed does not depend on what it would have returned. -/
theorem Sound.of_error {v v' : View (Recorder R)} {e : Fault}
    (h : Sound v (.error e v' : EStateM.Result Fault (View (Recorder R)) α)) :
    Sound v (.error e v' : EStateM.Result Fault (View (Recorder R)) β) := by
  obtain ⟨qs, hasked, heof⟩ := h.asked
  exact ⟨fun msg hp => h.noPanic msg (by simpa using hp),
    fun msg hs => h.roomy msg (by simpa [fail] using hs), qs, hasked, by simpa using heof⟩

theorem Sound.bind {v : View (Recorder R)} {x : ViewM (Recorder R) α}
    {f : α → ViewM (Recorder R) β} (hx : Sound v (x v))
    (hf : ∀ a v', x v = .ok a v' → Sound v' (f a v')) : Sound v ((x >>= f) v) := by
  rw [bind_apply]
  cases h : x v with
  | ok a v' =>
    rw [h] at hx
    obtain ⟨qs, hasked, -⟩ := hx.asked
    exact (hf a v' h).after hasked
  | error e v' =>
    rw [h] at hx
    exact hx.of_error

variable [Read R]

theorem fillHead_sound {v : View (Recorder R)} (hlen : v.pending.length < Reader.MIN) :
    Sound v (fillHead v) := by
  have hsize : 1 ≤ Reader.MIN - v.pending.length := Nat.sub_pos_of_lt hlen
  have hfilled := fillHead_filled v
  generalize fillHead v = r at hfilled ⊢
  cases hfilled with
  | @grown bytes inner request ne =>
    have hasked : Asked v { v with pending := v.pending ++ bytes, inner } [.read _ (.ok bytes)] :=
      .single (Recorder.requests_of_read request) hsize
    exact .after hasked (.ok () rfl)
  | ended request => exact .io (.single (Recorder.requests_of_read request) hsize) fun _ => .inl rfl
  | failed request =>
    exact .io (.single (Recorder.requests_of_read request) hsize) fun h => .inr (congrArg _ h)

variable [Target]

theorem nextFrameLoop_sound (v : View (Recorder R)) :
    Sound v (nextFrameLoop (Reader.MIN + 1) v) := by
  have keep : ∀ v₁ v₂ : View (Recorder R), (∃ qs, Asked v v₁ qs) →
      v₁.pending.length < Reader.MIN → fillHead v₁ = .ok ⟨⟩ v₂ → ∃ qs, Asked v v₂ qs := by
    rintro v₁ v₂ ⟨qs, hasked⟩ hlen hfill
    obtain ⟨qs', hasked', -⟩ := (fillHead_sound hlen).asked
    rw [hfill] at hasked'
    exact ⟨qs ++ qs', hasked.trans hasked'⟩
  obtain ⟨v₀, ⟨qs, hasked⟩, hend⟩ := nextFrameLoop_sought keep ⟨[], .refl rfl⟩
    (Nat.le_add_left Reader.MIN v.pending.length)
  generalize nextFrameLoop (Reader.MIN + 1) v = r at hend ⊢
  apply Sound.after hasked
  cases hend with
  | found announced => exact .ok _ rfl
  | malformed error =>
    obtain ⟨rfl, -⟩ := FixedHeader.nextFrame_eq_error.1 error
    exact ⟨by simp [NoPanic], by simp [fail], [], .refl rfl, by simp [ioFault]⟩
  | stopped short fill =>
    have hlen : v₀.pending.length < Reader.MIN := FixedHeader.length_lt_of_nextFrame_none short
    have hfill := fillHead_sound hlen
    rw [fill] at hfill
    exact hfill.of_error

omit [Target] in
theorem readFrame_sound (n : ℕ) (v : View (Recorder R)) : Sound v (readFrame n v) := by
  have hframed := readFrame_framed n v
  generalize readFrame n v = r at hframed ⊢
  cases hframed with
  | refused big => exact ⟨by simp [NoPanic], by simp [fail], [], .refl rfl, by simp [ioFault]⟩
  | there fits whole => exact .ok _ rfl
  | @completed got inner fits short request =>
    have hsize : 1 ≤ n - v.pending.length := Nat.sub_pos_of_lt short
    have hasked : Asked v { v with pending := v.pending ++ got, inner } [.readExact _ (.ok ⟨⟩)] :=
      .single (Recorder.requests_of_readExact request) hsize
    exact .after hasked (.ok _ rfl)
  | interrupted fits short request =>
    have hsize : 1 ≤ n - v.pending.length := Nat.sub_pos_of_lt short
    exact .io (.single (Recorder.requests_of_readExact request) hsize) fun h => congrArg _ h

theorem call_sound (c : ReaderCall) (v : View (Recorder R)) : Sound v (call c v) := by
  cases c with
  | read =>
    have hcur : Sound v (currentFrameUnasserted v) := by
      simp only [currentFrameUnasserted, bind_apply, get_apply]
      cases v.frame with
      | none => exact nextFrameLoop_sound v
      | some n => exact .ok n rfl
    have hread : Sound v (readUnasserted v) := hcur.bind fun n v' _ => readFrame_sound n v'
    exact hread.bind fun slice v' _ => .ok (some slice) rfl
  | consume =>
    have hconsume : Sound v (consume v) := by
      obtain ⟨capacity, pending, frame, inner⟩ := v
      cases frame <;> exact .ok () rfl
    exact hconsume.bind fun _ v' _ => .ok none rfl

end View

/-! ## The record is not noticed -/

/-- A view of a recorder and the view without the record. -/
def Erases (v : View (Recorder R)) (v' : View R) : Prop :=
  v' = ⟨v.capacity, v.pending, v.frame, v.inner.inner⟩

namespace View

variable [Read R]

theorem fillHead_erases : Simulates (Erases (R := R)) Erases fillHead fillHead := by
  rintro ⟨capacity, pending, frame, inner⟩ v' rfl
  simp only [fillHead, bind_apply, get_apply, Recorder.read_eq]
  rcases Read.read (Reader.MIN - pending.length) inner.inner with ⟨kind | bytes, inner'⟩
  · exact .error _ rfl
  · by_cases hnil : bytes = []
    · subst hnil
      exact .error _ rfl
    · simp only [bind_apply, set_apply, if_neg hnil, pure_apply]
      exact .ok _ rfl

theorem readFrame_erases (n : ℕ) :
    Simulates (Erases (R := R)) Erases (readFrame n) (readFrame n) := by
  rintro ⟨capacity, pending, frame, inner⟩ v' rfl
  simp only [readFrame, fillFrame, bind_apply, get_apply]
  by_cases hbig : capacity < n
  · simp only [if_pos hbig]
    exact .error _ rfl
  · simp only [if_neg hbig, bind_apply, get_apply]
    by_cases hfull : pending.length < n
    · simp only [if_pos hfull, Recorder.readExact_eq]
      rcases Read.readExact (n - pending.length) inner.inner with ⟨got, kind | ⟨⟩, inner'⟩
      · exact .error _ rfl
      · exact .ok _ rfl
    · simp only [if_neg hfull]
      exact .ok _ rfl

omit [Read R] in
theorem consume_erases : Simulates (Erases (R := R)) Erases consume consume := by
  rintro ⟨capacity, pending, frame, inner⟩ v' rfl
  cases frame <;> exact .ok () rfl

variable [Target]

theorem nextFrameLoop_erases (fuel : ℕ) :
    Simulates (Erases (R := R)) Erases (nextFrameLoop fuel) (nextFrameLoop fuel) := by
  induction fuel with
  | zero => exact fun _ _ h => .error _ h
  | succ fuel ih =>
    rintro v v' rfl
    rw [nextFrameLoop_succ, nextFrameLoop_succ]
    rcases FixedHeader.nextFrame v.pending with e | _ | n
    · exact .error _ rfl
    · exact fillHead_erases.bind (fun _ _ h => h) (fun _ => ih) v _ rfl
    · exact .ok _ rfl

theorem call_erases (c : ReaderCall) :
    Simulates (Erases (R := R)) Erases (call c) (call c) := by
  cases c with
  | read =>
    have hcur : Simulates (Erases (R := R)) Erases currentFrameUnasserted
        currentFrameUnasserted := by
      rintro ⟨capacity, pending, frame, inner⟩ v' rfl
      cases frame with
      | none => exact nextFrameLoop_erases _ _ _ rfl
      | some n => exact .ok _ rfl
    have hread : Simulates (Erases (R := R)) Erases readUnasserted readUnasserted :=
      hcur.bind (fun _ _ h => h) readFrame_erases
    exact hread.map some
  | consume => exact consume_erases.map fun _ => none

end View

/-- A reader returns the same whether its requests are recorded or not. -/
theorem Recorder.results_eq [Target] [Read R] {inner : R} {capacity : ℕ}
    {r : Reader (Recorder R)} {r' : Reader R}
    (hr : Reader.withCapacity ⟨inner, []⟩ capacity = some r)
    (hr' : Reader.withCapacity inner capacity = some r') (script : List ReaderCall) :
    (log isPanic Reader.call script r).map Call.result =
      (log isPanic Reader.call script r').map Call.result := by
  rw [Simulates.results_eq call_simulates script (shows_withCapacity hr),
    Simulates.results_eq call_simulates script (shows_withCapacity hr')]
  exact Simulates.results_eq View.call_erases script rfl

/-! ## Runs -/

/-- `pos <= filled <= buf.len()`. -/
def Reader.Ordered (r : Reader R) : Prop := r.pos ≤ r.filled ∧ r.filled ≤ r.buf.length

variable [Target] [Read R]

/-- In every run of `read` and `consume` the indices are in order before and after every call, no
call panics, the window for a header is there, no request is empty, and a call that reports
`UnexpectedEof` had the end of the stream, or that error, for its last answer. -/
theorem Reader.indices_sound {inner : R} {capacity : ℕ} {r : Reader (Recorder R)}
    (hr : withCapacity ⟨inner, []⟩ capacity = some r) (script : List ReaderCall) :
    ∀ c ∈ log isPanic call script r,
      c.before.Ordered ∧ c.after.Ordered ∧ NoPanic c.result ∧
      (∀ msg, c.result ≠ fail .notEnoughSpace msg) ∧
      ∃ qs, c.after.inner.requests = c.before.inner.requests ++ qs ∧ (∀ q ∈ qs, 1 ≤ q.size) ∧
        (c.result = .error (View.ioFault .unexpectedEof) →
          ∃ q, qs.getLast? = some q ∧ q.AtEnd) := by
  intro c hc
  have step (op : ReaderCall) (s : Reader (Recorder R)) (valid : s.Valid) :
      outcome (call op s) = outcome (View.call op s.view) ∧ (final (call op s)).Valid ∧
        (final (call op s)).view = final (View.call op s.view) :=
    (call_simulates op s s.view ⟨valid, rfl⟩).outcome_eq
  obtain ⟨before, after⟩ := invariant_of_log (I := Reader.Valid) (P := fun _ _ => True)
    (fun op s valid _ => (step op s valid).2.1) (shows_withCapacity hr).1
    (fun _ _ => trivial) hc
  obtain ⟨hresult, hafter⟩ := call_of_log hc
  obtain ⟨hout, -, hview⟩ := step c.input c.before before
  have sound := View.call_sound c.input c.before.view
  obtain ⟨qs, ⟨hrequests, hsize⟩, heof⟩ := sound.asked
  rw [← hview, ← hafter] at hrequests
  rw [← hout, ← hresult] at heof
  refine ⟨⟨before.pos_le, before.filled_le⟩, ⟨after.pos_le, after.filled_le⟩, ?_, ?_, qs,
    hrequests, hsize, heof⟩
  · rw [hresult, hout]
    exact sound.noPanic
  · rw [hresult, hout]
    exact sound.roomy

omit [Target] [Read R] in
theorem Reader.indices_sound_ping :
    letI := Target.debug
    letI r : Reader (Recorder Input) := ⟨[0, 0, 0, 0, 0], 0, none, 0, ⟨[.chunk [0xD0, 0]], []⟩⟩
    withCapacity ⟨[.chunk [0xD0, 0]], []⟩ 5 = some r ∧
    ∀ c ∈ log isPanic call [.read, .consume, .read] r, c.after.Ordered :=
  ⟨rfl, fun c hc => (@indices_sound Input Target.debug _ [.chunk [0xD0, 0]] 5 _ rfl
    [.read, .consume, .read] c hc).2.1⟩

omit [Target] [Read R] in
/-- `fill_head` passes an `UnexpectedEof` of its inner reader on, which has not returned 0. -/
theorem Reader.unexpectedEof_of_error :
    letI := Target.debug
    letI r : Reader (Recorder Input) := ⟨[0, 0, 0, 0, 0], 0, none, 0, ⟨[.fail .unexpectedEof], []⟩⟩
    withCapacity ⟨[.fail .unexpectedEof], []⟩ 5 = some r ∧
    ∃ c ∈ log isPanic call [.read] r, c.result = .error (View.ioFault .unexpectedEof) ∧
      c.after.inner.requests = [.read 5 (.error .unexpectedEof)] ∧
      ∀ size, .read size (.ok []) ∉ c.after.inner.requests := by
  let := Target.debug
  refine ⟨rfl, _, List.mem_cons_self, by decide, by decide, fun size hmem => ?_⟩
  have hrequests : Request.read size (.ok []) ∈ [Request.read 5 (.error .unexpectedEof)] := hmem
  simp at hrequests

end Mcutt
