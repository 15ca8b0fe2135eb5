import Mcutt.Lib.Inbox
import Mcutt.Packets.ConnectDecode
import Mcutt.Sync.KeepAlive
import Mcutt.Sync.Oversized

/-!
# Connecting and receiving

`connect` and `recv` return what their parser makes of a slice of the reader, `recv` after dropping
the frame that was returned before, `connect` without.  What the reader is for is said by an inbox:
`recv` asks it for the next frame and `connect` for the one it holds.  As long as no call of `read`
is cut and no call fails with a frame known, every run does what the inbox does
(`Connection.calls_follow_inbox`): the slices begin with the frames of the stream, one after the
other, and a `connect` behind another one returns the frame of that one again.
-/

namespace Mcutt

open Machine Framing

/-! ## The calls of `read` -/

namespace ReaderHalf

section

variable {R W : Type} [Target] [Read R] [Write W]

/-- As `LoopRule`, for runs in which `P` holds at every call of `read`. -/
structure ReadRule (P I D E : Reader R → Prop) : Prop where
  stopped : ∀ r, I r → E r
  step : ∀ r, I r → P r → match Reader.read r with
    | .ok _ r' => D r'
    | .error (.err e) r' => if wouldBlock e then I r' else E r'
    | .error _ r' => E r'

variable {P I D E : Reader R → Prop}

omit [Write W] in
theorem ReadRule.readerEvent (rule : ReadRule P I D E) {h : ReaderHalf R W} (hI : I h.inner)
    (hP : P h.inner) :
    match readerEvent h with
    | .ok done h' => if done then D h'.inner else I h'.inner
    | .error _ h' => E h'.inner := by
  have hstep := rule.step h.inner hI hP
  unfold ReaderHalf.readerEvent
  rcases hread : Reader.read h.inner with ⟨slice, r'⟩ | ⟨e | msg, r'⟩
  · rw [hread] at hstep
    exact hstep
  · rw [hread] at hstep
    cases hblock : wouldBlock e with
    | true =>
      simp only [hblock, if_true] at hstep ⊢
      exact hstep
    | false =>
      simp only [hblock, Bool.false_eq_true, if_false] at hstep ⊢
      exact hstep
  · rw [hread] at hstep
    exact hstep

theorem ReadRule.handleEvents (rule : ReadRule P I D E) {events : List PollEvent}
    {h : ReaderHalf R W} (hI : I h.inner) (hP : ∀ r ∈ eventReads events h, P r) :
    match handleEvents events h with
    | .ok done h' => if done then D h'.inner else I h'.inner
    | .error _ h' => E h'.inner := by
  induction events generalizing h with
  | nil => exact hI
  | cons event events ih =>
    cases event with
    | reader =>
      rw [eventReads] at hP
      obtain ⟨hfirst, hrest⟩ := List.forall_mem_cons.1 hP
      have hevent := rule.readerEvent hI hfirst
      rw [ReaderHalf.handleEvents, bind_apply]
      cases heq : ReaderHalf.readerEvent h with
      | error e h' =>
        rw [heq] at hevent
        exact hevent
      | ok done h' =>
        rw [heq] at hevent hrest
        cases done with
        | true => exact hevent
        | false => exact ih hevent hrest
    | timer read =>
      rw [eventReads] at hP
      have hevent := timerEvent_triple (W := W) rule.stopped read h hI
      rw [ReaderHalf.handleEvents, bind_apply]
      cases heq : timerEvent read h with
      | error e h' =>
        rw [heq] at hevent
        exact hevent
      | ok u h' =>
        rw [heq] at hevent hP
        exact ih hevent hP

theorem ReadRule.pollLoop (rule : ReadRule P I D E) {polls : List (Poll W)} {h : ReaderHalf R W}
    (hI : I h.inner) (hP : ∀ r ∈ loopReads polls h, P r) :
    match pollLoop polls h with
    | .ok _ h' => D h'.inner
    | .error _ h' => E h'.inner := by
  induction polls generalizing h with
  | nil => exact rule.stopped _ hI
  | cons p polls ih =>
    have hpoll := poll_triple (I := I) (E := E) rule.stopped p polls h hI
    rw [ReaderHalf.pollLoop_cons, bind_apply]
    rw [loopReads] at hP
    cases heq : poll p polls h with
    | error e h' =>
      rw [heq] at hpoll
      exact hpoll
    | ok events h' =>
      rw [heq] at hpoll hP
      have hevents := rule.handleEvents hpoll fun r hr => hP r (List.mem_append_left _ hr)
      simp only [bind_apply]
      cases hhandle : ReaderHalf.handleEvents events h' with
      | error e h'' =>
        rw [hhandle] at hevents
        exact hevents
      | ok done h'' =>
        rw [hhandle] at hevents
        cases done with
        | true => exact hevents
        | false =>
          refine ih hevents fun r hr => hP r (List.mem_append_right _ ?_)
          rw [hhandle]
          exact hr

/-- The slice `poll_event` returns is what is pending. -/
theorem ReadRule.pollEvent (rule : ReadRule P I D E) (hD : ∀ r, D r → r.Valid)
    {h : ReaderHalf R W} (hI : I h.inner) (hP : ∀ r ∈ loopReads h.polls h, P r) :
    match pollEvent h with
    | .ok slice h' => D h'.inner ∧ slice = h'.inner.pending
    | .error _ h' => E h'.inner := by
  have hloop := rule.pollLoop hI hP
  simp only [ReaderHalf.pollEvent, pollEventWith, bind_apply, get_apply]
  cases heq : ReaderHalf.pollLoop h.polls h with
  | error e h' =>
    rw [heq] at hloop
    exact hloop
  | ok u h' =>
    rw [heq] at hloop
    simp only [onReader, (hD _ hloop).buff_eq]
    exact ⟨hloop, trivial⟩

end

end ReaderHalf

/-! ## The inbox of a reader -/

section

variable {R : Type} [Read R]

/-- A frame that is there is returned, and nothing is read. -/
theorem View.readFrame_of_whole {v : View R} {n : ℕ} (fits : n ≤ v.capacity)
    (whole : n ≤ v.pending.length) : View.readFrame n v = .ok v.pending v := by
  simp only [View.readFrame, View.fillFrame, bind_apply, get_apply, if_neg (not_lt.2 fits),
    if_neg (not_lt.2 whole), pure_apply]

variable [Target]

theorem Reader.Valid.read_of_whole {r : Reader R} (valid : r.Valid) {n : ℕ} (hf : r.frame = some n)
    (hle : n ≤ r.pending.length) :
    outcome (Reader.read r) = .ok r.pending ∧ (final (Reader.read r)).Valid ∧
      (final (Reader.read r)).view = r.view := by
  obtain ⟨hout, hvalid, hview⟩ := valid.read
  have hcap : n ≤ r.buf.length := by
    have hpending := valid.length_pending
    have hfilled := valid.filled_le
    omega
  have hread : View.read r.view = .ok r.pending r.view := by
    simp only [View.read, bind_apply, View.currentFrame_of_some (v := r.view) hf]
    exact View.readFrame_of_whole (v := r.view) hcap hle
  rw [hread] at hout hview
  exact ⟨hout, hvalid, hview⟩

/-- A `read` that returns knows its frame and has it whole. -/
theorem View.whole_of_read {v v' : View R} {slice : List UInt8} (h : View.read v = .ok slice v') :
    ∃ n, v'.frame = some n ∧ n ≤ v'.pending.length := by
  simp only [View.read, bind_apply] at h
  cases hcur : View.currentFrame v with
  | error e w =>
    rw [hcur] at h
    cases h
  | ok n w =>
    rw [hcur] at h
    have hframe := View.frame_of_currentFrame hcur
    have hframed := View.readFrame_framed n w
    simp only at h
    rw [h] at hframed
    cases hframed with
    | there fits whole => exact ⟨n, hframe, whole⟩
    | @completed got inner fits short request =>
      have hgot := Read.readExact_ok (n - w.pending.length) w.inner
      rw [request] at hgot
      refine ⟨n, hframe, ?_⟩
      rw [List.length_append, hgot rfl]
      omega

theorem Reader.Valid.whole_of_read {r r' : Reader R} {slice : List UInt8} (valid : r.Valid)
    (h : Reader.read r = .ok slice r') : ∃ n, r'.frame = some n ∧ n ≤ r'.pending.length := by
  obtain ⟨hout, -, hview⟩ := valid.read
  rw [h] at hout hview
  cases hv : View.read r.view with
  | error e v' =>
    rw [hv] at hout
    cases hout
  | ok slice' v' =>
    rw [hv] at hview
    have hwhole := View.whole_of_read hv
    rw [final_ok, final_ok] at hview
    rwa [← hview] at hwhole

end

namespace Reader

section

variable [Target]

/-- A reader that has delivered what the inbox holds, and has the rest of the stream in front. -/
structure Holds (capacity : ℕ) (s : Inbox UInt8) (r : Reader Input) : Prop where
  sound : Sound capacity s.stream r
  frame : r.frame = s.held.map List.length
  whole : ∀ f ∈ s.held, f.length ≤ r.pending.length

/-- So, or with a frame that is known and not delivered. -/
structure Fetching (capacity : ℕ) (s : Inbox UInt8) (r : Reader Input) : Prop where
  sound : Sound capacity s.stream r
  frame : ∀ f ∈ s.held, r.frame = some f.length
  whole : ∀ f ∈ s.held, f.length ≤ r.pending.length

variable {capacity : ℕ} {s : Inbox UInt8} {r : Reader Input}

theorem Holds.fetching (h : Holds capacity s r) : Fetching capacity s r := by
  refine ⟨h.sound, fun f hf => ?_, h.whole⟩
  rw [h.frame, Option.mem_def.1 hf, Option.map_some]

theorem holds_new {schedule : Input} (new : Reader.withCapacity schedule capacity = some r)
    (nonempty : Schedule.NonemptyChunks schedule) (blocking : OnlyWouldBlock schedule) :
    Holds capacity ⟨none, Schedule.payload schedule⟩ r := by
  obtain ⟨-, hview⟩ := shows_withCapacity new
  exact ⟨(Reaches.start new rfl nonempty blocking).sound, congrArg View.frame hview, by simp⟩

/-- What is held is the front of the slice. -/
theorem Holds.held_front (h : Holds capacity s r) {f : List UInt8} (hf : s.held = some f) :
    f <+: r.pending := by
  have hstream : r.pending ++ Schedule.payload r.inner = f ++ s.behind := by
    have := h.sound.remaining_eq
    rwa [Inbox.stream, hf] at this
  have hle := h.whole f hf
  rw [List.prefix_iff_eq_take, ← List.take_append_of_le_length hle, hstream, List.take_left]

theorem Holds.consume (h : Holds capacity s r) :
    Holds capacity (s.drop .next) (final (Reader.consume r)) := by
  obtain ⟨held, behind⟩ := s
  obtain ⟨-, hview⟩ := h.sound.valid.consume
  have hframe := View.consume_frame r.view
  rw [← hview] at hframe
  have hsound := h.sound.consume
  refine ⟨?_, hframe, by simp [Inbox.drop]⟩
  cases held with
  | none =>
    rw [consume_of_none h.frame, final_ok, Nat.sub_self, List.drop_zero] at hsound
    rw [consume_of_none h.frame, final_ok]
    exact hsound
  | some f =>
    have hlen := h.whole f rfl
    obtain ⟨hpos, heq⟩ := h.sound.valid.pos_consume h.frame
    rw [hpos, heq, Nat.sub_zero, min_eq_left hlen] at hsound
    have hdrop : (Inbox.stream ⟨some f, behind⟩).drop f.length = behind := List.drop_left
    rw [hdrop] at hsound
    exact hsound

/-- `read` returns a frame that was delivered again. -/
theorem Fetching.read_of_held (h : Fetching capacity s r) {f : List UInt8} (hf : s.held = some f) :
    outcome (Reader.read r) = .ok r.pending ∧ Holds capacity s (final (Reader.read r)) := by
  obtain ⟨hout, valid, hview⟩ := h.sound.valid.read_of_whole (h.frame f hf) (h.whole f hf)
  have hpending : (final (Reader.read r)).pending = r.pending := congrArg View.pending hview
  have hinner : (final (Reader.read r)).inner = r.inner := congrArg View.inner hview
  have hframe : (final (Reader.read r)).frame = r.frame := congrArg View.frame hview
  refine ⟨hout, ⟨valid, hview ▸ h.sound.inv, hinner ▸ h.sound.nonempty, hinner ▸ h.sound.blocking,
    (congrArg View.capacity hview).trans h.sound.capacity_eq, ?_⟩, ?_, ?_⟩
  · rw [remaining, hpending, hinner]
    exact h.sound.remaining_eq
  · rw [hframe, h.frame f hf, hf, Option.map_some]
  · rw [hpending]
    exact h.whole

/-- An uncut `read` that returns has fetched the frame in front. -/
theorem Fetching.read_ok (h : Fetching capacity s r) (uncut : r.Uncut) {slice : List UInt8}
    {r' : Reader Input} (hread : Reader.read r = .ok slice r') :
    Holds capacity (s.fetch FixedHeader.nextFrame) r' ∧
      ∃ f, (s.fetch FixedHeader.nextFrame).held = some f := by
  have hsound := h.sound.read uncut
  rw [hread, final_ok] at hsound
  cases hheld : s.held with
  | some f =>
    have hholds := (h.read_of_held hheld).2
    rw [hread, final_ok] at hholds
    rw [Inbox.fetch_of_held hheld]
    exact ⟨hholds, f, hheld⟩
  | none =>
    obtain ⟨hout, -, hview⟩ := h.sound.valid.read
    rw [hread, outcome_ok] at hout
    rw [hread, final_ok] at hview
    cases hv : View.read r.view with
    | error e v' =>
      rw [hv] at hout
      cases hout
    | ok slice' v' =>
      rw [hv, final_ok] at hview
      obtain ⟨n, ⟨hn, -, hle⟩, hframe, -⟩ :=
        View.complete_of_read h.sound.inv h.sound.nonempty hv
      have hrest : r.view.rest = s.behind := by
        have := h.sound.remaining_eq
        rwa [Inbox.stream, hheld] at this
      rw [hrest] at hn hle
      have hend := View.read_ends h.sound.nonempty h.sound.inv
      rw [hv] at hend
      obtain ⟨-, m, hm, hwhole⟩ := hend.frame_of_ok
      obtain rfl : n = m := by simpa using hframe.symm.trans hm
      rw [← hview] at hframe hwhole
      have hlen : (s.behind.take n).length = n := List.length_take_of_le hle
      rw [Inbox.fetch_of_none hheld hn hle]
      refine ⟨⟨?_, ?_, ?_⟩, _, rfl⟩
      · have hstream : Inbox.stream ⟨some (s.behind.take n), s.behind.drop n⟩ = s.stream := by
          rw [Inbox.stream, Inbox.stream, hheld]
          exact List.take_append_drop n s.behind
        rw [hstream]
        exact hsound
      · show r'.frame = some (s.behind.take n).length
        rw [hlen]
        exact hframe
      · rintro f ⟨⟩
        rw [hlen]
        exact hwhole

/-- An uncut `read` that fails loses nothing. -/
theorem Fetching.read_error (h : Fetching capacity s r) (uncut : r.Uncut) {e : Fault}
    {r' : Reader Input} (hread : Reader.read r = .error e r') : Fetching capacity s r' := by
  have hsound := h.sound.read uncut
  rw [hread, final_error] at hsound
  have hnone : s.held = none := by
    cases hheld : s.held with
    | none => rfl
    | some f =>
      have hout := (h.read_of_held hheld).1
      rw [hread] at hout
      cases hout
  exact ⟨hsound, by simp [hnone], by simp [hnone]⟩

theorem Fetching.readRule (capacity : ℕ) (s : Inbox UInt8) :
    ReaderHalf.ReadRule Uncut (Fetching capacity s)
      (fun r => Holds capacity (s.fetch FixedHeader.nextFrame) r ∧
        ∃ f, (s.fetch FixedHeader.nextFrame).held = some f) (Fetching capacity s) := by
  refine ⟨fun r h => h, fun r h uncut => ?_⟩
  cases hread : Reader.read r with
  | ok slice r' => exact h.read_ok uncut hread
  | error e r' =>
    have hnext := h.read_error uncut hread
    cases e with
    | err e =>
      simp only
      split_ifs <;> exact hnext
    | panicked msg => exact hnext

end

end Reader

/-! ## `connect` and `recv` -/

namespace Connection

/-- `Connection::connect`, which does not drop the frame returned before. -/
def connect {R W : Type} [Target] [Read R] [Write W] (value : ConnectBuilder) :
    ReaderHalf.HalfM R W ConnAck := do
  ReaderHalf.onWriter (WriterHalf.connect value)
  let read ← ReaderHalf.pollEvent
  ReaderHalf.onExec (Mcutt.consume ConnAck.parse read)

end Connection

/-- What a call returns. -/
inductive Reply where
  | connAck (connack : ConnAck)
  | packet (pkt : Packet)
  deriving DecidableEq, Repr

/-- A call that receives. -/
inductive ReceiverCall where
  | connect (value : ConnectBuilder)
  | recv

/-- A call that was made. -/
abbrev Received (R W : Type) := Call ReceiverCall Stop (ReaderHalf R W) Reply

namespace ReceiverCall

def ask : ReceiverCall → Ask
  | connect _ => .held
  | recv => .next

section

variable [Target]

/-- What the call makes of a slice. -/
def parse : ReceiverCall → List UInt8 → Exec Reply
  | connect _, buf => Reply.connAck <$> Mcutt.consume ConnAck.parse buf
  | recv, buf => Reply.packet <$> Mcutt.consume Packet.parse buf

variable {R W : Type} [Read R] [Write W]

def run : ReceiverCall → ReaderHalf.HalfM R W Reply
  | connect value => do
    let connack ← Connection.connect value
    pure (.connAck connack)
  | recv => do
    let pkt ← ReaderHalf.recv
    pure (.packet pkt)

/-- The call up to its wait for events. -/
def enter : ReceiverCall → ReaderHalf.HalfM R W Unit
  | connect value => ReaderHalf.onWriter (WriterHalf.connect value)
  | recv => ReaderHalf.onReader Reader.consume

/-- The call up to the slice it parses. -/
def polled (call : ReceiverCall) : ReaderHalf.HalfM R W (List UInt8) := do
  call.enter
  ReaderHalf.pollEvent

/-- The readers that the call calls `read` on, in order. -/
def reads (call : ReceiverCall) (h : ReaderHalf R W) : List (Reader R) :=
  match call.enter h with
  | .ok _ h' => ReaderHalf.loopReads h'.polls h'
  | .error _ _ => []

theorem run_eq (call : ReceiverCall) (h : ReaderHalf R W) :
    call.run h = match call.polled h with
      | .ok buf h' => ReaderHalf.onExec (call.parse buf) h'
      | .error e h' => .error e h' := by
  cases call with
  | connect value =>
    simp only [run, Connection.connect, polled, enter, bind_apply]
    cases ReaderHalf.onWriter (WriterHalf.connect value) h with
    | error e h' => rfl
    | ok u h' =>
      simp only
      cases ReaderHalf.pollEvent h' with
      | error e h'' => rfl
      | ok buf h'' =>
        simp only [parse, ReaderHalf.onExec]
        cases Mcutt.consume ConnAck.parse buf <;> rfl
  | recv =>
    simp only [run, ReaderHalf.recv, ReaderHalf.recvWith, polled, enter, bind_apply]
    cases ReaderHalf.onReader Reader.consume h with
    | error e h' => rfl
    | ok u h' =>
      simp only
      cases ReaderHalf.pollEvent h' with
      | error e h'' => rfl
      | ok buf h'' =>
        simp only [parse, ReaderHalf.onExec]
        cases Mcutt.consume Packet.parse buf <;> rfl

theorem final_run (call : ReceiverCall) (h : ReaderHalf R W) :
    final (call.run h) = final (call.polled h) := by
  rw [run_eq]
  cases call.polled h with
  | error e h' => rfl
  | ok buf h' =>
    simp only [ReaderHalf.onExec]
    cases call.parse buf <;> rfl

end

end ReceiverCall

namespace Connection

section

variable {R W : Type} [Target] [Read R] [Write W]

/-- Calls that receive, those after a failed one included. -/
def receives (script : List ReceiverCall) (h : ReaderHalf R W) : List (Received R W) :=
  log ReaderHalf.stops ReceiverCall.run script h

/-- The readers that a run calls `read` on, in order. -/
def readers (script : List ReceiverCall) (h : ReaderHalf R W) : List (Reader R) :=
  (receives script h).flatMap fun c => c.input.reads c.before

/-- What `poll_event` returned to the call, or why the call did not get a slice. -/
def slice (c : Received R W) : Except Stop (List UInt8) := outcome (c.input.polled c.before)

/-- What the call asks of the inbox, and whether it got a slice. -/
def event (c : Received R W) : Ask × Bool := (c.input.ask, (slice c).isOk)

/-- The frames that the inbox of the stream delivers anew to the calls. -/
def frames (calls : List (Received R W)) (schedule : Input) : List (List UInt8) :=
  (⟨none, Schedule.payload schedule⟩ : Inbox UInt8).fresh FixedHeader.nextFrame (calls.map event)

/-- A call that fails without a slice leaves no frame that it came to know. -/
def LeavesNoFrame (c : Received R W) : Prop :=
  ReaderHalf.stops c.result = false → (slice c).isOk = false →
    c.after.inner.frame = (final (c.input.enter c.before)).inner.frame

/-- What a call with a slice returns. -/
theorem result_of_slice {c : Received R W} {script : List ReceiverCall} {h : ReaderHalf R W}
    (hc : c ∈ receives script h) {buf : List UInt8} (hbuf : slice c = .ok buf) :
    c.result = (c.input.parse buf).mapError Stop.fault := by
  rw [(call_of_log hc).1, c.input.run_eq]
  unfold slice at hbuf
  cases heq : c.input.polled c.before with
  | error e h' =>
    rw [heq] at hbuf
    cases hbuf
  | ok buf' h' =>
    rw [heq, outcome_ok, Except.ok.injEq] at hbuf
    subst hbuf
    simp only [ReaderHalf.onExec]
    cases c.input.parse buf' <;> rfl

end

variable {W : Type} [Target] [Write W]

/-- A call does what the inbox does: what is unread is its stream, and a slice is the frame it
delivers with less than a header of what follows. -/
structure Follows (s : Inbox UInt8) (c : Received Input W) : Prop where
  remaining : c.before.inner.remaining = s.stream
  delivered : ∀ buf, slice c = .ok buf →
    ∃ f, (s.step FixedHeader.nextFrame (event c)).held = some f ∧ f <+: buf ∧
      buf <+: (s.step FixedHeader.nextFrame (event c)).stream ∧
      buf.length ≤ max Reader.MIN f.length

variable {capacity : ℕ} {s : Inbox UInt8} {h : ReaderHalf Input W} {call : ReceiverCall}

theorem enter_holds (holds : h.inner.Holds capacity s) :
    (final (call.enter h)).inner.Holds capacity (s.drop call.ask) := by
  cases call with
  | connect value =>
    have hinner : (final (ReaderHalf.onWriter (WriterHalf.connect value) h)).inner = h.inner := by
      unfold ReaderHalf.onWriter
      cases WriterHalf.connect value h.writer <;> rfl
    show (final (ReaderHalf.onWriter (WriterHalf.connect value) h)).inner.Holds capacity s
    rw [hinner]
    exact holds
  | recv =>
    have hinner : (final (ReaderHalf.onReader Reader.consume h)).inner =
        final (Reader.consume h.inner) := by
      unfold ReaderHalf.onReader
      cases Reader.consume h.inner <;> rfl
    show (final (ReaderHalf.onReader Reader.consume h)).inner.Holds capacity (s.drop .next)
    rw [hinner]
    exact holds.consume

/-- A call that gets a slice leaves the reader with the frame fetched, and one that does not leaves
it fetching. -/
theorem polled_holds (holds : h.inner.Holds capacity s) (uncut : ∀ r ∈ call.reads h, r.Uncut) :
    match call.polled h with
    | .ok buf h' => (h'.inner.Holds capacity ((s.drop call.ask).fetch FixedHeader.nextFrame) ∧
        ∃ f, ((s.drop call.ask).fetch FixedHeader.nextFrame).held = some f) ∧
          buf = h'.inner.pending
    | .error _ h' => h'.inner.Fetching capacity (s.drop call.ask) := by
  have henter : (final (call.enter h)).inner.Holds capacity (s.drop call.ask) := enter_holds holds
  rw [ReceiverCall.polled, bind_apply]
  unfold ReceiverCall.reads at uncut
  cases heq : call.enter h with
  | error e h' =>
    rw [heq] at henter
    exact henter.fetching
  | ok u h' =>
    rw [heq, final_ok] at henter
    rw [heq] at uncut
    have hrule := (Reader.Fetching.readRule capacity (s.drop call.ask)).pollEvent
      (fun r hr => hr.1.sound.valid) henter.fetching uncut
    simp only
    cases hpoll : ReaderHalf.pollEvent h' with
    | error e h'' =>
      rw [hpoll] at hrule
      exact hrule
    | ok buf h'' =>
      rw [hpoll] at hrule
      exact hrule

theorem follows_step (holds : h.inner.Holds capacity s)
    (hcall : (∀ r ∈ call.reads h, r.Uncut) ∧ LeavesNoFrame (.of ReceiverCall.run call h)) :
    Follows s (.of ReceiverCall.run call h) ∧
      (ReaderHalf.stops (outcome (call.run h)) = false →
        (final (call.run h)).inner.Holds capacity
          (s.step FixedHeader.nextFrame (event (.of ReceiverCall.run call h)))) := by
  obtain ⟨uncut, kept⟩ := hcall
  have henter : (final (call.enter h)).inner.Holds capacity (s.drop call.ask) := enter_holds holds
  have hpolled := polled_holds holds uncut
  have hslice : slice (.of ReceiverCall.run call h) = outcome (call.polled h) := rfl
  have hfinal := call.final_run h
  cases heq : call.polled h with
  | error e h' =>
    rw [heq] at hpolled hfinal hslice
    have hstep : s.step FixedHeader.nextFrame (event (.of ReceiverCall.run call h)) =
        s.drop call.ask := by
      rw [event, hslice]
      rfl
    refine ⟨⟨holds.sound.remaining_eq, fun buf hbuf => by rw [hslice] at hbuf; cases hbuf⟩,
      fun hstops => ?_⟩
    have hframe := kept hstops (by rw [hslice]; rfl)
    have hafter : (Call.of ReceiverCall.run call h).after = h' := hfinal
    rw [hafter] at hframe
    rw [hstep, hfinal]
    exact ⟨hpolled.sound, hframe.trans henter.frame, hpolled.whole⟩
  | ok buf h' =>
    rw [heq] at hpolled hfinal hslice
    obtain ⟨⟨hholds, f, hf⟩, hbuf⟩ := hpolled
    have hstep : s.step FixedHeader.nextFrame (event (.of ReceiverCall.run call h)) =
        (s.drop call.ask).fetch FixedHeader.nextFrame := by
      rw [event, hslice]
      rfl
    refine ⟨⟨holds.sound.remaining_eq, fun buf' hbuf' => ?_⟩, fun _ => ?_⟩
    · obtain rfl : buf = buf' := by simpa [hslice] using hbuf'
      rw [hstep, hbuf]
      refine ⟨f, hf, hholds.held_front hf, ?_, ?_⟩
      · rw [← hholds.sound.remaining_eq]
        exact List.prefix_append _ _
      · have hframe := hholds.frame
        rw [hf] at hframe
        exact (hholds.sound.inv.known _ hframe).2
    · rw [hstep, hfinal]
      exact hholds

theorem calls_track_inbox {schedule : Input}
    (new : Reader.withCapacity schedule capacity = some h.inner)
    (nonempty : Schedule.NonemptyChunks schedule) (blocking : OnlyWouldBlock schedule)
    (script : List ReceiverCall) (uncut : ∀ r ∈ readers script h, r.Uncut)
    (kept : ∀ c ∈ receives script h, LeavesNoFrame c) :
    Tracks (fun c s => Inbox.step FixedHeader.nextFrame (event c) s) Follows
      ⟨none, Schedule.payload schedule⟩ (receives script h) := by
  refine tracks_of_log (R := fun s h => h.inner.Holds capacity s)
    (P := fun c => (∀ r ∈ c.input.reads c.before, r.Uncut) ∧ LeavesNoFrame c)
    (fun s call h holds hcall => follows_step holds hcall)
    (Reader.holds_new new nonempty blocking) fun c hc => ⟨fun r hr => ?_, kept c hc⟩
  exact uncut r (List.mem_flatMap.2 ⟨c, hc, hr⟩)

theorem follows_before {pre post : List (Received Input W)} {c : Received Input W}
    (tracks : Tracks (fun c s => Inbox.step FixedHeader.nextFrame (event c) s) Follows s
      (pre ++ c :: post)) :
    Follows (s.run FixedHeader.nextFrame (pre.map event)) c := by
  rw [Inbox.run, List.foldl_map]
  exact tracks.before

/-- Every run in which no `read` is cut and no failed call leaves a frame does what the inbox of the
stream does. -/
theorem calls_follow_inbox {schedule : Input}
    (new : Reader.withCapacity schedule capacity = some h.inner)
    (nonempty : Schedule.NonemptyChunks schedule) (blocking : OnlyWouldBlock schedule)
    (script : List ReceiverCall) (uncut : ∀ r ∈ readers script h, r.Uncut)
    (kept : ∀ c ∈ receives script h, LeavesNoFrame c) :
    ∀ pre c post, receives script h = pre ++ c :: post →
      Follows ((⟨none, Schedule.payload schedule⟩ : Inbox UInt8).run FixedHeader.nextFrame
        (pre.map event)) c := by
  intro pre c post hrun
  have htracks := calls_track_inbox new nonempty blocking script uncut kept
  rw [hrun] at htracks
  exact follows_before htracks

/-- In such a run the slice of a call begins with a frame `f`: the last one of the frames delivered
up to then, which are the first ones of the stream, in order.  For `recv` it is a new one. -/
theorem frames_once {schedule : Input}
    (new : Reader.withCapacity schedule capacity = some h.inner)
    (nonempty : Schedule.NonemptyChunks schedule) (blocking : OnlyWouldBlock schedule)
    (script : List ReceiverCall) (uncut : ∀ r ∈ readers script h, r.Uncut)
    (kept : ∀ c ∈ receives script h, LeavesNoFrame c) :
    ∀ pre c post, receives script h = pre ++ c :: post → ∀ buf, slice c = .ok buf →
      ∃ f rest, f <+: buf ∧ buf.length ≤ max Reader.MIN f.length ∧
        (frames (pre ++ [c]) schedule).getLast? = some f ∧
        cut FixedHeader.nextFrame (frames (pre ++ [c]) schedule).length
          (Schedule.payload schedule) = .ok (frames (pre ++ [c]) schedule, rest) ∧
        (c.input.ask = .next →
          frames (pre ++ [c]) schedule = frames pre schedule ++ [f]) := by
  intro pre c post hrun buf hbuf
  have htracks := calls_track_inbox new nonempty blocking script uncut kept
  rw [hrun] at htracks
  obtain ⟨f, hf, hfront, -, hlen⟩ := (follows_before htracks).delivered buf hbuf
  have hmap : (pre ++ [c]).map event = pre.map event ++ [event c] := List.map_append
  have hheld : ((⟨none, Schedule.payload schedule⟩ : Inbox UInt8).run FixedHeader.nextFrame
      ((pre ++ [c]).map event)).held = some f := by
    rw [hmap, Inbox.run_append]
    exact hf
  refine ⟨f, _, hfront, hlen, Inbox.held_run rfl hheld, Inbox.cut_fresh _ _, fun hask => ?_⟩
  rw [frames, hmap, Inbox.fresh_append]
  refine congrArg (frames pre schedule ++ ·) ?_
  rw [Inbox.fresh, Inbox.fresh, List.append_nil, Inbox.delivers, hf,
    show (event c).1 = .next from hask]
  rfl

end Connection

theorem Connection.calls_follow_inbox_two :
    letI := Target.debug
    letI schedule : Input := [.chunk [0x20, 2, 0, 0], .fail .wouldBlock, .chunk [0xD0],
      .fail .wouldBlock, .chunk [0]]
    letI h : ReaderHalf Input (List UInt8) := ⟨⟨[0, 0, 0, 0, 0], 0, none, 0, schedule⟩,
      ⟨false, []⟩, List.replicate 4 ⟨id, .ok [.timer true, .reader]⟩⟩
    letI c := Call.of ReceiverCall.run (.connect ConnectBuilder.withEmptyClientId) h
    letI d := Call.of ReceiverCall.run .recv c.after
    Connection.Follows ((⟨none, Schedule.payload schedule⟩ : Inbox UInt8).run FixedHeader.nextFrame
      [Connection.event c]) d := by
  refine @Connection.calls_follow_inbox _ Target.debug _ 5 ⟨⟨[0, 0, 0, 0, 0], 0, none, 0, _⟩,
      ⟨false, []⟩, List.replicate 4 ⟨id, .ok [.timer true, .reader]⟩⟩ _ rfl
    (by simp [Schedule.NonemptyChunks]) (by simp [OnlyWouldBlock])
    [.connect ConnectBuilder.withEmptyClientId, .recv] ?_ ?_ [_] _ [] ?_
  · decide +kernel
  · simp only [Connection.LeavesNoFrame]
    decide +kernel
  · simp only [Connection.receives, log]
    rw [if_neg (by decide +kernel), if_neg (by decide +kernel)]
    rfl

theorem Connection.frames_once_two :
    letI := Target.debug
    letI schedule : Input := [.chunk [0x20, 2, 0, 0], .fail .wouldBlock, .chunk [0xD0],
      .fail .wouldBlock, .chunk [0]]
    letI h : ReaderHalf Input (List UInt8) := ⟨⟨[0, 0, 0, 0, 0], 0, none, 0, schedule⟩,
      ⟨false, []⟩, List.replicate 4 ⟨id, .ok [.timer true, .reader]⟩⟩
    letI c := Call.of ReceiverCall.run (.connect ConnectBuilder.withEmptyClientId) h
    letI d := Call.of ReceiverCall.run .recv c.after
    ∃ f rest, f <+: [0xD0, 0] ∧ [0xD0, 0].length ≤ max Reader.MIN f.length ∧
      (Connection.frames [c, d] schedule).getLast? = some f ∧
      cut FixedHeader.nextFrame (Connection.frames [c, d] schedule).length
        (Schedule.payload schedule) = .ok (Connection.frames [c, d] schedule, rest) ∧
      (d.input.ask = .next →
        Connection.frames [c, d] schedule = Connection.frames [c] schedule ++ [f]) := by
  refine @Connection.frames_once _ Target.debug _ 5 ⟨⟨[0, 0, 0, 0, 0], 0, none, 0, _⟩,
      ⟨false, []⟩, List.replicate 4 ⟨id, .ok [.timer true, .reader]⟩⟩ _ rfl
    (by simp [Schedule.NonemptyChunks]) (by simp [OnlyWouldBlock])
    [.connect ConnectBuilder.withEmptyClientId, .recv] ?_ ?_ [_] _ [] ?_ _ ?_
  · decide +kernel
  · simp only [Connection.LeavesNoFrame]
    decide +kernel
  · simp only [Connection.receives, log]
    rw [if_neg (by decide +kernel), if_neg (by decide +kernel)]
    rfl
  · decide +kernel

end Mcutt
