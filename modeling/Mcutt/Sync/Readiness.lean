import Mcutt.Sync.Delivery
import Mcutt.Sync.EdgeSocket
import Mcutt.Sync.Rounds

/-!
# Frames that no event announces

`poll` reports the socket once for all the bytes that have arrived, and `poll_event` reads one frame
when it does.  A call of `recv` waits in front of a whole frame, with no event pending, exactly if
nothing has arrived since `poll` returned last and some earlier event was not served: it stood for
more than one frame, or a tick in front of it failed (`EdgeSocket.not_starved_iff`).
-/

namespace Mcutt

open Machine

/-! ## Waiting for the socket -/

/-- One return of `poll`: what the other holders of the writer have done to it, the frames that have
arrived since `poll` was entered, the error it returns or the ticks it reports in front of the event
of the socket and behind it, and what arrives before the next operations on the socket. -/
structure Turn (W : Type) where
  meanwhile : WriterHalf W → WriterHalf W
  burst : Burst
  report : Except IoErrorKind (List Bool × List Bool)
  later : List Burst

namespace EdgeSocket

variable {W : Type}

/-- What is still to come arrives. -/
def settle (s : EdgeSocket) : EdgeSocket := arrive s.coming.flatten { s with coming := [] }

/-- The reader half when `poll` is entered. -/
def enter (h : ReaderHalf EdgeSocket W) : ReaderHalf EdgeSocket W :=
  { h with inner := { h.inner with inner := h.inner.inner.settle } }

/-- The events of one return of `poll`. -/
def reported (before after : List Bool) (ready : Bool) : List PollEvent :=
  before.map .timer ++ (if ready then [.reader] else []) ++ after.map .timer

/-- `poll` reports the socket if an event is pending, which it clears. -/
def wait (t : Turn W) : ReaderHalf.HalfM EdgeSocket W (List PollEvent) := fun self =>
  let socket := { self.inner.inner.arrive t.burst with coming := t.later }
  let writer := t.meanwhile self.writer
  match t.report with
  | .error kind =>
    .error (.fault (.err ⟨.stdIo kind, "while polling"⟩))
      { self with inner := { self.inner with inner := socket }, writer }
  | .ok (before, after) =>
    .ok (reported before after socket.ready)
      { self with inner := { self.inner with inner := { socket with ready := false } }, writer }

section

variable [Target] [Write W]

/-- The `loop` of `poll_event`, which enters `poll` before each of its returns and is waiting there
when the script is over. -/
def pollLoop : List (Turn W) → ReaderHalf.HalfM EdgeSocket W Unit :=
  ReaderHalf.pollLoopWith
    (fun t _ => do
      modify enter
      wait t)
    (do
      modify enter
      throw .waiting)

def pollEvent (turns : List (Turn W)) : ReaderHalf.HalfM EdgeSocket W (List UInt8) :=
  ReaderHalf.pollEventWith (pollLoop turns)

def recv (turns : List (Turn W)) : ReaderHalf.HalfM EdgeSocket W Packet :=
  ReaderHalf.recvWith (pollEvent turns)

/-- Calls of `recv`, each with what `poll` is going to do. -/
def calls (scripts : List (List (Turn W))) (h : ReaderHalf EdgeSocket W) :
    List (Call (List (Turn W)) Stop (ReaderHalf EdgeSocket W) Packet) :=
  log ReaderHalf.stops recv scripts h

end

/-! ## Events and frames -/

/-- An event is pending exactly if frames are unread; once one was missed, a frame is unread that no
event is going to announce. -/
def Level (missed : Prop) (frames : Burst) (ready : Bool) : Prop :=
  (¬ missed → (ready = true ↔ frames ≠ [])) ∧
    (missed → frames ≠ [] ∧ (ready = true → 2 ≤ frames.length))

theorem Level.ne_nil {missed : Prop} {frames : Burst} (h : Level missed frames true) :
    frames ≠ [] := by
  by_cases hm : missed
  · exact (h.2 hm).1
  · exact (h.1 hm).1 rfl

theorem Level.arrive {missed : Prop} {frames : Burst} {ready : Bool}
    (h : Level missed frames ready) (burst : Burst) :
    Level missed (frames ++ burst) (ready || !burst.isEmpty) := by
  cases burst with
  | nil => simpa using h
  | cons f burst =>
    refine ⟨fun _ => by simp, fun hm => ⟨by simp, fun _ => ?_⟩⟩
    have hpos := List.length_pos_iff.2 (h.2 hm).1
    rw [List.length_append, List.length_cons]
    omega

theorem Level.serve {missed served : Prop} {f : List UInt8} {frames : Burst}
    (level : Level missed (f :: frames) true)
    (hserved : served ↔ frames = []) : Level (missed ∨ ¬ served) frames false := by
  constructor
  · intro hm
    rw [not_or, not_not] at hm
    simp [hserved.1 hm.2]
  · rintro (hm | hm)
    · have hlen := (level.2 hm).2 rfl
      refine ⟨?_, by simp⟩
      rintro rfl
      simp at hlen
    · exact ⟨fun hnil => hm (hserved.2 hnil), by simp⟩

/-! ## Starved readers and served events -/

/-- What was read and not consumed, and what the socket has. -/
def unread (h : ReaderHalf EdgeSocket W) : List UInt8 := h.inner.pending ++ h.inner.inner.queue

/-- A frame that fits the buffer. -/
def Whole [Target] (capacity : ℕ) (f : List UInt8) : Prop :=
  Framing.IsFrame FixedHeader.nextFrame f ∧ f.length ≤ capacity

/-- A whole frame is there and no event is pending. -/
def Starved [Target] (h : ReaderHalf EdgeSocket W) : Prop :=
  h.inner.inner.ready = false ∧
    ∃ n, FixedHeader.nextFrame (unread h) = .ok (some n) ∧ n ≤ (unread h).length

section

variable [Target] [Write W]

/-- The event of the socket, if it is reported, stands for one frame, and the loop gets to it. -/
def Served (events : List PollEvent) (h : ReaderHalf EdgeSocket W) : Prop :=
  .reader ∈ events → Framing.IsFrame FixedHeader.nextFrame (unread h) ∧
    ∃ before after h', events = before ++ .reader :: after ∧
      ReaderHalf.handleEvents before h = .ok false h'

/-- All events of the `loop` are served. -/
def LoopServed : List (Turn W) → ReaderHalf EdgeSocket W → Prop
  | [], _ => True
  | t :: turns, h => ∀ events h', wait t (enter h) = .ok events h' → Served events h' ∧
      ∀ h'', ReaderHalf.handleEvents events h' = .ok false h'' → LoopServed turns h''

/-- All events of the call are served. -/
def AllServed (c : Call (List (Turn W)) Stop (ReaderHalf EdgeSocket W) Packet) : Prop :=
  LoopServed c.input c.before.begun

/-! ## What is unread -/

omit [Write W] in
/-- The frames that are unread, of a reader half that knows no frame. -/
structure Holds (capacity : ℕ) (frames : Burst) (h : ReaderHalf EdgeSocket W) : Prop where
  valid : h.inner.Valid
  size : h.inner.buf.length = capacity
  frame : h.inner.frame = none
  drained : h.inner.pending.length < Reader.MIN
  unread : unread h = frames.flatten
  whole : ∀ f ∈ frames, Whole capacity f
  coming : ∀ burst ∈ h.inner.inner.coming, ∀ f ∈ burst, Whole capacity f

omit [Write W] in
/-- A reader half that waits is starved if an event was missed and none is pending. -/
theorem Holds.starved_iff {capacity : ℕ} {frames : Burst} {h : ReaderHalf EdgeSocket W}
    {missed : Prop} (holds : Holds capacity frames h)
    (level : Level missed frames h.inner.inner.ready) :
    Starved h ↔ h.inner.inner.ready = false ∧ missed := by
  apply and_congr_right
  intro hready
  rw [holds.unread]
  constructor
  · rintro ⟨n, hn, -⟩
    by_contra hm
    have hnil : frames = [] := by
      by_contra hne
      have := (level.1 hm).2 hne
      rw [hready] at this
      cases this
    rw [hnil] at hn
    cases hn
  · intro hm
    obtain ⟨f, frames, rfl⟩ := List.exists_cons_of_ne_nil (level.2 hm).1
    have hf := (holds.whole f List.mem_cons_self).1
    rw [List.flatten_cons]
    exact ⟨f.length, hf.announced _, by simp⟩

/-- There are frames unread, as many as the events that were missed allow. -/
def Reached (capacity : ℕ) (missed : Prop) (h : ReaderHalf EdgeSocket W) : Prop :=
  ∃ frames, Holds capacity frames h ∧ Level missed frames h.inner.inner.ready

/-- A reader half between two calls, the next of which drops the frame that was read. -/
def Resting (capacity : ℕ) (missed : Prop) (h : ReaderHalf EdgeSocket W) : Prop :=
  h.inner.Valid ∧ Reached capacity missed h.begun

variable {capacity : ℕ} {missed : Prop} {frames : Burst} {h : ReaderHalf EdgeSocket W}

omit [Write W] in
theorem Reached.resting (reached : Reached capacity missed h) : Resting capacity missed h := by
  obtain ⟨frames, holds, level⟩ := reached
  have hbegun : h.begun = h := by rw [ReaderHalf.begun, Reader.consume_of_none holds.frame, final_ok]
  refine ⟨holds.valid, ?_⟩
  rw [hbegun]
  exact ⟨frames, holds, level⟩

omit [Write W] in
/-- Only the socket has changed, by what has arrived. -/
theorem Holds.arrive (holds : Holds capacity frames h) {burst : Burst} {coming : List Burst}
    {ready : Bool} {writer : WriterHalf W}
    (hburst : ∀ f ∈ burst, Whole capacity f) (hcoming : ∀ b ∈ coming, ∀ f ∈ b, Whole capacity f) :
    Holds capacity (frames ++ burst) { h with
      inner := { h.inner with
        inner := ⟨h.inner.inner.queue ++ burst.flatten, ready, coming⟩ }, writer } where
  valid := ⟨holds.valid.min_le, holds.valid.pos_le, holds.valid.filled_le, holds.valid.known⟩
  size := holds.size
  frame := holds.frame
  drained := holds.drained
  unread := by
    rw [List.flatten_append, ← holds.unread]
    exact (List.append_assoc _ _ _).symm
  whole f hf := (List.mem_append.1 hf).elim (holds.whole f) (hburst f)
  coming := hcoming

omit [Write W] in
theorem Reached.enter (reached : Reached capacity missed h) :
    Reached capacity missed (enter h) := by
  obtain ⟨frames, holds, level⟩ := reached
  refine ⟨frames ++ h.inner.inner.coming.flatten, holds.arrive ?_ (by simp), level.arrive _⟩
  intro f hf
  obtain ⟨burst, hburst, hf⟩ := List.mem_flatten.1 hf
  exact holds.coming burst hburst f hf

/-- What arrives are frames that fit the buffer. -/
structure WholeTurn (capacity : ℕ) (t : Turn W) : Prop where
  burst : ∀ f ∈ t.burst, Whole capacity f
  later : ∀ b ∈ t.later, ∀ f ∈ b, Whole capacity f

omit [Write W] in
theorem wait_cases (reached : Reached capacity missed h) {t : Turn W}
    (whole : WholeTurn capacity t) :
    (∃ f h', wait t h = .error (.fault f) h' ∧ Reached capacity missed h') ∨
      ∃ before after ready frames h', wait t h = .ok (reported before after ready) h' ∧
        Holds capacity frames h' ∧ h'.inner.inner.ready = false ∧ Level missed frames ready := by
  obtain ⟨frames, holds, level⟩ := reached
  have level' := level.arrive t.burst
  unfold wait
  rcases t.report with kind | ⟨before, after⟩
  · exact .inl ⟨_, _, rfl, _, holds.arrive whole.burst whole.later, level'⟩
  · exact .inr ⟨before, after, _, _, _, rfl, holds.arrive whole.burst whole.later, rfl, level'⟩

/-! ## One list of events -/

omit [Write W] in
theorem Holds.writer (holds : Holds capacity frames h) (writer : WriterHalf W) :
    Holds capacity frames { h with writer } :=
  ⟨holds.valid, holds.size, holds.frame, holds.drained, holds.unread, holds.whole, holds.coming⟩

/-- A tick changes the writer half only. -/
theorem timerEvent_cases (read : Bool) (h : ReaderHalf EdgeSocket W) :
    ∃ writer, ReaderHalf.timerEvent read h = .ok () { h with writer } ∨
      ∃ f, ReaderHalf.timerEvent read h = .error (.fault f) { h with writer } := by
  cases read with
  | false => exact ⟨h.writer, .inr ⟨_, rfl⟩⟩
  | true =>
    simp only [ReaderHalf.timerEvent, if_true, ReaderHalf.onWriter]
    cases WriterHalf.handlePing h.writer with
    | ok u writer => exact ⟨writer, .inl rfl⟩
    | error e writer => exact ⟨writer, .inr ⟨e, rfl⟩⟩

theorem handleEvents_ticks (reads : List Bool) (h : ReaderHalf EdgeSocket W) :
    ∃ writer, ReaderHalf.handleEvents (reads.map .timer) h = .ok false { h with writer } ∨
      ∃ f, ReaderHalf.handleEvents (reads.map .timer) h = .error (.fault f) { h with writer } := by
  induction reads generalizing h with
  | nil => exact ⟨h.writer, .inl rfl⟩
  | cons read reads ih =>
    simp only [List.map_cons, ReaderHalf.handleEvents, bind_apply]
    obtain ⟨writer, htick | ⟨f, htick⟩⟩ := timerEvent_cases read h
    · simp only [htick]
      exact ih { h with writer }
    · simp only [htick]
      exact ⟨writer, .inr ⟨f, rfl⟩⟩

theorem handleEvents_append (events events' : List PollEvent) :
    (ReaderHalf.handleEvents (events ++ events') : ReaderHalf.HalfM EdgeSocket W Bool) =
      ReaderHalf.handleEvents events >>= fun done =>
        if done then pure true else ReaderHalf.handleEvents events' := by
  induction events with
  | nil => rfl
  | cons event events ih =>
    cases event with
    | reader =>
      simp only [List.cons_append, ReaderHalf.handleEvents, ih, bind_assoc]
      apply bind_congr
      intro done
      cases done <;> rfl
    | timer read => simp only [List.cons_append, ReaderHalf.handleEvents, ih, bind_assoc]

omit [Write W] in
/-- `read` takes the frame in front, and the next `consume` drops it. -/
theorem Holds.readerEvent {f : List UInt8} (holds : Holds capacity (f :: frames) h) :
    ∃ h' burst, ReaderHalf.readerEvent h = .ok true h' ∧ h'.inner.Valid ∧
      Holds capacity (frames ++ burst) h'.begun ∧
      h'.begun.inner.inner.ready = (h.inner.inner.ready || !burst.isEmpty) := by
  have hwhole := holds.whole f List.mem_cons_self
  have hunread : h.inner.view.unread = f ++ frames.flatten := holds.unread
  obtain ⟨v, burst, hread, hsize, hframe, hdrained, harrived, hrest⟩ :=
    View.consume_edge hwhole.1 hunread holds.frame holds.drained
      (hwhole.2.trans_eq holds.size.symm)
  obtain ⟨hout, valid, hview⟩ := holds.valid.read
  rw [hread] at hout hview
  cases hr : Reader.read h.inner with
  | error e r =>
    rw [hr] at hout
    cases hout
  | ok slice r =>
    rw [hr, final_ok] at valid hview
    obtain ⟨valid', hconsumed⟩ := valid.consume
    rw [hview, final_ok] at hconsumed
    rw [← hconsumed] at hsize hframe hdrained harrived hrest
    obtain ⟨bursts, hcoming, rfl⟩ := harrived.coming
    have hcoming : h.inner.inner.coming =
      bursts ++ (ReaderHalf.begun { h with inner := r }).inner.inner.coming := hcoming
    refine ⟨{ h with inner := r }, bursts.flatten, ?_, valid,
      ⟨valid', hsize.trans holds.size, hframe, hdrained, ?_, ?_, ?_⟩, harrived.ready⟩
    · simp only [ReaderHalf.readerEvent, hr]
    · rw [List.flatten_append]
      exact hrest
    · intro g hg
      rcases List.mem_append.1 hg with hg | hg
      · exact holds.whole g (List.mem_cons_of_mem _ hg)
      · obtain ⟨b, hb, hg⟩ := List.mem_flatten.1 hg
        exact holds.coming b (hcoming ▸ List.mem_append_left _ hb) g hg
    · exact fun b hb => holds.coming b (hcoming ▸ List.mem_append_right _ hb)

/-- With the ticks in front of it handled, the event is served if there is no second frame. -/
theorem Holds.served_iff {f : List UInt8} {before after : List Bool}
    {h' : ReaderHalf EdgeSocket W} (holds : Holds capacity (f :: frames) h)
    (hticks : ReaderHalf.handleEvents (before.map .timer) h = .ok false h') :
    Served (reported before after true) h ↔ frames = [] := by
  have hf := (holds.whole f List.mem_cons_self).1
  have hunread := holds.unread
  rw [List.flatten_cons] at hunread
  constructor
  · intro served
    obtain ⟨hframe, -⟩ := served (by simp [reported])
    rw [← List.append_nil (EdgeSocket.unread h)] at hunread
    obtain ⟨-, hnil⟩ := hframe.append_inj hf hunread
    cases frames with
    | nil => rfl
    | cons g frames =>
      have hg := (holds.whole g (by simp)).1.nonempty
      rw [List.flatten_cons, eq_comm, List.append_eq_nil_iff] at hnil
      exact absurd hnil.1 hg
  · rintro rfl -
    rw [List.flatten_nil, List.append_nil] at hunread
    refine ⟨hunread ▸ hf, before.map .timer, after.map .timer, h', ?_, hticks⟩
    simp [reported]

/-- An event behind a tick that fails is not served. -/
theorem not_served {before after : List Bool} {e : Stop} {h' : ReaderHalf EdgeSocket W}
    (hticks : ReaderHalf.handleEvents (before.map .timer) h = .error e h') :
    ¬ Served (reported before after true) h := by
  intro served
  obtain ⟨-, before', after', h₂, heq, hok⟩ := served (by simp [reported])
  have hlist : before.map .timer ++ .reader :: after.map .timer = before' ++ .reader :: after' := by
    simpa [reported] using heq
  have hlast : PollEvent.reader ∉ after.map .timer := by simp
  have hfirst : PollEvent.reader ∉ before.map .timer := by simp
  obtain ⟨rfl, -⟩ := (List.append_cons_inj_of_notMem hfirst hlast).1 hlist
  rw [hticks] at hok
  cases hok

/-- The events of one return of `poll` are handled up to the frame, the end or a tick that fails. -/
theorem Holds.handleEvents (holds : Holds capacity frames h) (hready : h.inner.inner.ready = false)
    {ready : Bool} (level : Level missed frames ready) (before after : List Bool) :
    (∃ h', ReaderHalf.handleEvents (reported before after ready) h = .ok true h' ∧
        Resting capacity (missed ∨ ¬ Served (reported before after ready) h) h') ∨
      (∃ h', ReaderHalf.handleEvents (reported before after ready) h = .ok false h' ∧
        Reached capacity (missed ∨ ¬ Served (reported before after ready) h) h') ∨
      ∃ f h', ReaderHalf.handleEvents (reported before after ready) h = .error (.fault f) h' ∧
        Reached capacity (missed ∨ ¬ Served (reported before after ready) h) h' := by
  cases ready with
  | false =>
    have hevents : reported before after false = (before ++ after).map .timer := by
      simp [reported]
    have hserved : Served (reported before after false) h := by
      intro hmem
      simp [hevents] at hmem
    have level' : Level (missed ∨ ¬ Served (reported before after false) h) frames
        h.inner.inner.ready := by
      rw [hready, or_iff_left (not_not.2 hserved)]
      exact level
    rw [hevents] at level' ⊢
    obtain ⟨writer, hticks | ⟨f, hticks⟩⟩ := handleEvents_ticks (before ++ after) h
    · exact .inr (.inl ⟨_, hticks, frames, holds.writer writer, level'⟩)
    · exact .inr (.inr ⟨f, _, hticks, frames, holds.writer writer, level'⟩)
  | true =>
    obtain ⟨f, frames, rfl⟩ := List.exists_cons_of_ne_nil level.ne_nil
    have hevents : reported before after true =
        before.map .timer ++ (.reader :: after.map .timer) := by
      simp [reported]
    obtain ⟨writer, hticks | ⟨e, hticks⟩⟩ := handleEvents_ticks before h
    · left
      obtain ⟨h', burst, hread, valid, holds', hready'⟩ := (holds.writer writer).readerEvent
      refine ⟨h', ?_, valid, frames ++ burst, holds', ?_⟩
      · rw [hevents, handleEvents_append, bind_apply, hticks]
        simp [ReaderHalf.handleEvents, hread]
      · rw [hready', show ({ h with writer } : ReaderHalf EdgeSocket W).inner.inner.ready = false
          from hready]
        exact (level.serve (holds.served_iff hticks)).arrive burst
    · right
      right
      refine ⟨e, _, ?_, f :: frames, holds.writer writer, ?_⟩
      · rw [hevents, handleEvents_append, bind_apply, hticks]
      · have hmissed : missed ∨ ¬ Served (reported before after true) h := .inr (not_served hticks)
        refine ⟨fun hm => absurd hmissed hm, fun _ => ⟨by simp, fun hr => ?_⟩⟩
        rw [show ({ h with writer } : ReaderHalf EdgeSocket W).inner.inner.ready = false
          from hready] at hr
        cases hr

/-! ## Runs -/

omit [Write W] in
theorem Reached.congr {missed' : Prop} (reached : Reached capacity missed h)
    (hiff : missed ↔ missed') : Reached capacity missed' h := by
  rwa [← propext hiff]

omit [Write W] in
theorem Resting.congr {missed' : Prop} (resting : Resting capacity missed h)
    (hiff : missed ↔ missed') : Resting capacity missed' h := by
  rwa [← propext hiff]

theorem loopServed_cons {t : Turn W} {turns : List (Turn W)} {events : List PollEvent}
    {h' : ReaderHalf EdgeSocket W} (hwait : wait t (enter h) = .ok events h') :
    LoopServed (t :: turns) h ↔ Served events h' ∧
      ∀ h'', ReaderHalf.handleEvents events h' = .ok false h'' → LoopServed turns h'' := by
  constructor
  · intro hserved
    exact hserved events h' hwait
  · intro hserved events' h₁ heq
    rw [hwait, EStateM.Result.ok.injEq] at heq
    obtain ⟨rfl, rfl⟩ := heq
    exact hserved

/-- The `loop` ends with a frame, which the next `consume` drops, or without one. -/
theorem Reached.pollLoop {turns : List (Turn W)} (whole : ∀ t ∈ turns, WholeTurn capacity t)
    (reached : Reached capacity missed h) :
    (∃ h', pollLoop turns h = .ok ⟨⟩ h' ∧
        Resting capacity (missed ∨ ¬ LoopServed turns h) h') ∨
      ∃ e h', pollLoop turns h = .error e h' ∧
        Reached capacity (missed ∨ ¬ LoopServed turns h) h' := by
  induction turns generalizing missed h with
  | nil => exact .inr ⟨_, _, rfl, reached.enter.congr (by simp [LoopServed])⟩
  | cons t turns ih =>
    obtain ⟨ht, hturns⟩ := List.forall_mem_cons.1 whole
    simp only [EdgeSocket.pollLoop, ReaderHalf.pollLoopWith, bind_apply, modify_apply]
    rcases wait_cases reached.enter ht with ⟨f, h', hwait, reached'⟩ |
      ⟨before, after, ready, frames, h', hwait, holds, hready, level⟩
    · simp only [hwait]
      have hserved : LoopServed (t :: turns) h := by
        intro events h₁ heq
        rw [hwait] at heq
        cases heq
      exact .inr ⟨_, _, rfl, reached'.congr (by simp [hserved])⟩
    · simp only [hwait, loopServed_cons hwait]
      rcases holds.handleEvents hready level before after with ⟨h'', hevents, reached'⟩ |
        ⟨h'', hevents, reached'⟩ | ⟨f, h'', hevents, reached'⟩
      · simp only [hevents, if_true, pure_apply]
        exact .inl ⟨_, rfl, reached'.congr (by simp)⟩
      · simp only [hevents, Bool.false_eq_true, if_false]
        have hiff : (missed ∨ ¬ Served (reported before after ready) h') ∨ ¬ LoopServed turns h'' ↔
            missed ∨ ¬ (Served (reported before after ready) h' ∧
              ∀ h₁, EStateM.Result.ok false h'' = (EStateM.Result.ok false h₁ :
                EStateM.Result Stop _ _) → LoopServed turns h₁) := by
          simp only [EStateM.Result.ok.injEq, true_and, forall_eq', not_and_or, or_assoc]
        rw [← hiff]
        exact ih hturns reached'
      · simp only [hevents]
        exact .inr ⟨_, _, rfl, reached'.congr (by simp)⟩

/-- A call leaves the reader half resting, and if it is waiting, with no frame that was read. -/
theorem Resting.recv {turns : List (Turn W)} (whole : ∀ t ∈ turns, WholeTurn capacity t)
    (resting : Resting capacity missed h) :
    Resting capacity (missed ∨ ¬ LoopServed turns h.begun) (final (EdgeSocket.recv turns h)) ∧
      (outcome (EdgeSocket.recv turns h) = .error .waiting →
        Reached capacity (missed ∨ ¬ LoopServed turns h.begun)
          (final (EdgeSocket.recv turns h))) := by
  have hconsume : ReaderHalf.onReader Reader.consume h = .ok ⟨⟩ h.begun := by
    simp only [ReaderHalf.onReader]
    rw [resting.1.consume_eq]
    rfl
  simp only [EdgeSocket.recv, ReaderHalf.recvWith, pollEvent, ReaderHalf.pollEventWith, bind_apply,
    hconsume]
  rcases resting.2.pollLoop whole with ⟨h', hloop, resting'⟩ | ⟨e, h', hloop, reached'⟩
  · have valid := resting'.1
    simp only [hloop, ReaderHalf.onReader, valid.buff_eq, ReaderHalf.onExec]
    cases Mcutt.consume Packet.parse h'.inner.pending with
    | ok packet => exact ⟨resting', fun hwaiting => by cases hwaiting⟩
    | error e => exact ⟨resting', fun hwaiting => by cases hwaiting⟩
  · simp only [hloop]
    exact ⟨reached'.resting, fun _ => reached'⟩

/-- In front of a call that waits, the missed events are those of the calls before. -/
theorem Resting.calls {scripts : List (List (Turn W))}
    (whole : ∀ turns ∈ scripts, ∀ t ∈ turns, WholeTurn capacity t)
    (resting : Resting capacity missed h)
    {c : Call (List (Turn W)) Stop (ReaderHalf EdgeSocket W) Packet} (hc : c ∈ calls scripts h)
    (hwaiting : c.result = .error .waiting) :
    Reached capacity (missed ∨ ∃ d ∈ calls scripts h, ¬ AllServed d) c.after := by
  induction scripts generalizing missed h with
  | nil => cases hc
  | cons turns scripts ih =>
    obtain ⟨hturns, hscripts⟩ := List.forall_mem_cons.1 whole
    obtain ⟨resting', reached'⟩ := resting.recv hturns
    rw [EdgeSocket.calls, log] at hc ⊢
    rcases List.mem_cons.1 hc with rfl | hc
    · have hstops : ReaderHalf.stops (outcome (EdgeSocket.recv turns h)) = true := by
        rw [show outcome (EdgeSocket.recv turns h) = .error .waiting from hwaiting]
        rfl
      apply (reached' hwaiting).congr
      simp [hstops, AllServed]
    · split_ifs at hc ⊢ with hstops
      · cases hc
      · apply (ih hscripts resting' hc).congr
        simp only [List.mem_cons, exists_eq_or_imp, or_assoc, AllServed, EdgeSocket.calls]

/-- In every run of calls, one that waits has no whole frame in front of it exactly if something
has arrived since `poll` returned last or all events of the run were served. -/
theorem not_starved_iff {coming : List Burst} {writer : WriterHalf W}
    {r : Reader EdgeSocket} (new : Reader.withCapacity ⟨[], false, coming⟩ capacity = some r)
    (fits : ∀ burst ∈ coming, ∀ f ∈ burst, Whole capacity f)
    {scripts : List (List (Turn W))}
    (whole : ∀ turns ∈ scripts, ∀ t ∈ turns, WholeTurn capacity t)
    {c : Call (List (Turn W)) Stop (ReaderHalf EdgeSocket W) Packet}
    (hc : c ∈ calls scripts ⟨r, writer, []⟩) (hwaiting : c.result = .error .waiting) :
    ¬ Starved c.after ↔ c.after.inner.inner.ready = true ∨
      ∀ d ∈ calls scripts ⟨r, writer, []⟩, AllServed d := by
  obtain ⟨valid, hview⟩ := shows_withCapacity new
  have hpending : r.pending = [] := congrArg View.pending hview
  have hinner : r.inner = ⟨[], false, coming⟩ := congrArg View.inner hview
  have holds : Holds capacity [] (⟨r, writer, []⟩ : ReaderHalf EdgeSocket W) :=
    { valid
      size := congrArg View.capacity hview
      frame := congrArg View.frame hview
      drained := by simp [hpending, Reader.MIN]
      unread := by simp [unread, hpending, hinner]
      whole := by simp
      coming := by simpa [hinner] using fits }
  have level : Level False [] r.inner.ready := by simp [Level, hinner]
  have reached : Reached capacity False (⟨r, writer, []⟩ : ReaderHalf EdgeSocket W) :=
    ⟨[], holds, level⟩
  obtain ⟨frames, holds', level'⟩ := reached.resting.calls whole hc hwaiting
  rw [holds'.starved_iff level']
  rw [not_and_or, Bool.not_eq_false]
  simp only [false_or, not_exists, not_and, not_not]

end

end EdgeSocket

/-- One PINGRESP and two calls, the second of which waits. -/
theorem EdgeSocket.not_starved_iff_one :
    letI := Target.debug
    letI h : ReaderHalf EdgeSocket (List UInt8) :=
      ⟨⟨[0, 0, 0, 0, 0], 0, none, 0, ⟨[], false, []⟩⟩, ⟨false, []⟩, []⟩
    letI scripts : List (List (Turn (List UInt8))) :=
      [[⟨id, [[0xD0, 0]], .ok ([true], []), []⟩], []]
    ∃ c ∈ calls scripts h, c.result = .error .waiting ∧
      (¬ Starved c.after ↔
        c.after.inner.inner.ready = true ∨ ∀ d ∈ calls scripts h, AllServed d) := by
  let := Target.debug
  set h : ReaderHalf EdgeSocket (List UInt8) :=
    ⟨⟨[0, 0, 0, 0, 0], 0, none, 0, ⟨[], false, []⟩⟩, ⟨false, []⟩, []⟩ with hh
  set turn : Turn (List UInt8) := ⟨id, [[0xD0, 0]], .ok ([true], []), []⟩ with hturn
  obtain ⟨c, hc, hwaiting⟩ : ∃ c ∈ calls [[turn], []] h, c.result = .error .waiting :=
    ⟨_, next_of_log (by decide +kernel), by decide +kernel⟩
  have hframe : Whole 5 [0xD0, 0] :=
    ⟨⟨by decide, fun rest => FixedHeader.nextFrame_append (b := [0xD0, 0]) (by decide) rest⟩,
      by decide⟩
  have hwhole : WholeTurn 5 turn := ⟨by simpa [hturn] using hframe, by simp [hturn]⟩
  have hscripts : ∀ turns ∈ [[turn], []], ∀ t ∈ turns, WholeTurn 5 t := by simpa using hwhole
  exact ⟨c, hc, hwaiting, EdgeSocket.not_starved_iff rfl (by simp) hscripts hc hwaiting⟩

/-- Two PINGRESP arrive at once, the call that reads the first one takes the event, and the next
call waits in front of the second one. -/
theorem EdgeSocket.second_ping_starved :
    letI := Target.debug
    letI h : ReaderHalf EdgeSocket (List UInt8) :=
      ⟨⟨List.replicate 8192 0, 0, none, 0, ⟨[], false, []⟩⟩, ⟨false, []⟩, []⟩
    ∃ c ∈ calls [[⟨id, [[0xD0, 0], [0xD0, 0]], .ok ([], []), []⟩], []] h,
      c.result = .error .waiting ∧ Starved c.after := by
  let := Target.debug
  refine ⟨_, next_of_log (by decide +kernel), by decide +kernel, by decide +kernel, 2, ?_, ?_⟩
  all_goals decide +kernel

end Mcutt
