import Mcutt.Sync.Half

/-!
# The order of the events of one poll

`poll_event` leaves the loop over the events of a poll as soon as a frame was read or an arm fails,
and the events behind are lost.  A tick of the timer is handled in every order, and what is written
and received does not depend on the order, if the poll returned one event or the socket would block
(`ReaderHalf.orderFree_iff`); a tick behind a frame is dropped.
-/

namespace Mcutt

open Machine

/-! ## Lists of events -/

inductive Token where
  | reader
  | timer
  deriving DecidableEq, Repr

/-- The token of an event. -/
def PollEvent.token : PollEvent → Token
  | reader => .reader
  | timer _ => .timer

/-- Events of which each token has one at most. -/
theorem events_cases {events : List PollEvent} (hne : events ≠ [])
    (hnodup : (events.map PollEvent.token).Nodup) :
    (∃ event, events = [event]) ∨
      ∃ read, events = [.reader, .timer read] ∨ events = [.timer read, .reader] := by
  match events with
  | [event] => exact .inl ⟨event, rfl⟩
  | [.reader, .timer read] => exact .inr ⟨read, .inl rfl⟩
  | [.timer read, .reader] => exact .inr ⟨read, .inr rfl⟩
  | [.reader, .reader] | [.timer _, .timer _] => simp [PollEvent.token] at hnodup
  | a :: b :: c :: events =>
    cases a <;> cases b <;> cases c <;> simp [PollEvent.token] at hnodup

namespace ReaderHalf

variable {R W : Type} [Target] [Read R] [Write W]

/-! ## One list -/

/-- The reader half when `poll` is going to return with these events. -/
def polling (h : ReaderHalf R W) (events : List PollEvent) : ReaderHalf R W :=
  { h with polls := ⟨id, .ok events⟩ :: h.polls }

/-- The loop gets to an event of the timer, and reading the timer gives its bytes. -/
def Pings (h : ReaderHalf R W) (events : List PollEvent) : Prop :=
  ∃ before after h', events = before ++ .timer true :: after ∧ handleEvents before h = .ok false h'

/-- The socket would block before there is a frame. -/
def ReadBlocks (h : ReaderHalf R W) : Prop :=
  ∃ e inner, Reader.read h.inner = .error (.err e) inner ∧ wouldBlock e = true

/-- In whatever order `poll` returns the events, `handle_ping` is called if one of them is of the
timer, and the writer half and the result are the same. -/
structure OrderFree (h : ReaderHalf R W) (events : List PollEvent) : Prop where
  pings : ∀ events', events'.Perm events →
    (Pings h events' ↔ ∃ event ∈ events', event.token = .timer)
  writer : ∀ events', events'.Perm events →
    (final (pollEvent (h.polling events'))).writer = (final (pollEvent (h.polling events))).writer
  result : ∀ events', events'.Perm events →
    outcome (pollEvent (h.polling events')) = outcome (pollEvent (h.polling events))

/-- `poll_event` handles the list first. -/
theorem pollEvent_polling (h : ReaderHalf R W) (events : List PollEvent) :
    pollEvent (h.polling events) = (handleEvents events >>= fun done =>
      (if done then pure () else pollLoop h.polls) >>= fun _ => onReader Reader.buff) h := by
  show (pollLoop (⟨id, .ok events⟩ :: h.polls) >>= fun _ => onReader Reader.buff)
    (h.polling events) = _
  rw [← bind_assoc]
  rfl

omit [Write W] in
theorem readerEvent_of_blocks {h : ReaderHalf R W} {e : Error} {inner : Reader R}
    (hread : Reader.read h.inner = .error (.err e) inner) (hblock : wouldBlock e = true) :
    readerEvent h = .ok false { h with inner } := by
  simp [readerEvent, hread, hblock]

omit [Write W] in
theorem blocks_of_readerEvent {h h' : ReaderHalf R W} (hdone : readerEvent h = .ok false h') :
    ReadBlocks h := by
  unfold readerEvent at hdone
  split at hdone
  · cases hdone
  · next e inner hread =>
    split_ifs at hdone with hblock
    exact ⟨e, inner, hread, hblock⟩
  · cases hdone

def SameWriter (s t : ReaderHalf R W) : Prop := s.writer = t.writer

/-- While the socket blocks, the two arms may be run in either order. -/
theorem ReadBlocks.agree {h : ReaderHalf R W} (blocks : ReadBlocks h) :
    Agree SameWriter Eq (handleEvents [.reader, .timer true] h)
      (handleEvents [.timer true, .reader] h) := by
  obtain ⟨e, inner, hread, hblock⟩ := blocks
  simp only [handleEvents, bind_apply, readerEvent_of_blocks hread hblock, timerEvent, onWriter,
    if_true, Bool.false_eq_true, if_false, pure_apply]
  cases WriterHalf.handlePing h.writer with
  | ok u writer =>
    have hread' : Reader.read ({ h with writer } : ReaderHalf R W).inner =
      .error (.err e) inner := hread
    simp only [readerEvent_of_blocks hread' hblock]
    exact .ok false rfl
  | error e writer => exact .error _ rfl

/-- Two lists that agree give the same writer half and the same result. -/
theorem pollEvent_of_agree {h : ReaderHalf R W} {events events' : List PollEvent}
    (agree : Agree SameWriter Eq (handleEvents events h)
      (handleEvents events' h)) :
    (final (pollEvent (h.polling events))).writer = (final (pollEvent (h.polling events'))).writer ∧
      outcome (pollEvent (h.polling events)) = outcome (pollEvent (h.polling events')) := by
  rw [pollEvent_polling, pollEvent_polling]
  refine (Agree.outcome_eq (agree.bind ?_)).symm
  rintro done s t rfl
  exact .refl (P := SameWriter) (Q := SameWriter) (fun _ => rfl) (fun _ => rfl) _

/-! ## Every order -/

theorem Pings.mem {h : ReaderHalf R W} {events : List PollEvent} (pings : Pings h events) :
    .timer true ∈ events := by
  obtain ⟨before, after, h', rfl, -⟩ := pings
  exact List.mem_append_right _ List.mem_cons_self

theorem pings_timer (h : ReaderHalf R W) (events : List PollEvent) :
    Pings h (.timer true :: events) := ⟨[], events, h, rfl, rfl⟩

/-- A tick behind the event of the socket is handled if the socket blocks. -/
theorem pings_reader_iff {h : ReaderHalf R W} :
    Pings h [.reader, .timer true] ↔ ReadBlocks h := by
  constructor
  · rintro ⟨before, after, h', heq, hdone⟩
    match before with
    | [] => cases heq
    | [event] =>
      obtain ⟨rfl, -⟩ := List.cons.inj heq
      simp only [handleEvents, bind_apply] at hdone
      split at hdone
      · next done s hread =>
        cases done with
        | true => cases hdone
        | false => exact blocks_of_readerEvent hread
      · cases hdone
    | a :: b :: c :: before => simp at heq
  · rintro ⟨e, inner, hread, hblock⟩
    refine ⟨[.reader], [], { h with inner }, rfl, ?_⟩
    simp [handleEvents, readerEvent_of_blocks hread hblock]

/-- A list of one event has one order. -/
theorem orderFree_singleton {h : ReaderHalf R W} {event : PollEvent}
    (hread : event ≠ .timer false) : OrderFree h [event] := by
  have hpings : Pings h [event] ↔ ∃ e ∈ [event], e.token = .timer := by
    cases event with
    | reader =>
      refine iff_of_false (fun pings => ?_) (by simp [PollEvent.token])
      exact absurd pings.mem (by simp)
    | timer read =>
      obtain rfl : read = true := by
        by_contra hne
        exact hread (by rw [Bool.eq_false_of_not_eq_true hne])
      exact iff_of_true (pings_timer h []) ⟨_, List.mem_cons_self, rfl⟩
  constructor
  · intro events' hperm
    obtain rfl := List.perm_singleton.1 hperm
    exact hpings
  · intro events' hperm
    obtain rfl := List.perm_singleton.1 hperm
    rfl
  · intro events' hperm
    obtain rfl := List.perm_singleton.1 hperm
    rfl

/-- Both orders of the two events call `handle_ping` while the socket blocks, and end alike. -/
theorem ReadBlocks.orders {h : ReaderHalf R W} (blocks : ReadBlocks h) {events : List PollEvent}
    (hperm : events.Perm [.reader, .timer true]) :
    Pings h events ∧
      (final (pollEvent (h.polling events))).writer =
        (final (pollEvent (h.polling [.reader, .timer true]))).writer ∧
      outcome (pollEvent (h.polling events)) =
        outcome (pollEvent (h.polling [.reader, .timer true])) := by
  rcases List.perm_pair.1 hperm with rfl | rfl
  · exact ⟨pings_reader_iff.2 blocks, rfl, rfl⟩
  · obtain ⟨hwriter, hresult⟩ := pollEvent_of_agree blocks.agree
    exact ⟨pings_timer h _, hwriter.symm, hresult.symm⟩

theorem ReadBlocks.orderFree {h : ReaderHalf R W} (blocks : ReadBlocks h)
    {events : List PollEvent} (hperm : events.Perm [.reader, .timer true]) :
    OrderFree h events := by
  obtain ⟨-, hwriter, hresult⟩ := blocks.orders hperm
  constructor
  · intro events' hperm'
    have hevents := hperm'.trans hperm
    refine iff_of_true (blocks.orders hevents).1 ⟨.timer true, hevents.mem_iff.2 ?_, rfl⟩
    simp
  · intro events' hperm'
    exact (blocks.orders (hperm'.trans hperm)).2.1.trans hwriter.symm
  · intro events' hperm'
    exact (blocks.orders (hperm'.trans hperm)).2.2.trans hresult.symm

/-- Nothing depends on the order of the events and no tick is lost exactly if every event of the
timer can be read, and there is one event only or the socket would block. -/
theorem orderFree_iff (h : ReaderHalf R W) {events : List PollEvent} (hne : events ≠ [])
    (hnodup : (events.map PollEvent.token).Nodup) :
    OrderFree h events ↔
      PollEvent.timer false ∉ events ∧ (events.length = 1 ∨ ReadBlocks h) := by
  have pair {read : Bool} (hread : PollEvent.timer false ∉ events)
      (hevents : events = [.reader, .timer read] ∨ events = [.timer read, .reader]) :
      events.Perm [.reader, .timer true] := by
    cases read with
    | true => exact List.perm_pair.2 hevents
    | false => rcases hevents with rfl | rfl <;> simp at hread
  constructor
  · intro free
    have hread : PollEvent.timer false ∉ events := by
      intro hmem
      have pings := (free.pings events (.refl _)).2 ⟨_, hmem, rfl⟩
      cases List.inj_on_of_nodup_map hnodup hmem pings.mem rfl
    refine ⟨hread, ?_⟩
    rcases events_cases hne hnodup with ⟨event, rfl⟩ | ⟨read, hevents⟩
    · exact .inl rfl
    · have hperm := (pair hread hevents).symm
      exact .inr (pings_reader_iff.1 ((free.pings _ hperm).2 ⟨.timer true, by simp, rfl⟩))
  · rintro ⟨hread, hone⟩
    rcases events_cases hne hnodup with ⟨event, rfl⟩ | ⟨read, hevents⟩
    · apply orderFree_singleton
      rintro rfl
      exact hread List.mem_cons_self
    · have hperm := pair hread hevents
      rcases hone with hone | blocks
      · rw [hperm.length_eq] at hone
        cases hone
      · exact blocks.orderFree hperm

end ReaderHalf

/-- A tick while the socket has nothing. -/
theorem ReaderHalf.orderFree_iff_blocked :
    letI := Target.debug
    ReaderHalf.OrderFree (⟨⟨List.replicate 8 0, 0, none, 0, [.fail .wouldBlock]⟩, ⟨false, []⟩,
      []⟩ : ReaderHalf Input (List UInt8)) [.reader, .timer true] := by
  let := Target.debug
  refine (ReaderHalf.orderFree_iff _ (by simp) (by decide)).2 ⟨by decide, .inr ?_⟩
  exact ⟨⟨.stdIo .wouldBlock, "while reading"⟩, _, rfl, rfl⟩

/-- A tick behind a frame: the PINGREQ is written in one order only. -/
theorem tick_dropped :
    letI := Target.debug
    letI h : ReaderHalf Input (List UInt8) :=
      ⟨⟨List.replicate 8192 0, 0, none, 0, [.chunk [0xD0, 0]]⟩, ⟨false, []⟩, []⟩
    ¬ ReaderHalf.OrderFree h [.reader, .timer true] ∧
      (final (ReaderHalf.pollEvent (h.polling [.reader, .timer true]))).writer = ⟨false, []⟩ ∧
      (final (ReaderHalf.pollEvent (h.polling [.timer true, .reader]))).writer =
        ⟨false, [0xC0, 0]⟩ := by
  let := Target.debug
  refine ⟨fun free => ?_, by decide +kernel, by decide +kernel⟩
  have writers := free.writer [.timer true, .reader] (.swap _ _ _)
  revert writers
  decide +kernel

end Mcutt
