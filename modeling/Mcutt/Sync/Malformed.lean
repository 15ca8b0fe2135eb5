import Mcutt.Sync.Leftover
import Mcutt.Sync.Reconnect

/-!
# Behind a malformed header

A header whose remaining length does not end is not dropped when it is found, and no frame is known
that `consume` would drop.  From then on every call that comes to `read` fails in the same way, and
the socket is left unread (`Connection.malformed_stays`).
-/

namespace Mcutt

open Machine

/-- What `read` fails with in front of an overlong header: the assertion of `next_frame`, where
there are assertions. -/
def overlongFault [Target] : Fault :=
  if Target.debugAssertions then .panicked "(self.filled - self.pos) < Self::MIN"
  else .err ⟨.invalid, "remaining length continuation flags require more than 4 bytes"⟩

/-- A reader with an overlong header in front. -/
structure Reader.Stuck {R : Type} [Target] (bytes : List UInt8) (inner : R) (r : Reader R) :
    Prop where
  valid : r.Valid
  frame : r.frame = none
  pending : r.pending = bytes
  inner_eq : r.inner = inner
  overlong : Overlong bytes

section

variable {R W : Type} [Target] [Read R] [Write W] {bytes : List UInt8} {inner : R}

omit [Read R] in
theorem Reader.Stuck.of_view {r r' : Reader R} (h : r.Stuck bytes inner) (valid : r'.Valid)
    (hview : r'.view = r.view) : r'.Stuck bytes inner :=
  ⟨valid, (congrArg View.frame hview).trans h.frame, (congrArg View.pending hview).trans h.pending,
    (congrArg View.inner hview).trans h.inner_eq, h.overlong⟩

/-- `read` fails and changes nothing. -/
theorem View.read_of_overlong {v : View R} (hf : v.frame = none) (h : Overlong v.pending) :
    View.read v = .error overlongFault v := by
  obtain ⟨e, he⟩ := overlong_iff.1 h
  obtain ⟨rfl, t, l, hpending, hl⟩ := FixedHeader.nextFrame_eq_error.1 he
  have hle : (l.takeWhile Varint.more).length ≤ l.length := (List.takeWhile_sublist _).length_le
  have hlen : ¬ v.pending.length < Reader.MIN := by
    rw [hpending, List.length_cons, Reader.MIN, RemainingLength.maxBytes]
    omega
  cases hassert : (Target.debugAssertions : Bool) with
  | true =>
    simp only [View.read, View.currentFrame, View.nextFrame, bind_apply, get_apply, hf, debugAssert,
      hassert, hlen, decide_false, Bool.not_false, Bool.and_true, if_true, overlongFault]
    rfl
  | false =>
    simp only [View.read, View.currentFrame, View.nextFrame, bind_apply, get_apply, hf, debugAssert,
      hassert, Bool.false_and, Bool.false_eq_true, if_false, lift_ok, View.nextFrameLoop_eq, he,
      overlongFault]

theorem Reader.Stuck.read {r : Reader R} (h : r.Stuck bytes inner) :
    outcome (Reader.read r) = .error overlongFault ∧ (final (Reader.read r)).Stuck bytes inner := by
  obtain ⟨hout, hvalid, hview⟩ := h.valid.read
  have hlong : Overlong r.view.pending := by
    rw [show r.view.pending = bytes from h.pending]
    exact h.overlong
  have hread := View.read_of_overlong (v := r.view) h.frame hlong
  rw [hread] at hout hview
  exact ⟨hout, h.of_view hvalid hview⟩

/-! ## The event loop -/

theorem overlongFault_ne_blocked {e : Error} (h : overlongFault = .err e) :
    wouldBlock e = false := by
  unfold overlongFault at h
  split_ifs at h
  cases h
  rfl

theorem Reader.Stuck.read_eq {r : Reader R} (h : r.Stuck bytes inner) :
    ∃ r', Reader.read r = .error overlongFault r' ∧ r'.Stuck bytes inner := by
  obtain ⟨hout, hnext⟩ := h.read
  cases hread : Reader.read r with
  | ok slice r' =>
    rw [hread] at hout
    cases hout
  | error e r' =>
    rw [hread] at hout hnext
    obtain rfl : e = overlongFault := by simpa using hout
    exact ⟨r', rfl, hnext⟩

/-- The loop never gets a slice. -/
theorem Reader.Stuck.loopRule (bytes : List UInt8) (inner : R) :
    ReaderHalf.LoopRule (Reader.Stuck bytes inner) (fun _ => False) (Reader.Stuck bytes inner) := by
  refine ⟨fun r h => h, fun r h => ?_⟩
  obtain ⟨r', hread, hnext⟩ := h.read_eq
  rw [hread]
  rcases hfault : overlongFault with e | msg
  · simp only [overlongFault_ne_blocked hfault, Bool.false_eq_true, if_false]
    exact hnext
  · exact hnext

namespace ReaderHalf

omit [Write W] in
theorem readerEvent_stuck {h : ReaderHalf R W} (stuck : h.inner.Stuck bytes inner) :
    ∃ h', readerEvent h = .error (.fault overlongFault) h' := by
  obtain ⟨r', hread, -⟩ := stuck.read_eq
  unfold readerEvent
  rw [hread]
  rcases hfault : overlongFault with e | msg
  · simp only [overlongFault_ne_blocked hfault, Bool.false_eq_true, if_false]
    exact ⟨_, rfl⟩
  · exact ⟨_, rfl⟩

theorem handleEvents_stuck {events : List PollEvent} {h : ReaderHalf R W}
    (stuck : h.inner.Stuck bytes inner) (hreads : eventReads events h ≠ []) :
    outcome (handleEvents events h) = .error (.fault overlongFault) := by
  induction events generalizing h with
  | nil => exact absurd rfl hreads
  | cons event events ih =>
    cases event with
    | reader =>
      obtain ⟨h', hevent⟩ := readerEvent_stuck stuck
      rw [handleEvents, bind_apply, hevent]
      rfl
    | timer read =>
      have hkeep := timerEvent_triple (W := W) (fun _ h => h) read h stuck
      rw [eventReads] at hreads
      rw [handleEvents, bind_apply]
      cases heq : timerEvent read h with
      | error e h' =>
        rw [heq] at hreads
        exact absurd rfl hreads
      | ok u h' =>
        rw [heq] at hreads hkeep
        exact ih hkeep hreads

theorem pollLoop_stuck {polls : List (Poll W)} {h : ReaderHalf R W}
    (stuck : h.inner.Stuck bytes inner) (hreads : loopReads polls h ≠ []) :
    outcome (pollLoop polls h) = .error (.fault overlongFault) := by
  induction polls generalizing h with
  | nil => exact absurd rfl hreads
  | cons p polls ih =>
    have hpoll := poll_triple (I := Reader.Stuck bytes inner) (fun _ h => h) p polls h stuck
    rw [loopReads] at hreads
    rw [pollLoop_cons, bind_apply]
    cases heq : poll p polls h with
    | error e h' =>
      rw [heq] at hreads
      exact absurd rfl hreads
    | ok events h' =>
      rw [heq] at hreads hpoll
      have hevents := (Reader.Stuck.loopRule bytes inner).handleEvents events h' hpoll
      simp only [bind_apply]
      by_cases hnone : eventReads events h' = []
      · cases hhandle : handleEvents events h' with
        | error e h'' =>
          simp only [hnone, hhandle, List.append_nil] at hreads
          exact absurd rfl hreads
        | ok done h'' =>
          rw [hhandle] at hevents
          cases done with
          | true => exact hevents.elim
          | false =>
            simp only [hnone, hhandle, List.nil_append] at hreads
            exact ih hevents hreads
      · have hfault := handleEvents_stuck hpoll hnone
        cases hhandle : handleEvents events h' with
        | ok done h'' =>
          rw [hhandle] at hfault
          cases hfault
        | error e h'' =>
          obtain rfl : e = .fault overlongFault := by simpa [hhandle] using hfault
          rfl

/-- `poll_event` fails, with the fault of `read` if it comes to it. -/
theorem pollEvent_stuck {h : ReaderHalf R W} (stuck : h.inner.Stuck bytes inner) :
    ∃ stop h', pollEvent h = .error stop h' ∧ h'.inner.Stuck bytes inner ∧
      (loopReads h.polls h ≠ [] → stop = .fault overlongFault) := by
  have hloop := (Reader.Stuck.loopRule bytes inner).pollLoop (W := W) h.polls h stuck
  cases heq : pollLoop h.polls h with
  | ok u h' =>
    rw [heq] at hloop
    exact hloop.elim
  | error stop h' =>
    rw [heq] at hloop
    refine ⟨stop, h', ?_, hloop, fun hreads => ?_⟩
    · simp only [pollEvent, pollEventWith, bind_apply, get_apply, heq]
    · have hfault := pollLoop_stuck stuck hreads
      simpa [heq] using hfault

end ReaderHalf

/-! ## Runs -/

namespace Connection

variable {h : ReaderHalf R W}

omit [Read R] in
theorem enter_stuck (call : ReceiverCall) (stuck : h.inner.Stuck bytes inner) :
    (final (call.enter h)).inner.Stuck bytes inner := by
  cases call with
  | connect value =>
    show (final (ReaderHalf.onWriter (WriterHalf.connect value) h)).inner.Stuck bytes inner
    unfold ReaderHalf.onWriter
    cases WriterHalf.connect value h.writer <;> exact stuck
  | recv =>
    show (final (ReaderHalf.onReader Reader.consume h)).inner.Stuck bytes inner
    rw [ReaderHalf.onReader, Reader.consume_of_none stuck.frame]
    exact stuck

/-- A call fails, with the fault of `read` if it comes to it. -/
theorem run_stuck (call : ReceiverCall) (stuck : h.inner.Stuck bytes inner) :
    (final (call.run h)).inner.Stuck bytes inner ∧ ∃ stop, outcome (call.run h) = .error stop ∧
      (call.reads h ≠ [] → stop = .fault overlongFault) := by
  have henter := enter_stuck call stuck
  rw [call.run_eq, ReceiverCall.polled, bind_apply, ReceiverCall.reads]
  cases heq : call.enter h with
  | error stop h' =>
    rw [heq] at henter
    exact ⟨henter, stop, rfl, fun hreads => absurd rfl hreads⟩
  | ok u h' =>
    rw [heq] at henter
    obtain ⟨stop, h'', hpoll, hnext, hfault⟩ := ReaderHalf.pollEvent_stuck henter
    rw [final_ok] at hpoll hfault
    simp only [hpoll]
    exact ⟨hnext, stop, rfl, hfault⟩

/-- Once an overlong header is in front, every later call fails, with the same fault whenever it
comes to `read`; the header stays where it is, and nothing more is read. -/
theorem malformed_stays {capacity : ℕ} (new : Reader.withCapacity inner capacity = some h.inner)
    (script : List ReceiverCall) (pre post : List (Received R W)) (c : Received R W)
    (hrun : receives script h = pre ++ c :: post) (frame : c.after.inner.frame = none)
    (overlong : Overlong c.after.inner.pending) :
    ∀ d ∈ post, d.after.inner.inner = c.after.inner.inner ∧
      d.after.inner.pending = c.after.inner.pending ∧ ∃ stop, d.result = .error stop ∧
        (d.input.reads d.before ≠ [] → stop = .fault overlongFault) := by
  intro d hd
  have hmem : d ∈ receives script h := by
    rw [hrun]
    exact List.mem_append_right _ (List.mem_cons_of_mem _ hd)
  have valid : c.after.inner.Valid := by
    refine (invariant_of_log (I := fun h : ReaderHalf R W => h.inner.Valid) (P := fun _ _ => True)
      (fun call h hv _ => ?_) (shows_withCapacity new).1 (fun _ _ => trivial)
      (hrun ▸ List.mem_append_right _ List.mem_cons_self : c ∈ receives script h)).2
    rw [call.final_run]
    exact (polled_valid call hv).1
  have stuck : c.after.inner.Stuck c.after.inner.pending c.after.inner.inner :=
    ⟨valid, frame, rfl, rfl, overlong⟩
  obtain ⟨rest, hrest⟩ := suffix_of_log hrun
  rw [hrest] at hd
  have hbefore := (invariant_of_log (I := fun h : ReaderHalf R W =>
      h.inner.Stuck c.after.inner.pending c.after.inner.inner) (P := fun _ _ => True)
    (fun call h hs _ => (run_stuck call hs).1) stuck (fun _ _ => trivial) hd).1
  obtain ⟨hfinal, stop, hout, hfault⟩ := run_stuck d.input hbefore
  obtain ⟨hresult, hafter⟩ := call_of_log hmem
  rw [← hafter] at hfinal
  exact ⟨hfinal.inner_eq, hfinal.pending, stop, hresult.trans hout, hfault⟩

end Connection

end

/-- A PUBLISH whose remaining length does not end, and a PINGRESP that is never read. -/
theorem Connection.malformed_stays_two :
    letI := Target.debug
    letI h : ReaderHalf Input (List UInt8) := ⟨⟨[0, 0, 0, 0, 0], 0, none, 0,
      [.chunk [0x30, 0x80, 0x80, 0x80, 0x80], .chunk [0xD0, 0]]⟩, ⟨false, []⟩,
      List.replicate 2 ⟨id, .ok [.reader]⟩⟩
    letI c := Call.of ReceiverCall.run .recv h
    letI d := Call.of ReceiverCall.run .recv c.after
    d.after.inner.inner = c.after.inner.inner ∧
      d.after.inner.pending = c.after.inner.pending ∧ ∃ stop, d.result = .error stop ∧
        (d.input.reads d.before ≠ [] → stop = .fault overlongFault) := by
  refine @Connection.malformed_stays _ _ Target.debug _ _ _ ⟨⟨[0, 0, 0, 0, 0], 0, none, 0,
      [.chunk [0x30, 0x80, 0x80, 0x80, 0x80], .chunk [0xD0, 0]]⟩, ⟨false, []⟩,
      List.replicate 2 ⟨id, .ok [.reader]⟩⟩ 5 rfl [.recv, .recv] [] [_] _ ?_ rfl ?_ _
    (List.mem_singleton_self _)
  · simp only [Connection.receives, log]
    rw [if_neg (by decide +kernel), if_pos (by decide +kernel)]
    rfl
  · unfold Overlong
    decide +kernel

end Mcutt
