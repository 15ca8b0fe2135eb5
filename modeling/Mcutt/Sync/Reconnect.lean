import Mcutt.Sync.Receiving

/-!
# Connecting again

`connect` does not drop the frame that was returned before, and `read` returns a frame it has
without reading.  So a `connect` behind a call that got a slice parses that slice again, whatever
the server has sent since (`Connection.connect_replays`).
-/

namespace Mcutt

open Machine

/-- A reader that still has the slice it returned last. -/
structure Reader.Replays {R : Type} [Target] (buf : List UInt8) (inner : R) (r : Reader R) : Prop where
  valid : r.Valid
  pending : r.pending = buf
  inner_eq : r.inner = inner
  whole : ∃ n, r.frame = some n ∧ n ≤ buf.length

section

variable {R W : Type} [Target] [Read R] [Write W] {buf : List UInt8} {inner : R}

theorem Reader.Replays.read {r : Reader R} (h : r.Replays buf inner) :
    outcome (Reader.read r) = .ok buf ∧ (final (Reader.read r)).Replays buf inner := by
  obtain ⟨n, hf, hle⟩ := h.whole
  obtain ⟨hout, hvalid, hview⟩ := h.valid.read_of_whole hf (h.pending ▸ hle)
  rw [h.pending] at hout
  have hpending : (final (Reader.read r)).pending = r.pending := congrArg View.pending hview
  have hinner : (final (Reader.read r)).inner = r.inner := congrArg View.inner hview
  have hframe : (final (Reader.read r)).frame = r.frame := congrArg View.frame hview
  exact ⟨hout, hvalid, hpending.trans h.pending, hinner.trans h.inner_eq, n, hframe.trans hf, hle⟩

theorem Reader.Replays.loopRule (buf : List UInt8) (inner : R) :
    ReaderHalf.LoopRule (Reader.Replays buf inner) (Reader.Replays buf inner)
      (Reader.Replays buf inner) := by
  refine ⟨fun r h => h, fun r h => ?_⟩
  obtain ⟨hout, hnext⟩ := h.read
  cases hread : Reader.read r with
  | error e r' =>
    rw [hread] at hout
    cases hout
  | ok slice r' =>
    rw [hread] at hnext
    exact hnext

/-- The event loop keeps a valid reader valid, and the frame it returns is there. -/
theorem Reader.Valid.loopRule : ReaderHalf.LoopRule (Reader.Valid (R := R))
    (fun r => r.Valid ∧ ∃ n, r.frame = some n ∧ n ≤ r.pending.length) Reader.Valid := by
  refine ⟨fun r h => h, fun r h => ?_⟩
  obtain ⟨-, hnext, -⟩ := h.read
  cases hread : Reader.read r with
  | ok slice r' =>
    rw [hread] at hnext
    exact ⟨hnext, h.whole_of_read hread⟩
  | error e r' =>
    rw [hread] at hnext
    cases e with
    | err e =>
      simp only
      split_ifs <;> exact hnext
    | panicked msg => exact hnext

namespace Connection

variable {h : ReaderHalf R W}

omit [Read R] in
theorem enter_valid (call : ReceiverCall) (valid : h.inner.Valid) :
    (final (call.enter h)).inner.Valid := by
  cases call with
  | connect value =>
    show (final (ReaderHalf.onWriter (WriterHalf.connect value) h)).inner.Valid
    unfold ReaderHalf.onWriter
    cases WriterHalf.connect value h.writer <;> exact valid
  | recv =>
    have hconsume := valid.consume.1
    show (final (ReaderHalf.onReader Reader.consume h)).inner.Valid
    unfold ReaderHalf.onReader
    cases heq : Reader.consume h.inner <;> rw [heq] at hconsume <;> exact hconsume

/-- Every call leaves a valid reader, which has the slice if the call got one. -/
theorem polled_valid (call : ReceiverCall) (valid : h.inner.Valid) :
    (final (call.polled h)).inner.Valid ∧ ∀ buf, outcome (call.polled h) = .ok buf →
      (final (call.polled h)).inner.Replays buf (final (call.polled h)).inner.inner := by
  have henter := enter_valid call valid
  rw [ReceiverCall.polled, bind_apply]
  cases heq : call.enter h with
  | error e h' =>
    rw [heq] at henter
    exact ⟨henter, by rintro buf ⟨⟩⟩
  | ok u h' =>
    rw [heq] at henter
    have hpoll := Reader.Valid.loopRule.pollEvent (W := W) (fun r h => h.1) h' henter
    simp only
    cases hevent : ReaderHalf.pollEvent h' with
    | error e h'' =>
      rw [hevent] at hpoll
      exact ⟨hpoll, by rintro buf ⟨⟩⟩
    | ok buf h'' =>
      rw [hevent] at hpoll
      obtain ⟨⟨hvalid, hwhole⟩, rfl⟩ := hpoll
      refine ⟨hvalid, fun buf hbuf => ?_⟩
      obtain rfl : h''.inner.pending = buf := by simpa using hbuf
      exact ⟨hvalid, rfl, rfl, hwhole⟩

/-- `connect` returns what is still there, and does not read. -/
theorem connect_replay (value : ConnectBuilder) (replays : h.inner.Replays buf inner) :
    (final ((ReceiverCall.connect value).polled h)).inner.Replays buf inner ∧
      ∀ buf', outcome ((ReceiverCall.connect value).polled h) = .ok buf' → buf' = buf := by
  rw [ReceiverCall.polled, bind_apply, ReceiverCall.enter]
  have henter : (final (ReaderHalf.onWriter (WriterHalf.connect value) h)).inner.Replays buf
      inner := by
    unfold ReaderHalf.onWriter
    cases WriterHalf.connect value h.writer <;> exact replays
  cases heq : ReaderHalf.onWriter (WriterHalf.connect value) h with
  | error e h' =>
    rw [heq] at henter
    exact ⟨henter, by rintro buf' ⟨⟩⟩
  | ok u h' =>
    rw [heq] at henter
    have hpoll := (Reader.Replays.loopRule buf inner).pollEvent (W := W) (fun r h => h.valid) h'
      henter
    simp only
    cases hevent : ReaderHalf.pollEvent h' with
    | error e h'' =>
      rw [hevent] at hpoll
      exact ⟨hpoll, by rintro buf' ⟨⟩⟩
    | ok buf'' h'' =>
      rw [hevent] at hpoll
      obtain ⟨hreplays, rfl⟩ := hpoll
      refine ⟨hreplays, fun buf' hbuf' => ?_⟩
      obtain rfl : h''.inner.pending = buf' := by simpa using hbuf'
      exact hreplays.pending

/-- Behind a call that got a slice, whatever it was, every `connect` before the next `recv` parses
that slice again and leaves the socket unread. -/
theorem connect_replays {capacity : ℕ} (new : Reader.withCapacity inner capacity = some h.inner)
    (script : List ReceiverCall) (pre mid post : List (Received R W)) (c d : Received R W)
    (hrun : receives script h = pre ++ c :: (mid ++ d :: post))
    (hmid : ∀ e ∈ mid ++ [d], ∃ value, e.input = .connect value) (hbuf : slice c = .ok buf) :
    d.after.inner.inner = c.after.inner.inner ∧ ∀ buf', slice d = .ok buf' → buf' = buf ∧
      d.result = (Reply.connAck <$> Mcutt.consume ConnAck.parse buf).mapError Stop.fault := by
  have hc : c ∈ receives script h := by
    rw [hrun]
    simp
  have hd : d ∈ receives script h := by
    rw [hrun]
    simp
  have hvalid : c.before.inner.Valid := by
    refine (invariant_of_log (I := fun h : ReaderHalf R W => h.inner.Valid) (P := fun _ _ => True)
      (fun call h hv _ => ?_) (shows_withCapacity new).1 (fun _ _ => trivial) hc).1
    rw [call.final_run]
    exact (polled_valid call hv).1
  have hreplays : c.after.inner.Replays buf c.after.inner.inner := by
    have hslice := (polled_valid c.input hvalid).2 buf hbuf
    rwa [← c.input.final_run, ← (call_of_log hc).2] at hslice
  obtain ⟨rest, hrest⟩ := suffix_of_log hrun
  have hbefore : d.before.inner.Replays buf c.after.inner.inner := by
    refine invariant_before_of_log
      (I := fun h : ReaderHalf R W => h.inner.Replays buf c.after.inner.inner)
      (P := fun call _ => ∃ value, call = .connect value) ?_ hreplays hrest.symm
      fun e he => hmid e (List.mem_append_left _ he)
    rintro call h hr ⟨value, rfl⟩
    rw [ReceiverCall.final_run]
    exact (connect_replay value hr).1
  obtain ⟨value, hvalue⟩ := hmid d (by simp)
  have hconnect := connect_replay value hbefore
  rw [← hvalue] at hconnect
  refine ⟨?_, fun buf' hbuf' => ?_⟩
  · rw [(call_of_log hd).2, d.input.final_run]
    exact hconnect.1.inner_eq
  · obtain rfl := hconnect.2 buf' hbuf'
    refine ⟨rfl, ?_⟩
    rw [result_of_slice hd hbuf', hvalue]
    rfl

end Connection

end

/-- The second of two CONNACKs refuses the connection, and is not seen by the second `connect`. -/
theorem Connection.connect_replays_two :
    letI := Target.debug
    letI h : ReaderHalf Input (List UInt8) := ⟨⟨[0, 0, 0, 0, 0], 0, none, 0,
      [.chunk [0x20, 2, 0, 0], .chunk [0x20, 2, 0, 5]]⟩, ⟨false, []⟩,
      List.replicate 2 ⟨id, .ok [.reader]⟩⟩
    letI call : ReceiverCall := .connect ConnectBuilder.withEmptyClientId
    letI c := Call.of ReceiverCall.run call h
    letI d := Call.of ReceiverCall.run call c.after
    d.after.inner.inner = c.after.inner.inner ∧
      ∀ buf', Connection.slice d = .ok buf' → buf' = [0x20, 2, 0, 0] ∧
        d.result = (Reply.connAck <$> Mcutt.consume (@ConnAck.parse Target.debug)
          [0x20, 2, 0, 0]).mapError Stop.fault := by
  refine @Connection.connect_replays _ _ Target.debug _ _ _ _ ⟨⟨[0, 0, 0, 0, 0], 0, none, 0,
      [.chunk [0x20, 2, 0, 0], .chunk [0x20, 2, 0, 5]]⟩, ⟨false, []⟩,
      List.replicate 2 ⟨id, .ok [.reader]⟩⟩ 5 rfl
    (List.replicate 2 (.connect ConnectBuilder.withEmptyClientId)) [] [] [] _ _ ?_ ?_ ?_
  · simp only [Connection.receives, List.replicate, log]
    rw [if_neg (by decide +kernel)]
    rfl
  · simp [Call.of]
  · decide +kernel

end Mcutt
