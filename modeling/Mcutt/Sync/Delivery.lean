import Mcutt.Sync.Half

/-!
# Delivered and undelivered frames

`consume` takes every known frame for delivered.  When `poll_event` fails after a header was read
and before its frame was, the next `recv` skips what there is of the frame; when no call of `read`
came upon a header the next `recv` starts where the failed one did
(`ReaderHalf.undelivered_kept_iff`).
-/

namespace Mcutt

open Machine

section

variable [Target]

/-- `read` comes to know a frame exactly if its header is available. -/
theorem View.frame_read_iff {v : View Input} (inv : Inv v)
    (hne : Schedule.NonemptyChunks v.inner) :
    (final (read v)).frame ≠ none ↔
      v.frame ≠ none ∨ ∃ n, FixedHeader.nextFrame v.available = .ok (some n) := by
  by_cases hfound : ∃ n, FixedHeader.nextFrame v.available = .ok (some n)
  · obtain ⟨n, hn⟩ := id hfound
    obtain ⟨v', heq, -, hframe, -⟩ := currentFrame_available inv hne hn
    refine iff_of_true ?_ (.inr hfound)
    simp only [read, bind_apply, heq]
    rw [readFrame_frame, hframe]
    exact Option.some_ne_none n
  · rw [or_iff_left hfound]
    simp only [read, bind_apply]
    rcases currentFrame_cases hne inv with hsearched | ⟨-, e, msg, -, heq⟩
    · cases hcur : currentFrame v with
      | ok n v' => exact absurd ⟨n, available_of_currentFrame inv hne hcur⟩ hfound
      | error e v' =>
        rw [hcur] at hsearched
        cases hsearched with
        | malformed _ frame | ended _ frame | failed _ frame => rw [final_error, frame]
    · rw [heq]
      rfl

namespace Reader

/-- A reader in order, which is still in front of `stream` if it knows no frame. -/
structure Keeps (stream : List UInt8) (r : Reader Input) : Prop where
  valid : r.Valid
  inv : r.view.Inv
  nonempty : Schedule.NonemptyChunks r.inner
  kept : r.frame = none → r.remaining = stream

/-- The bytes that come before the next error or the end make up the fixed header of a frame. -/
def HeaderArrived (r : Reader Input) : Prop :=
  ∃ n, FixedHeader.nextFrame r.view.available = .ok (some n)

/-- A frame that `read` has returned. -/
def Delivered (r : Reader Input) : Prop := ∃ n, r.frame = some n ∧ n ≤ r.pending.length

variable {stream : List UInt8} {r : Reader Input}

theorem Keeps.read (h : Keeps stream r) : Keeps stream (final (Reader.read r)) := by
  obtain ⟨-, valid, hview⟩ := h.valid.read
  have hend := View.read_ends h.nonempty h.inv
  have hahead := hend.ahead.1
  have hkept := hend.kept
  rw [← hview] at hahead hkept
  refine ⟨valid, hview ▸ h.inv.read, hahead.nonempty h.nonempty, fun hf => ?_⟩
  obtain ⟨hframe, hrest⟩ := hkept hf
  exact hrest.trans (h.kept hframe)

theorem Keeps.delivered {slice : List UInt8} {r' : Reader Input} (h : Keeps stream r)
    (hread : Reader.read r = .ok slice r') : slice = r'.pending ∧ Delivered r' := by
  obtain ⟨hout, -, hview⟩ := h.valid.read
  have hend := View.read_ends h.nonempty h.inv
  rw [hread, outcome_ok] at hout
  rw [hread, final_ok] at hview
  cases hv : View.read r.view with
  | ok slice' v' =>
    rw [hv, outcome_ok, Except.ok.injEq] at hout
    rw [hv, final_ok] at hview
    rw [hv, ← hout, ← hview] at hend
    exact hend.frame_of_ok
  | error e v' =>
    rw [hv] at hout
    cases hout

/-- `read` comes to know a frame exactly if its header has arrived. -/
theorem Keeps.frame_read_iff (h : Keeps stream r) :
    (final (Reader.read r)).frame ≠ none ↔ r.frame ≠ none ∨ r.HeaderArrived := by
  obtain ⟨-, -, hview⟩ := h.valid.read
  have hframe : (final (Reader.read r)).frame = (final (View.read r.view)).frame :=
    congrArg View.frame hview
  rw [hframe]
  exact View.frame_read_iff h.inv h.nonempty

/-- The event loop keeps the stream or knows a frame, and knows the frame it returns. -/
theorem Keeps.loopRule : ReaderHalf.LoopRule (Keeps stream)
    (fun r => Keeps stream r ∧ Delivered r) (Keeps stream) := by
  refine ⟨fun r h => h, fun r h => ?_⟩
  have hnext := h.read
  cases hread : Reader.read r with
  | ok slice r' =>
    rw [hread] at hnext
    exact ⟨hnext, (h.delivered hread).2⟩
  | error e r' =>
    rw [hread] at hnext
    cases e with
    | err e =>
      simp only
      split_ifs <;> exact hnext
    | panicked msg => exact hnext

/-- After `consume` no frame is known, and what it skipped is gone. -/
theorem Keeps.consume (h : Keeps stream r) :
    Keeps (final (Reader.consume r)).remaining (final (Reader.consume r)) := by
  obtain ⟨valid, hview⟩ := h.valid.consume
  obtain ⟨hinner, -⟩ := View.consume_inner r.view
  rw [← hview] at hinner
  replace hinner : (final (Reader.consume r)).inner = r.inner := hinner
  exact ⟨valid, hview ▸ h.inv.consume, hinner ▸ h.nonempty, fun _ => rfl⟩

/-- `consume` moves `pos` exactly if a frame is known. -/
theorem Keeps.pos_consume_iff (h : Keeps stream r) :
    (final (Reader.consume r)).pos = r.pos ↔ r.frame = none := by
  cases hf : r.frame with
  | none =>
    rw [Reader.consume_of_none hf]
    exact iff_of_true rfl rfl
  | some n =>
    obtain ⟨hpos, heq⟩ := h.valid.pos_consume hf
    obtain ⟨-, hn⟩ := h.valid.known n hf
    obtain ⟨-, hle, hlen⟩ := FixedHeader.headerLength_le hn
    have h2 : 2 ≤ FixedHeader.headerLength r.pending := Nat.le_add_left 2 _
    refine iff_of_false ?_ (by simp)
    rw [hpos, heq]
    omega

/-- Of a frame that was delivered `consume` skips every byte and no other. -/
theorem Keeps.pos_consume {n : ℕ} (h : Keeps stream r) (hf : r.frame = some n)
    (hn : n ≤ r.pending.length) : (final (Reader.consume r)).pos = r.pos + n := by
  obtain ⟨hpos, heq⟩ := h.valid.pos_consume hf
  rw [hpos, heq, Nat.zero_add, min_eq_left hn]

end Reader

namespace ReaderHalf

variable {W : Type} [Write W]

/-- What `poll_event` returns to `recv`. -/
def polled (h : ReaderHalf Input W) : Except Stop (List UInt8) := outcome (pollEvent h.begun)

/-- After a panic there is no next call, and none while a call waits. -/
def stops {α : Type} : Except Stop α → Bool
  | .error .waiting => true
  | .error (.fault (.panicked _)) => true
  | _ => false

/-- Calls of `recv`. -/
def recvs (n : ℕ) (h : ReaderHalf Input W) : List (Call Unit Stop (ReaderHalf Input W) Packet) :=
  log stops (fun _ => recv) (List.replicate n ()) h

/-- A call that failed in `poll_event`. -/
def PollFailed (c : Call Unit Stop (ReaderHalf Input W) Packet) : Prop :=
  stops c.result = false ∧ ∀ slice, c.before.polled ≠ .ok slice

/-- The next call skips no byte of a frame that `poll_event` failed to return. -/
def KeepsUndelivered (c : Call Unit Stop (ReaderHalf Input W) Packet) : Prop :=
  PollFailed c → c.after.begun.inner.pos = c.after.inner.pos

/-- No call of `read` in the call came upon the header of a frame. -/
def HeaderUnseen (c : Call Unit Stop (ReaderHalf Input W) Packet) : Prop :=
  ∀ r ∈ loopReads c.before.begun.polls c.before.begun, ¬ r.HeaderArrived

/-- The next call starts where the failed one did, if that one saw no header. -/
def Resumes (c : Call Unit Stop (ReaderHalf Input W) Packet) : Prop :=
  PollFailed c → HeaderUnseen c →
    c.after.begun.inner.remaining = c.before.begun.inner.remaining

/-- The next call skips the frame at the front of the slice `poll_event` returned, and no more. -/
def SkipsDelivered (c : Call Unit Stop (ReaderHalf Input W) Packet) : Prop :=
  ∀ slice, c.before.polled = .ok slice → ∃ k, c.after.inner.frame = some k ∧ k ≤ slice.length ∧
    c.after.inner.pending = slice ∧ c.after.begun.inner.pos = c.after.inner.pos + k

/-- A receiver whose reader is in order. -/
def Sound (h : ReaderHalf Input W) : Prop := ∃ stream, Reader.Keeps stream h.inner

theorem pollEvent_keeps {stream : List UInt8} {h : ReaderHalf Input W}
    (keeps : Reader.Keeps stream h.inner) :
    final (pollEvent h) = final (pollLoop h.polls h) ∧ ∀ slice,
      outcome (pollEvent h) = .ok slice ↔
        ∃ r ∈ loopReads h.polls h, ∃ r', Reader.read r = .ok slice r' := by
  have hreads := pollLoop_reads h.polls h
  obtain ⟨hkept, hend⟩ := hreads.keeps (fun _ hr => hr.read) keeps
  rw [pollEvent_eq hend.valid]
  cases hloop : pollLoop h.polls h with
  | error e h' =>
    rw [hloop] at hreads
    refine ⟨rfl, fun slice => iff_of_false (by simp) ?_⟩
    rintro ⟨r, hr, r', hread⟩
    obtain ⟨hfalse, -⟩ := hreads.found_iff.2 ⟨r, hr, slice, hread⟩
    cases hfalse
  | ok u h' =>
    rw [hloop] at hreads
    refine ⟨rfl, fun slice => ⟨fun hok => ?_, ?_⟩⟩
    · obtain ⟨r, hr, slice', hread⟩ := hreads.found_iff.1 ⟨rfl, rfl⟩
      obtain rfl : h'.inner.pending = slice := by simpa using hok
      obtain ⟨rfl, -⟩ := (hkept r hr).delivered hread
      exact ⟨r, hr, _, hread⟩
    · rintro ⟨r, hr, r', hread⟩
      obtain ⟨-, rfl⟩ := hreads.found_iff.2 ⟨r, hr, slice, hread⟩
      exact congrArg Except.ok ((hkept r hr).delivered hread).1.symm

theorem recv_eq {h : ReaderHalf Input W} (sound : Sound h) :
    recv h = match pollEvent h.begun with
      | .ok buf h' => onExec (Mcutt.consume Packet.parse buf) h'
      | .error e h' => .error e h' := by
  obtain ⟨stream, keeps⟩ := sound
  have hconsume : onReader Reader.consume h = .ok ⟨⟩ h.begun := by
    simp only [onReader]
    rw [keeps.valid.consume_eq]
    rfl
  simp only [recv, recvWith, bind_apply, hconsume]
  cases pollEvent h.begun <;> rfl

theorem final_recv {h : ReaderHalf Input W} (sound : Sound h) :
    final (recv h) = final (pollEvent h.begun) := by
  rw [recv_eq sound]
  cases pollEvent h.begun with
  | error e h' => rfl
  | ok buf h' =>
    simp only [onExec]
    cases Mcutt.consume Packet.parse buf <;> rfl

/-- What a call of `recv` leaves: the stream in front of which it called `poll_event`, unless a
frame is known, and if `poll_event` returned a slice, the frame in it. -/
theorem recv_keeps {h : ReaderHalf Input W} (sound : Sound h) :
    Reader.Keeps h.begun.inner.remaining (final (recv h)).inner ∧
      ∀ slice, h.polled = .ok slice →
        Reader.Delivered (final (recv h)).inner ∧ (final (recv h)).inner.pending = slice := by
  obtain ⟨stream, keeps⟩ := id sound
  have hpoll := Reader.Keeps.loopRule.pollEvent (W := W) (fun r h => h.1.valid) h.begun
    keeps.consume
  rw [final_recv sound, polled]
  cases heq : pollEvent h.begun with
  | error e h' =>
    rw [heq] at hpoll
    exact ⟨hpoll, fun slice hs => by cases hs⟩
  | ok buf h' =>
    rw [heq] at hpoll
    obtain ⟨⟨hkeeps, hdelivered⟩, hslice⟩ := hpoll
    refine ⟨hkeeps, fun slice hs => ⟨hdelivered, ?_⟩⟩
    obtain rfl : buf = slice := by simpa using hs
    exact hslice.symm

theorem Sound.recv {h : ReaderHalf Input W} (sound : Sound h) : Sound (final (recv h)) :=
  ⟨_, (recv_keeps sound).1⟩

omit [Write W] in
theorem sound_new {schedule : Input} {capacity : ℕ} {h : ReaderHalf Input W}
    (new : Reader.withCapacity schedule capacity = some h.inner)
    (nonempty : Schedule.NonemptyChunks schedule) : Sound h := by
  obtain ⟨valid, hview⟩ := shows_withCapacity new
  have hinner : h.inner.inner = schedule := congrArg View.inner hview
  exact ⟨_, valid, hview ▸ View.inv_new _ _, hinner ▸ nonempty, fun _ => rfl⟩

/-- After a call no frame is known exactly if no call of `read` in it came upon a header. -/
theorem recv_frame_iff {h : ReaderHalf Input W} (sound : Sound h) :
    (final (recv h)).inner.frame = none ↔
      ∀ r ∈ loopReads h.begun.polls h.begun, ¬ r.HeaderArrived := by
  obtain ⟨stream, keeps⟩ := id sound
  have hnone : h.begun.inner.frame = none := by
    obtain ⟨-, hview⟩ := keeps.valid.consume
    exact (congrArg View.frame hview).trans (View.consume_frame h.inner.view)
  have hgain := (pollLoop_reads h.begun.polls h.begun).gain_iff (K := fun r => r.frame ≠ none)
    (fun _ hr => hr.read) (fun _ hr => hr.frame_read_iff) keeps.consume
  rw [final_recv sound, (pollEvent_keeps keeps.consume).1, ← not_iff_not, ← ne_eq, hgain,
    or_iff_right (not_not.2 hnone)]
  push Not
  rfl

/-- In every run `consume` spares the undelivered frames exactly if no call that fails in
`poll_event` saw the header of a frame; such calls are resumed, and delivered frames are skipped
whole. -/
theorem undelivered_kept_iff {schedule : Input} {capacity : ℕ} {h : ReaderHalf Input W}
    (new : Reader.withCapacity schedule capacity = some h.inner)
    (nonempty : Schedule.NonemptyChunks schedule) (n : ℕ) :
    ((∀ c ∈ h.recvs n, KeepsUndelivered c) ↔
        ∀ c ∈ h.recvs n, PollFailed c → HeaderUnseen c) ∧
      ∀ c ∈ h.recvs n, Resumes c ∧ SkipsDelivered c := by
  have hsound : ∀ c ∈ h.recvs n, Sound c.before ∧ c.after = final (recv c.before) := by
    intro c hc
    refine ⟨?_, (call_of_log hc).2⟩
    exact (invariant_of_log (P := fun _ _ => True) (fun _ _ hs _ => hs.recv)
      (sound_new new nonempty) (fun _ _ => trivial) hc).1
  refine ⟨?_, fun c hc => ⟨fun _ hunseen => ?_, fun slice hslice => ?_⟩⟩
  · refine forall₂_congr fun c hc => imp_congr_right fun _ => ?_
    obtain ⟨hbefore, hafter⟩ := hsound c hc
    rw [hafter, HeaderUnseen, ← recv_frame_iff hbefore]
    exact (recv_keeps hbefore).1.pos_consume_iff
  · obtain ⟨hbefore, hafter⟩ := hsound c hc
    have hframe := (recv_frame_iff hbefore).2 hunseen
    rw [hafter, ← (recv_keeps hbefore).1.kept hframe, begun, Reader.consume_of_none hframe,
      final_ok]
  · obtain ⟨hbefore, hafter⟩ := hsound c hc
    rw [hafter]
    obtain ⟨hkeeps, hdelivered⟩ := recv_keeps hbefore
    obtain ⟨⟨k, hk, hle⟩, hpending⟩ := hdelivered slice hslice
    exact ⟨k, hk, hpending ▸ hle, hpending, hkeeps.pos_consume hk hle⟩

end ReaderHalf

end

theorem ReaderHalf.undelivered_kept_iff_two :
    letI := Target.debug
    letI h : ReaderHalf Input (List UInt8) := ⟨⟨[0, 0, 0, 0, 0], 0, none, 0,
      [.chunk [0xD0], .fail .wouldBlock, .chunk [0]]⟩, ⟨false, []⟩,
      [⟨id, .ok [.reader]⟩, ⟨id, .error .interrupted⟩, ⟨id, .ok [.timer true, .reader]⟩]⟩
    ((∀ c ∈ h.recvs 2, KeepsUndelivered c) ↔
        ∀ c ∈ h.recvs 2, PollFailed c → HeaderUnseen c) ∧
      ∀ c ∈ h.recvs 2, Resumes c ∧ SkipsDelivered c := by
  exact @ReaderHalf.undelivered_kept_iff Target.debug _ _ _ 5 _ rfl
    (by simp [Schedule.NonemptyChunks]) 2

/-- The first five bytes of a PUBLISH are skipped when `poll` is interrupted before the last two
arrive, and these are received as a PINGRESP. -/
theorem interrupted_publish_skipped :
    letI := Target.debug
    letI h : ReaderHalf Input (List UInt8) := ⟨⟨List.replicate 8192 0, 0, none, 0,
      [.chunk [0x30, 5, 0, 1, 97], .fail .wouldBlock, .chunk [0xD0, 0]]⟩, ⟨false, []⟩,
      [⟨id, .ok [.reader]⟩, ⟨id, .error .interrupted⟩, ⟨id, .ok [.reader]⟩]⟩
    (h.recvs 2).map Call.result = [.error (.fault (.err ⟨.stdIo .interrupted, "while polling"⟩)),
        .ok .pingResp] ∧
      ¬ ∀ c ∈ h.recvs 2, ReaderHalf.KeepsUndelivered c := by
  let := Target.debug
  refine ⟨by decide +kernel, fun hall => ?_⟩
  have hfirst := hall _ List.mem_cons_self
  have hfailed : ∀ slice, ReaderHalf.polled (⟨⟨List.replicate 8192 0, 0, none, 0,
      [.chunk [0x30, 5, 0, 1, 97], .fail .wouldBlock, .chunk [0xD0, 0]]⟩, ⟨false, []⟩,
      [⟨id, .ok [.reader]⟩, ⟨id, .error .interrupted⟩, ⟨id, .ok [.reader]⟩]⟩ :
        ReaderHalf Input (List UInt8)) ≠ .ok slice := by
    rw [show ReaderHalf.polled _ = .error (.fault (.err ⟨.stdIo .interrupted, "while polling"⟩)) by
      decide +kernel]
    rintro slice ⟨⟩
  exact absurd (hfirst ⟨by decide +kernel, hfailed⟩) (by decide +kernel)

end Mcutt
