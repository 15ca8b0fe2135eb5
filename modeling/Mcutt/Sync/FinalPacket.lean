import Mcutt.Lib.Since
import Mcutt.Sync.Delivery
import Mcutt.Sync.PartialWrites

/-!
# After DISCONNECT

`disconnect` writes its packet and leaves no trace in the connection: a send that follows is
written, and so is the PINGREQ of a tick that `recv` handles, since DISCONNECT does not set
`sent_flag`.  A run writes nothing behind a DISCONNECT exactly if the socket is going to refuse all
that is still to come: the packets of the later sends and a PINGREQ for every later tick, but for
the first one if it finds the flag set (`Connection.disconnect_final_iff`).
-/

namespace Mcutt

open Machine

/-! ## What the socket refuses -/

/-- How many writes are refused before the first one that is not. -/
def Socket.refusals : List Outcome → ℕ
  | .part 0 _ :: outcomes => refusals outcomes + 1
  | _ => 0

theorem Socket.taken_eq_nil_iff {outcomes : List Outcome} {b : UInt8}
    {writes : List (List UInt8)} : taken outcomes ([b] :: writes) = [] ↔ 0 < refusals outcomes := by
  rcases outcomes with _ | ⟨_ | ⟨_ | n, kind⟩, outcomes⟩ <;> simp [taken, refusals]

namespace WriterCall

/-- The socket is going to refuse the packets of `sends` sends and of `ticks` ticks, the first of
which has none if the flag is set. -/
def Covered (sends ticks : ℕ) (w : WriterHalf Socket) : Prop :=
  sends + (ticks - if w.sentFlag then 1 else 0) ≤ Socket.refusals w.inner.outcomes

/-- Between two states there are `sends` packets of sends and `ticks` ticks: nothing of them is on
the wire, and what comes after is covered, exactly if all of it was covered. -/
structure Costs (sends ticks : ℕ) (w w' : WriterHalf Socket) : Prop where
  grows : w.inner.written <+: w'.inner.written
  covered : ∀ s t, w'.inner.written = w.inner.written ∧ Covered s t w' ↔
    Covered (s + sends) (t + ticks) w

theorem Covered.mono {s t t' : ℕ} {w : WriterHalf Socket} (h : Covered s t' w) (hle : t ≤ t') :
    Covered s t w := by
  unfold Covered at h ⊢
  omega

namespace Costs

variable {s s' t t' : ℕ} {w w' w'' : WriterHalf Socket}

theorem refl (w : WriterHalf Socket) : Costs 0 0 w w :=
  ⟨List.prefix_rfl, fun _ _ => and_iff_right rfl⟩

theorem trans (h : Costs s t w w') (h' : Costs s' t' w' w'') : Costs (s + s') (t + t') w w'' := by
  refine ⟨h.grows.trans h'.grows, fun a b => ?_⟩
  have hfirst := h.covered (a + s') (b + t')
  rw [← h'.covered a b, ← and_assoc] at hfirst
  rw [Nat.add_comm s s', Nat.add_comm t t', ← Nat.add_assoc, ← Nat.add_assoc, ← hfirst]
  refine and_congr_left fun _ => ⟨fun heq => ?_, fun heq => heq.2.trans heq.1⟩
  have hback : w'.inner.written = w.inner.written :=
    h.grows.eq_of_length_le (heq ▸ h'.grows.length_le) |>.symm
  exact ⟨hback, heq.trans hback.symm⟩

/-- An attempt to write is refused, or a byte of it is on the wire. -/
theorem of_attempt (grows : w.inner.written <+: w'.inner.written)
    (refused : 0 < Socket.refusals w.inner.outcomes →
      w' = { w with inner := { w.inner with outcomes := w.inner.outcomes.tail } })
    (taken : w'.inner.written = w.inner.written → 0 < Socket.refusals w.inner.outcomes) :
    Costs 1 0 w w' ∧ (w.sentFlag = false → Costs 0 1 w w') := by
  have hiff : ∀ s t, w'.inner.written = w.inner.written ∧ Covered s t w' ↔
      s + (t - if w.sentFlag then 1 else 0) + 1 ≤ Socket.refusals w.inner.outcomes := by
    intro s t
    obtain ⟨flag, written, outcomes, flushes⟩ := w
    constructor
    · rintro ⟨hsame, hcovered⟩
      have hpos := taken hsame
      rw [refused hpos] at hcovered
      rcases outcomes with _ | ⟨_ | ⟨_ | n, kind⟩, outcomes⟩ <;>
        simp only [Socket.refusals, Covered, List.tail_cons] at hpos hcovered ⊢ <;> omega
    · intro hle
      have hpos : 0 < Socket.refusals outcomes := by
        have hle : s + (t - if flag then 1 else 0) + 1 ≤ Socket.refusals outcomes := hle
        omega
      rw [refused hpos]
      refine ⟨rfl, ?_⟩
      rcases outcomes with _ | ⟨_ | ⟨_ | n, kind⟩, outcomes⟩ <;>
        simp only [Socket.refusals, Covered, List.tail_cons] at hpos hle ⊢ <;> omega
  refine ⟨⟨grows, fun s t => (hiff s t).trans ?_⟩, fun hflag => ⟨grows, fun s t => ?_⟩⟩
  · unfold Covered
    omega
  · rw [hiff, Covered, hflag]
    simp only [Bool.false_eq_true, if_false]
    omega

/-- The `write_sync` of a packet that opens with a byte, and what follows it without a write. -/
theorem of_writeSync {packet : Enc ℕ} {b : UInt8} {f : ℕ → EStateM Fault (WriterHalf Socket) Unit}
    (starts : ∃ rest, packet.writes = [b] :: rest)
    (hf : ∀ n w, (final (f n w)).inner.written = w.inner.written) (w : WriterHalf Socket) :
    Costs 1 0 w (final ((WriterHalf.writeSync packet >>= f) w)) ∧
      (w.sentFlag = false → Costs 0 1 w (final ((WriterHalf.writeSync packet >>= f) w))) := by
  obtain ⟨rest, hrest⟩ := starts
  have hwritten := written_writeSync_bind packet hf w
  apply of_attempt
  · rw [hwritten]
    exact List.prefix_append _ _
  · intro hpos
    obtain ⟨flag, written, outcomes, flushes⟩ := w
    rcases outcomes with _ | ⟨_ | ⟨_ | n, kind⟩, outcomes⟩
    · cases hpos
    · cases hpos
    · cases packet with
      | done r => cases hrest
      | write bs msg next => simp [WriterHalf.writeSync, Enc.run, Write.writeAll, fail]
    · cases hpos
  · intro hsame
    rw [hwritten, List.append_right_eq_self, hrest] at hsame
    exact Socket.taken_eq_nil_iff.1 hsame

/-- A packet that is rejected before its first byte costs nothing. -/
theorem of_opens {packet : Enc ℕ} {b : UInt8} {f : ℕ → EStateM Fault (WriterHalf Socket) Unit}
    (opens : packet.Opens [b]) (hf : ∀ n w, (final (f n w)).inner.written = w.inner.written)
    (w : WriterHalf Socket) :
    Costs (if packet.writes = [] then 0 else 1) 0 w
      (final ((WriterHalf.writeSync packet >>= f) w)) := by
  rcases opens with ⟨err, rfl⟩ | starts
  · exact refl w
  · have hne : packet.writes ≠ [] := by
      obtain ⟨rest, hrest⟩ := starts
      simp [hrest]
    rw [if_neg hne]
    exact (of_writeSync starts hf w).1

variable [Target]

theorem of_send (call : SenderCall) (w : WriterHalf Socket) :
    Costs (if call.writes = [] then 0 else 1) 0 w (final (call.run w)) := by
  obtain ⟨b, opens⟩ := call.packet.writeSync_opens
  cases call with
  | publish value | subscribe value | unsubscribe value =>
    exact of_opens opens (fun _ => written_flush_bind true) w
  | disconnect => exact of_opens opens (fun _ => written_flush) w

theorem of_handlePing (w : WriterHalf Socket) :
    Costs 0 1 w (final (WriterHalf.handlePing w)) := by
  obtain ⟨flag, inner⟩ := w
  cases flag with
  | true =>
    refine ⟨List.prefix_rfl, fun s t => (and_iff_right rfl).trans ?_⟩
    show Covered s t ⟨false, inner⟩ ↔ Covered (s + 0) (t + 1) ⟨true, inner⟩
    simp only [Covered, Bool.false_eq_true, if_false, if_true]
    omega
  | false =>
    have hopens := ClientPacket.writeSync_opens .pingReq
    obtain ⟨b, opens⟩ := hopens
    have starts := opens.starts (Bare.writeSync_writes .pingReq).result_eq
    exact (of_writeSync starts (fun _ => written_flush_bind false) ⟨false, inner⟩).2 rfl

end Costs

end WriterCall

/-! ## The ticks of a call -/

namespace ReaderHalf

variable {R W : Type}

/-- The writer halves that `recv` calls `handle_ping` on, in order. -/
def recvTicks [Target] [Read R] [Write W] (h : ReaderHalf R W) : List (WriterHalf W) :=
  match onReader Reader.consume h with
  | .ok _ h' => loopTicks h'.polls h'
  | .error _ _ => []

theorem onReader_writer {α : Type} (x : ReaderM R α) (h : ReaderHalf R W) :
    (final (onReader x h)).writer = h.writer := by
  unfold onReader
  cases x h.inner <;> rfl

theorem onExec_writer {α : Type} (x : Exec α) (h : ReaderHalf R W) :
    (final (onExec x h)).writer = h.writer := by
  unfold onExec
  cases x <;> rfl

theorem readerEvent_writer [Target] [Read R] (h : ReaderHalf R W) :
    (final (readerEvent h)).writer = h.writer := by
  unfold readerEvent
  split
  · rfl
  · split_ifs <;> rfl
  · rfl

/-- The ticks that a list of reports has. -/
def reported : List (Except IoErrorKind (List PollEvent)) → ℕ
  | [] => 0
  | .error _ :: reports => reported reports
  | .ok events :: reports => events.count (.timer true) + reported reports

section

variable [Target] [Read R]

theorem eventTicks_le [Write W] (events : List PollEvent) (h : ReaderHalf R W) :
    (eventTicks events h).length ≤ events.count (.timer true) := by
  induction events generalizing h with
  | nil => exact le_rfl
  | cons event events ih =>
    rcases event with _ | _ | _
    · rw [eventTicks, List.count_cons_of_ne (by decide)]
      rcases readerEvent h with ⟨_ | _, h'⟩ | ⟨e, h'⟩
      · exact ih h'
      · exact Nat.zero_le _
      · exact Nat.zero_le _
    · exact Nat.zero_le _
    · rw [eventTicks, List.length_cons, List.count_cons_self]
      rcases timerEvent true h with ⟨u, h'⟩ | ⟨e, h'⟩
      · exact Nat.succ_le_succ (ih h')
      · exact Nat.succ_le_succ (Nat.zero_le _)

theorem loopTicks_le [Write W] (polls : List (Poll W)) (h : ReaderHalf R W) :
    (loopTicks polls h).length ≤ reported (polls.map Poll.events) := by
  induction polls generalizing h with
  | nil => exact le_rfl
  | cons p polls ih =>
    obtain ⟨meanwhile, _ | events⟩ := p
    · exact Nat.zero_le _
    · have hfirst := eventTicks_le events { h with polls, writer := meanwhile h.writer }
      rw [loopTicks, List.map_cons, reported]
      simp only [poll, bind_apply, modify_apply, pure_apply, List.length_append]
      refine Nat.add_le_add hfirst ?_
      rcases handleEvents events { h with polls, writer := meanwhile h.writer } with
        ⟨_ | _, h'⟩ | ⟨e, h'⟩
      · exact ih h'
      · exact Nat.zero_le _
      · exact Nat.zero_le _

open WriterCall

omit [Read R] in
theorem timerEvent_costs (h : ReaderHalf R Socket) :
    Costs 0 1 h.writer (final (timerEvent true h)).writer := by
  have hping := Costs.of_handlePing h.writer
  rw [timerEvent, if_pos rfl, onWriter]
  cases heq : WriterHalf.handlePing h.writer <;> rwa [heq] at hping

theorem handleEvents_costs (events : List PollEvent) (h : ReaderHalf R Socket) :
    Costs 0 (eventTicks events h).length h.writer (final (handleEvents events h)).writer := by
  induction events generalizing h with
  | nil => exact .refl _
  | cons event events ih =>
    rcases event with _ | _ | _
    · have hwriter := readerEvent_writer h
      rw [handleEvents, bind_apply, eventTicks, ← hwriter]
      rcases readerEvent h with ⟨_ | _, h'⟩ | ⟨e, h'⟩
      · exact ih h'
      · exact .refl _
      · exact .refl _
    · exact .refl _
    · have htick := timerEvent_costs h
      rw [handleEvents, bind_apply, eventTicks, List.length_cons, Nat.add_comm]
      generalize timerEvent true h = x at htick ⊢
      rcases x with ⟨u, h'⟩ | ⟨e, h'⟩
      · exact htick.trans (ih h')
      · exact htick

/-- Nobody else writes meanwhile. -/
theorem pollLoop_costs (polls : List (Poll Socket)) (hpolls : ∀ p ∈ polls, p.meanwhile = id)
    (h : ReaderHalf R Socket) :
    Costs 0 (loopTicks polls h).length h.writer (final (pollLoop polls h)).writer := by
  induction polls generalizing h with
  | nil => exact .refl _
  | cons p polls ih =>
    obtain ⟨hid, hrest⟩ := List.forall_mem_cons.1 hpolls
    obtain ⟨meanwhile, result⟩ := p
    obtain rfl : meanwhile = id := hid
    cases result with
    | error kind => exact .refl _
    | ok events =>
      have hpoll : poll ⟨id, .ok events⟩ polls h = .ok events { h with polls } := rfl
      have hevents := handleEvents_costs events { h with polls }
      rw [pollLoop_cons, bind_apply, loopTicks, hpoll]
      simp only [bind_apply, List.length_append]
      generalize handleEvents events { h with polls } = x at hevents ⊢
      rcases x with ⟨_ | _, h'⟩ | ⟨e, h'⟩
      · exact hevents.trans (ih hrest h')
      · exact hevents
      · exact hevents

theorem recv_costs (h : ReaderHalf R Socket) (hpolls : ∀ p ∈ h.polls, p.meanwhile = id) :
    Costs 0 (recvTicks h).length h.writer (final (recv h)).writer ∧
      (recvTicks h).length ≤ reported (h.polls.map Poll.events) := by
  have hwriter := onReader_writer Reader.consume h
  have hscript : (final (onReader Reader.consume h)).polls = h.polls := by
    unfold onReader
    cases Reader.consume h.inner <;> rfl
  rw [recv, recvWith, bind_apply, recvTicks, ← hwriter]
  cases hconsume : onReader Reader.consume h with
  | error e h' => exact ⟨.refl _, Nat.zero_le _⟩
  | ok u h' =>
    rw [hconsume, final_ok] at hscript
    have hloop := pollLoop_costs h'.polls (hscript ▸ hpolls) h'
    have hevent : (final (pollEvent h')).writer = (final (pollLoop h'.polls h')).writer := by
      simp only [pollEvent, pollEventWith, bind_apply, get_apply]
      cases pollLoop h'.polls h' with
      | error e h'' => rfl
      | ok u h'' => exact onReader_writer Reader.buff h''
    refine ⟨?_, hscript ▸ loopTicks_le h'.polls h'⟩
    rw [← hevent] at hloop
    simp only [bind_apply, final_ok]
    cases hpoll : pollEvent h' with
    | error e h'' =>
      rw [hpoll] at hloop
      exact hloop
    | ok buf h'' =>
      rw [hpoll, final_ok] at hloop
      simp only [onExec_writer]
      exact hloop

end

end ReaderHalf

/-! ## Runs of a connection -/

/-- What has been written to the socket. -/
def ReaderHalf.written {R : Type} (h : ReaderHalf R Socket) : List UInt8 := h.writer.inner.written

/-- A call of a method of a connection, for `recv` with what `poll` is going to return. -/
inductive ConnectionCall where
  | send (call : SenderCall)
  | recv (polls : List (Except IoErrorKind (List PollEvent)))

namespace Connection

variable {R : Type}

/-- The reader half when nobody else has the connection during the call. -/
def scripted (h : ReaderHalf R Socket) (polls : List (Except IoErrorKind (List PollEvent))) :
    ReaderHalf R Socket :=
  { h with polls := polls.map fun events => ⟨id, events⟩ }

section

variable [Target] [Read R]

def run : ConnectionCall → ReaderHalf.HalfM R Socket Unit
  | .send call => ReaderHalf.onWriter call.run
  | .recv polls => do
    modify fun self => scripted self polls
    let _ ← ReaderHalf.recv

/-- The calls of a run in order, those after a failed one included. -/
def calls (script : List ConnectionCall) (h : ReaderHalf R Socket) :
    List (Call ConnectionCall Stop (ReaderHalf R Socket) Unit) :=
  log ReaderHalf.stops run script h

/-- Nothing is written to the socket behind a DISCONNECT that was sent. -/
def DisconnectFinal (run : List (Call ConnectionCall Stop (ReaderHalf R Socket) Unit)) : Prop :=
  ∀ pre c post, run = pre ++ c :: post → c.input = .send .disconnect → c.result = .ok () →
    ∀ d ∈ post, d.after.written = c.after.written

omit [Read R] in
/-- The packets that the call sends, if the encoder accepts so much as their first byte. -/
def sends (c : Call ConnectionCall Stop (ReaderHalf R Socket) Unit) : ℕ :=
  match c.input with
  | .send call => if call.writes = [] then 0 else 1
  | .recv _ => 0

/-- The ticks that the call handles. -/
def ticks (c : Call ConnectionCall Stop (ReaderHalf R Socket) Unit) : ℕ :=
  match c.input with
  | .send _ => 0
  | .recv polls => (ReaderHalf.recvTicks (scripted c.before polls)).length

omit [Target] [Read R] in
/-- The ticks that `poll` reports in the call. -/
def reports (c : Call ConnectionCall Stop (ReaderHalf R Socket) Unit) : ℕ :=
  match c.input with
  | .send _ => 0
  | .recv polls => ReaderHalf.reported polls

/-- Behind a DISCONNECT that was sent the socket is going to refuse all there is to write. -/
def RefusedBehind (ticks : Call ConnectionCall Stop (ReaderHalf R Socket) Unit → ℕ)
    (run : List (Call ConnectionCall Stop (ReaderHalf R Socket) Unit)) : Prop :=
  ∀ pre c post, run = pre ++ c :: post → c.input = .send .disconnect → c.result = .ok () →
    WriterCall.Covered (post.map sends).sum (post.map ticks).sum c.after.writer

theorem run_costs (call : ConnectionCall) (h : ReaderHalf R Socket) :
    WriterCall.Costs (sends (.of run call h)) (ticks (.of run call h)) h.writer
        (final (run call h)).writer ∧ ticks (.of run call h) ≤ reports (.of run call h) := by
  cases call with
  | send call =>
    have hsend := WriterCall.Costs.of_send call h.writer
    have hfinal : (final (run (.send call) h)).writer = final (call.run h.writer) := by
      show (final (ReaderHalf.onWriter call.run h)).writer = final (call.run h.writer)
      unfold ReaderHalf.onWriter
      cases call.run h.writer <;> rfl
    rw [hfinal]
    exact ⟨hsend, le_rfl⟩
  | recv polls =>
    have hpolls : ∀ p ∈ (scripted h polls).polls, p.meanwhile = id := by
      intro p hp
      obtain ⟨events, -, rfl⟩ := List.mem_map.1 hp
      rfl
    have hfinal : final (run (.recv polls) h) = final (ReaderHalf.recv (scripted h polls)) := by
      simp only [run, bind_apply, modify_apply]
      cases ReaderHalf.recv (scripted h polls) <;> rfl
    have hevents : (scripted h polls).polls.map Poll.events = polls := by
      simp [scripted, Function.comp_def]
    obtain ⟨hcosts, hle⟩ := ReaderHalf.recv_costs (scripted h polls) hpolls
    rw [hevents] at hle
    rw [hfinal]
    exact ⟨hcosts, hle⟩

/-- The calls of a run write nothing exactly if the socket is going to refuse all of it. -/
theorem unwritten_iff (script : List ConnectionCall) (h : ReaderHalf R Socket) :
    (∀ d ∈ calls script h, d.after.written = h.written) ↔
      WriterCall.Covered ((calls script h).map sends).sum ((calls script h).map ticks).sum
        h.writer := by
  induction script generalizing h with
  | nil => exact iff_of_true (by simp [calls, log]) (by simp [WriterCall.Covered, calls, log])
  | cons call script ih =>
    obtain ⟨hcosts, -⟩ := run_costs call h
    have hrest := ih (final (run call h))
    rw [calls, log] at *
    generalize hlog : (if ReaderHalf.stops (outcome (run call h)) then [] else
      log ReaderHalf.stops run script (final (run call h))) = rest
    replace hrest : (∀ d ∈ rest, d.after.written = (final (run call h)).written) ↔
        WriterCall.Covered (rest.map sends).sum (rest.map ticks).sum
          (final (run call h)).writer := by
      rw [← hlog]
      split_ifs
      · exact iff_of_true (by simp) (by simp [WriterCall.Covered])
      · exact hrest
    have hcovered := hcosts.covered (rest.map sends).sum (rest.map ticks).sum
    rw [← hrest] at hcovered
    rw [List.forall_mem_cons, List.map_cons, List.map_cons, List.sum_cons, List.sum_cons,
      Nat.add_comm, Nat.add_comm (ticks _)]
    refine Iff.trans ?_ hcovered
    refine and_congr_right fun hsame => ?_
    have hsame : (final (run call h)).written = h.written := hsame
    rw [hsame]

/-- DISCONNECT is final in a run exactly if the socket refuses all that the calls behind it would
write; so it is if the socket refuses as much as there are sends and reported ticks. -/
theorem disconnect_final_iff (script : List ConnectionCall) (h : ReaderHalf R Socket) :
    (DisconnectFinal (calls script h) ↔ RefusedBehind ticks (calls script h)) ∧
      (RefusedBehind reports (calls script h) → DisconnectFinal (calls script h)) := by
  have hiff : DisconnectFinal (calls script h) ↔ RefusedBehind ticks (calls script h) := by
    apply forall₄_congr
    intro pre c post hrun
    refine forall₂_congr fun _ _ => ?_
    obtain ⟨rest, rfl⟩ := suffix_of_log hrun
    exact unwritten_iff rest c.after
  refine ⟨hiff, fun refused => hiff.2 fun pre c post hrun hinput hok => ?_⟩
  refine (refused pre c post hrun hinput hok).mono (List.sum_le_sum fun d hd => ?_)
  have hmem : d ∈ calls script h := by
    rw [hrun]
    exact List.mem_append_right _ (List.mem_cons_of_mem _ hd)
  have hle := (run_costs d.input d.before).2
  rwa [← eq_of_log hmem] at hle

end

/-- A PINGREQ behind DISCONNECT. -/
theorem ping_after_disconnect :
    letI := Target.debug
    letI h : ReaderHalf Input Socket :=
      ⟨⟨List.replicate 8192 0, 0, none, 0, []⟩, ⟨false, ⟨[], [], []⟩⟩, []⟩
    ¬ DisconnectFinal (calls [.send .disconnect, .recv [.ok [.timer true]]] h) ∧
      (calls [.send .disconnect, .recv [.ok [.timer true]]] h).map (fun c => c.after.written) =
        [[0xE0, 0], [0xE0, 0, 0xC0, 0]] := by
  let := Target.debug
  refine ⟨fun final => ?_, by decide +kernel⟩
  have same := final [] _ _ rfl rfl rfl _ List.mem_cons_self
  revert same
  decide +kernel

end Connection

end Mcutt
