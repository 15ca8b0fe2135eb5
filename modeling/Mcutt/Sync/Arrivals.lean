import Mcutt.Sync.Rounds
import Mcutt.Sync.Session

/-!
# Packets between which the socket blocks

What the server sends arrives in pieces of whole packets, with the socket blocking behind each.  As
long as `poll` wakes up often enough and the pings are written, `connect` and the calls of `recv`
behind it return these packets, one each, exactly if within every piece the packets shorter than the
header window are separated (`Connection.delivers_iff`).
-/

namespace Mcutt

open Machine

/-! ## More behind a frame -/

namespace View

/-- The view with more to come. -/
def more (tail : Input) (v : View Input) : View Input := { v with inner := v.inner ++ tail }

variable [Target] {v v' : View Input} {n : ℕ}

omit [Target] in
theorem fillHead_more (tail : Input) (h : fillHead v = .ok ⟨⟩ v') :
    fillHead (v.more tail) = .ok ⟨⟩ (v'.more tail) := by
  obtain ⟨bytes, hne, hread, heq⟩ := fillHead_eq_ok h
  have happend := Schedule.read_append hne hread tail
  simp only [fillHead, bind_apply, get_apply, more, Read.read, happend, set_apply, if_neg hne,
    pure_apply]
  rw [heq]

theorem nextFrameLoop_more (tail : Input) {fuel : ℕ} (h : nextFrameLoop fuel v = .ok n v') :
    nextFrameLoop fuel (v.more tail) = .ok n (v'.more tail) := by
  induction fuel generalizing v with
  | zero => cases h
  | succ fuel ih =>
    rw [nextFrameLoop_succ] at h ⊢
    rw [show (v.more tail).pending = v.pending from rfl]
    rcases hnext : FixedHeader.nextFrame v.pending with e | _ | m
    · rw [hnext] at h
      cases h
    · rw [hnext] at h
      simp only [bind_apply] at h ⊢
      cases hfill : fillHead v with
      | error e w =>
        rw [hfill] at h
        cases h
      | ok u w =>
        rw [hfill] at h
        rw [fillHead_more tail hfill]
        exact ih h
    · rw [hnext] at h
      cases h
      rfl

omit [Target] in
theorem fillFrame_more (tail : Input) (h : fillFrame n v = .ok ⟨⟩ v') :
    fillFrame n (v.more tail) = .ok ⟨⟩ (v'.more tail) := by
  simp only [fillFrame, bind_apply, get_apply] at h ⊢
  rw [show (v.more tail).pending = v.pending from rfl]
  by_cases hshort : v.pending.length < n
  · rw [if_pos hshort] at h ⊢
    rcases hread : Read.readExact (n - v.pending.length) v.inner with ⟨got, kind | u, inner⟩
    · rw [hread] at h
      cases h
    · rw [hread] at h
      rw [readExact_input, Prod.mk.injEq, Prod.mk.injEq, exactResult_eq_ok] at hread
      obtain ⟨rfl, hok, rfl⟩ := hread
      have happend := Schedule.readExact_append (Prod.ext rfl (Prod.ext hok rfl)) tail
      simp only [readExact_input, more, happend, exactResult, set_apply] at h ⊢
      cases h
      rfl
  · rw [if_neg hshort] at h ⊢
    cases h
    rfl

theorem currentFrame_more (tail : Input) (h : currentFrame v = .ok n v') :
    currentFrame (v.more tail) = .ok n (v'.more tail) := by
  cases hf : v.frame with
  | some m =>
    rw [currentFrame_of_some hf] at h
    cases h
    exact currentFrame_of_some (v := v.more tail) hf
  | none =>
    have hmore : (v.more tail).frame = none := hf
    simp only [currentFrame, nextFrame, bind_apply, get_apply, hf, hmore] at h ⊢
    rw [show (v.more tail).pending = v.pending from rfl]
    cases hassert : debugAssert (decide (v.pending.length < Reader.MIN))
        "(self.filled - self.pos) < Self::MIN" with
    | error e =>
      rw [hassert] at h
      cases h
    | ok u =>
      rw [hassert, lift_ok] at h
      rw [lift_ok]
      exact nextFrameLoop_more tail h

/-- A `read` that returns returns the same if more follows. -/
theorem read_more (tail : Input) {slice : List UInt8} (h : read v = .ok slice v') :
    read (v.more tail) = .ok slice (v'.more tail) := by
  simp only [read, bind_apply] at h ⊢
  cases hcur : currentFrame v with
  | error e w =>
    rw [hcur] at h
    cases h
  | ok n w =>
    rw [hcur] at h
    rw [currentFrame_more tail hcur]
    simp only [readFrame, bind_apply, get_apply] at h ⊢
    rw [show (w.more tail).capacity = w.capacity from rfl]
    by_cases hbig : w.capacity < n
    · rw [if_pos hbig] at h
      cases h
    · rw [if_neg hbig] at h ⊢
      simp only [bind_apply] at h ⊢
      cases hfill : fillFrame n w with
      | error e u =>
        rw [hfill] at h
        cases h
      | ok _ u =>
        rw [hfill] at h
        rw [fillFrame_more tail hfill]
        cases h
        rfl

end View

/-! ## Waiting for a frame -/

section

variable {R W : Type}

/-- It returns, and every expiry of the timer is read. -/
def Poll.Calm (p : Poll W) : Prop := ∃ events, p.events = .ok events ∧ .timer false ∉ events

/-- It reports the socket. -/
def Poll.wakes (p : Poll W) : Bool :=
  match p.events with
  | .ok events => decide (.reader ∈ events)
  | .error _ => false

/-- How often the socket is reported. -/
def wakeups (polls : List (Poll W)) : ℕ := polls.countP Poll.wakes

namespace ReaderHalf

variable [Target] [Read R] [Write W]

/-- Behind `k` calls of `read` that block there is one that returns. -/
structure WaitRule (I : ℕ → Reader R → Prop) (D : Reader R → Prop) : Prop where
  served : ∀ r, I 0 r → ∃ slice r', Reader.read r = .ok slice r' ∧ D r'
  blocked : ∀ k r, I (k + 1) r → ∃ e r', Reader.read r = .error (.err e) r' ∧
    wouldBlock e = true ∧ I k r'

variable {I : ℕ → Reader R → Prop} {D : Reader R → Prop}

/-- The events are handled up to the `read` that returns, or one of those that block is behind. -/
theorem WaitRule.handleEvents (rule : WaitRule I D) {events : List PollEvent}
    (ticks : .timer false ∉ events) {k : ℕ} {h : ReaderHalf R W}
    (pings : ∀ w ∈ eventTicks events h, outcome (WriterHalf.handlePing w) = .ok ⟨⟩)
    (hI : I k h.inner) :
    ∃ done h', ReaderHalf.handleEvents events h = .ok done h' ∧ h'.polls = h.polls ∧
      if done then D h'.inner
      else ∃ j, I j h'.inner ∧ j + (if .reader ∈ events then 1 else 0) ≤ k := by
  induction events generalizing k h with
  | nil => exact ⟨false, h, rfl, rfl, k, hI, by simp⟩
  | cons event events ih =>
    obtain ⟨htick, hrest⟩ := not_or.1 fun h => ticks (List.mem_cons.2 h)
    cases event with
    | reader =>
      cases k with
      | zero =>
        obtain ⟨slice, r', hr, hD⟩ := rule.served _ hI
        refine ⟨true, { h with inner := r' }, ?_, rfl, hD⟩
        simp only [ReaderHalf.handleEvents, bind_apply, readerEvent, hr, if_true, pure_apply]
      | succ k =>
        obtain ⟨e, r', hr, hblock, hI'⟩ := rule.blocked k _ hI
        have hevent : readerEvent h = .ok false { h with inner := r' } := by
          simp only [readerEvent, hr, hblock, if_true]
        rw [eventTicks, hevent] at pings
        obtain ⟨done, h', heq, hpolls, hend⟩ := ih hrest pings hI'
        refine ⟨done, h', ?_, hpolls, ?_⟩
        · simpa only [ReaderHalf.handleEvents, bind_apply, hevent, Bool.false_eq_true, if_false]
            using heq
        · cases done with
          | true => exact hend
          | false =>
            obtain ⟨j, hj, hle⟩ := hend
            refine ⟨j, hj, ?_⟩
            simp only [List.mem_cons, true_or, if_true]
            split_ifs at hle <;> omega
    | timer read =>
      cases read with
      | false => exact absurd rfl htick
      | true =>
        rw [eventTicks] at pings
        obtain ⟨hping, hrest'⟩ := List.forall_mem_cons.1 pings
        obtain ⟨w', hw⟩ := outcome_eq_ok.1 hping
        have hevent : timerEvent true h = .ok ⟨⟩ { h with writer := w' } := by
          simp only [timerEvent, if_true, onWriter, hw]
        rw [hevent] at hrest'
        obtain ⟨done, h', heq, hpolls, hend⟩ := ih hrest hrest' hI
        refine ⟨done, h', ?_, hpolls, ?_⟩
        · simpa only [ReaderHalf.handleEvents, bind_apply, hevent] using heq
        · simpa only [List.mem_cons, reduceCtorEq, false_or] using hend

/-- With more wake-ups than calls of `read` that block the loop comes to the one that returns. -/
theorem WaitRule.pollLoop (rule : WaitRule I D) {polls : List (Poll W)}
    (calm : ∀ p ∈ polls, p.Calm) {k : ℕ} (enough : k < wakeups polls) {h : ReaderHalf R W}
    (pings : ∀ w ∈ loopTicks polls h, outcome (WriterHalf.handlePing w) = .ok ⟨⟩)
    (hI : I k h.inner) :
    ∃ h', ReaderHalf.pollLoop polls h = .ok ⟨⟩ h' ∧ D h'.inner ∧ h'.polls <:+ polls ∧
      wakeups polls ≤ wakeups h'.polls + k + 1 := by
  induction polls generalizing k h with
  | nil => simp [wakeups] at enough
  | cons p polls ih =>
    obtain ⟨⟨events, hevents, hread⟩, hcalm⟩ := List.forall_mem_cons.1 calm
    have hwakes : wakeups (p :: polls) = wakeups polls + if .reader ∈ events then 1 else 0 := by
      simp only [wakeups, List.countP_cons, Poll.wakes, hevents, decide_eq_true_eq]
    have hpoll : ReaderHalf.poll p polls h =
        .ok events { h with polls, writer := p.meanwhile h.writer } := by
      simp only [ReaderHalf.poll, bind_apply, modify_apply, hevents, pure_apply]
    rw [loopTicks, hpoll, List.forall_mem_append] at pings
    obtain ⟨done, h', heq, hpolls, hend⟩ := rule.handleEvents hread pings.1 hI
    rw [ReaderHalf.pollLoop_cons, bind_apply, hpoll]
    simp only [bind_apply, heq]
    cases done with
    | true =>
      refine ⟨h', rfl, hend, ?_, ?_⟩
      · rw [hpolls]
        exact List.suffix_cons _ _
      · rw [hpolls, hwakes]
        show _ ≤ wakeups polls + k + 1
        split_ifs <;> omega
    | false =>
      obtain ⟨j, hj, hle⟩ := hend
      have hpings := pings.2
      rw [heq] at hpings
      obtain ⟨h'', hloop, hD, hsuffix, hcount⟩ := ih hcalm (k := j) (by omega) hpings hj
      refine ⟨h'', hloop, hD, hsuffix.trans (List.suffix_cons _ _), ?_⟩
      omega

/-- The slice is what is pending. -/
theorem WaitRule.pollEvent (rule : WaitRule I D) (hD : ∀ r, D r → r.Valid) {h : ReaderHalf R W}
    (pings : ∀ w ∈ loopTicks h.polls h, outcome (WriterHalf.handlePing w) = .ok ⟨⟩)
    (calm : ∀ p ∈ h.polls, p.Calm) {k : ℕ} (enough : k < wakeups h.polls) (hI : I k h.inner) :
    ∃ h', ReaderHalf.pollEvent h = .ok h'.inner.pending h' ∧ D h'.inner ∧
      h'.polls <:+ h.polls ∧ wakeups h.polls ≤ wakeups h'.polls + k + 1 := by
  obtain ⟨h', hloop, hd, hsuffix, hcount⟩ := rule.pollLoop calm enough pings hI
  refine ⟨h', ?_, hd, hsuffix, hcount⟩
  rw [ReaderHalf.pollEvent_eq (hloop ▸ hD _ hd), hloop]

end ReaderHalf

end

/-! ## Blocking in front of a frame -/

namespace View

variable [Target] {v v' : View Input}

/-- The view with `k` reads that block in front. -/
def delayed (k : ℕ) (v : View Input) : View Input :=
  { v with inner := List.replicate k (.fail .wouldBlock) ++ v.inner }

/-- An error in front of a header is returned. -/
theorem read_of_fail {kind : IoErrorKind} {s : Input} (hf : v.frame = none) (hpend : v.pending = [])
    (hinner : v.inner = .fail kind :: s) :
    read v = .error (ioFault kind) { v with inner := s } := by
  have hnext : FixedHeader.nextFrame v.pending = .ok none := by
    rw [hpend]
    rfl
  have hlen : v.pending.length < Reader.MIN := by
    rw [hpend]
    exact Nat.succ_pos _
  simp only [read, bind_apply, currentFrame_of_short hf hlen, nextFrameLoop_eq, hnext, fillHead,
    get_apply, hinner, Read.read, Schedule.read, set_apply, throw_apply]
  rfl

theorem waitRule {slice : List UInt8} (hf : v.frame = none) (hpend : v.pending = [])
    (hread : read v = .ok slice v') :
    ReaderHalf.WaitRule (fun k r => Shows r (v.delayed k)) (fun r => Shows r v') := by
  refine ⟨fun r hr => ?_, fun k r hr => ?_⟩
  · have hagree := read_simulates r (v.delayed 0) hr
    rw [show v.delayed 0 = v from rfl, hread] at hagree
    generalize Reader.read r = x at hagree
    cases hagree with
    | ok a h => exact ⟨_, _, rfl, h⟩
  · have hagree := read_simulates r (v.delayed (k + 1)) hr
    rw [read_of_fail (v := v.delayed (k + 1)) hf hpend rfl] at hagree
    generalize Reader.read r = x at hagree
    cases hagree with
    | error e h => exact ⟨_, _, rfl, rfl, h⟩

end View

/-! ## What arrives -/

/-- Chunks behind which the socket blocks, and the packets in them. -/
structure Arrival where
  chunks : List (List UInt8)
  sent : List (List UInt8 × Packet)

namespace Arrival

def frames (a : Arrival) : List (List UInt8) := a.sent.map Prod.fst

/-- One arrival after the other. -/
def schedule : List Arrival → Input
  | [] => []
  | a :: arrivals => Chunks.toSchedule a.chunks ++ .fail .wouldBlock :: schedule arrivals

/-- The chunks are whole packets, for which the buffer is large enough. -/
structure Whole [Target] (capacity : ℕ) (a : Arrival) : Prop where
  nonempty : Chunks.Nonempty a.chunks
  flatten : a.chunks.flatten = a.frames.flatten
  bears : ∀ p ∈ a.sent, Bears p.1 p.2
  fits : ∀ p ∈ a.sent, p.1.length ≤ capacity

theorem schedule_front (k : ℕ) (a : Arrival) (arrivals : List Arrival) :
    schedule (List.replicate k ⟨[], []⟩ ++ a :: arrivals) =
      List.replicate k (.fail .wouldBlock) ++
        (Chunks.toSchedule a.chunks ++ .fail .wouldBlock :: schedule arrivals) := by
  induction k with
  | zero => rfl
  | succ k ih => exact congrArg (Schedule.Event.fail IoErrorKind.wouldBlock :: ·) ih

variable [Target] {capacity : ℕ} {arrivals : List Arrival} {p : List UInt8 × Packet}
  {sent : List (List UInt8 × Packet)}

/-- Nothing arrives in front of the first packet. -/
theorem exists_front (whole : ∀ a ∈ arrivals, a.Whole capacity)
    (h : arrivals.flatMap Arrival.sent = p :: sent) :
    ∃ k chunks sent' rest, arrivals = List.replicate k ⟨[], []⟩ ++ ⟨chunks, p :: sent'⟩ :: rest ∧
      sent = sent' ++ rest.flatMap Arrival.sent := by
  induction arrivals with
  | nil => cases h
  | cons a arrivals ih =>
    obtain ⟨hwhole, hrest⟩ := List.forall_mem_cons.1 whole
    rw [List.flatMap_cons] at h
    obtain ⟨chunks, packets⟩ := a
    cases packets with
    | cons q packets =>
      obtain ⟨rfl, rfl⟩ := List.cons.inj h
      exact ⟨0, chunks, packets, arrivals, rfl, rfl⟩
    | nil =>
      obtain ⟨k, chunks', sent', rest, rfl, hsent⟩ := ih hrest h
      have hchunks : chunks = [] := by
        have hflat : ∀ c ∈ chunks, c = [] := List.flatten_eq_nil_iff.1 hwhole.flatten
        exact List.eq_nil_iff_forall_not_mem.2 fun c hc => hwhole.nonempty c hc (hflat c hc)
      subst hchunks
      exact ⟨k + 1, chunks', sent', rest, rfl, hsent⟩

/-- Behind its first packet an arrival is one again. -/
theorem Whole.behind {chunks : List (List UInt8)}
    (whole : (⟨chunks, p :: sent⟩ : Arrival).Whole capacity) :
    (⟨Chunks.advance p.1.length chunks, sent⟩ : Arrival).Whole capacity := by
  refine ⟨whole.nonempty.advance _, ?_, fun q hq => whole.bears q (List.mem_cons_of_mem _ hq),
    fun q hq => whole.fits q (List.mem_cons_of_mem _ hq)⟩
  have hflatten : chunks.flatten = p.1 ++ (sent.map Prod.fst).flatten := whole.flatten
  rw [Chunks.flatten_advance, hflatten, List.drop_left]
  rfl

/-- The first packet is separated from what arrives with it, and so are those behind it. -/
theorem separated_front {k : ℕ} {chunks : List (List UInt8)} {sent' : List (List UInt8 × Packet)}
    {rest : List Arrival} (whole : (⟨chunks, p :: sent'⟩ : Arrival).Whole capacity) :
    (∀ a ∈ List.replicate k ⟨[], []⟩ ++ ⟨chunks, p :: sent'⟩ :: rest,
        Separated a.chunks a.frames) ↔
      Chunks.window Reader.MIN (FixedHeader.headerLength p.1) 0 chunks ≤ p.1.length ∧
        ∀ a ∈ ⟨Chunks.advance p.1.length chunks, sent'⟩ :: rest, Separated a.chunks a.frames := by
  have hle : p.1.length ≤ chunks.flatten.length := by
    have := congrArg List.length whole.flatten
    simp only [frames, List.map_cons, List.flatten_cons, List.length_append] at this
    omega
  have hcons := @separated_cons chunks (sent'.map Prod.fst) p.1 whole.nonempty
  rw [← window_le_iff (whole.bears p List.mem_cons_self).1 hle] at hcons
  rw [List.forall_mem_append, List.forall_mem_cons, List.forall_mem_cons]
  constructor
  · rintro ⟨-, hhead, hrest⟩
    obtain ⟨hw, hsent⟩ := hcons.1 hhead
    exact ⟨hw, hsent, hrest⟩
  · rintro ⟨hw, hsent, hrest⟩
    refine ⟨fun a ha => ?_, hcons.2 ⟨hw, hsent⟩, hrest⟩
    rw [List.eq_of_mem_replicate ha]
    exact separated_nil []

end Arrival

/-- The writer halves that the call calls `handle_ping` on, in order. -/
def ReceiverCall.ticks {R W : Type} [Target] [Read R] [Write W] (call : ReceiverCall)
    (h : ReaderHalf R W) : List (WriterHalf W) :=
  match call.enter h with
  | .ok _ h' => ReaderHalf.loopTicks h'.polls h'
  | .error _ _ => []

namespace Connection

section

variable {W : Type} [Target] [Write W] {capacity : ℕ} {h h₀ : ReaderHalf Input W}
  {call : ReceiverCall} {frame : List UInt8} {packet : Packet} {reply : Reply}

/-- A call in front of a packet returns it exactly if the window does not pass its end, and is
behind it then. -/
theorem run_front (enter : call.enter h = .ok ⟨⟩ h₀) {k : ℕ} {chunks : List (List UInt8)}
    {tail : Input} (shows : Shows h₀.inner ⟨capacity, [], none,
      List.replicate k (.fail .wouldBlock) ++ (Chunks.toSchedule chunks ++ tail)⟩)
    (nonempty : Chunks.Nonempty chunks) {rest : List UInt8} (stream : chunks.flatten = frame ++ rest)
    (bears : Bears frame packet) (fits : frame.length ≤ capacity)
    (pings : ∀ w ∈ call.ticks h, outcome (WriterHalf.handlePing w) = .ok ⟨⟩)
    (calm : ∀ q ∈ h₀.polls, q.Calm) (enough : k < wakeups h₀.polls)
    (expects : call.expects packet = some reply) :
    ∃ h', final (call.run h) = h' ∧ h'.polls <:+ h₀.polls ∧
      wakeups h₀.polls ≤ wakeups h'.polls + k + 1 ∧
      (outcome (call.run h) = .ok reply ↔
        Chunks.window Reader.MIN (FixedHeader.headerLength frame) 0 chunks ≤ frame.length) ∧
      (Chunks.window Reader.MIN (FixedHeader.headerLength frame) 0 chunks ≤ frame.length →
        Shows h'.inner ⟨capacity, frame, some frame.length,
          Chunks.toSchedule (Chunks.advance frame.length chunks) ++ tail⟩) := by
  have hn : FixedHeader.nextFrame frame = .ok (some frame.length) := bears.1
  have hread := @View.read_chunks _ ⟨capacity, [], none, Chunks.toSchedule chunks⟩ chunks
    frame.length (frame ++ rest) rfl stream.symm rfl nonempty (FixedHeader.nextFrame_append hn _)
    (Nat.succ_pos _) fits (by simp)
  rw [FixedHeader.headerLength_append hn] at hread
  simp only [List.length_nil, Nat.sub_zero] at hread
  have hstream := Chunks.window_le_stream Reader.MIN (FixedHeader.headerLength frame) 0 chunks
  rw [stream, List.length_append, Nat.zero_add] at hstream
  generalize Chunks.window Reader.MIN (FixedHeader.headerLength frame) 0 chunks = w
    at hread hstream ⊢
  rw [ReceiverCall.ticks, enter] at pings
  have hrule := View.waitRule (by rfl) (by rfl) (View.read_more tail hread)
  obtain ⟨h', hpoll, hshows, hsuffix, hcount⟩ :=
    hrule.pollEvent (fun r hr => hr.1) pings calm enough shows
  have hpolled : call.polled h = .ok h'.inner.pending h' := by
    rw [ReceiverCall.polled, bind_apply, enter]
    exact hpoll
  have hfinal := call.final_run h
  have hrun := call.run_eq h
  rw [hpolled, final_ok] at hfinal
  rw [hpolled] at hrun
  have htake : (frame ++ rest).take (max frame.length w) =
      frame ++ rest.take (max frame.length w - frame.length) := by
    rw [List.take_append, List.take_of_length_le (le_max_left _ _)]
  have hpending : h'.inner.pending = frame ++ rest.take (max frame.length w - frame.length) :=
    (congrArg View.pending hshows.2).trans htake
  have hmore : rest.take (max frame.length w - frame.length) = [] ↔ w ≤ frame.length := by
    rw [← List.length_eq_zero_iff, List.length_take]
    omega
  refine ⟨h', hfinal, hsuffix, hcount, ?_, fun hw => ?_⟩
  · rw [hrun, hpending, ← hmore]
    simp only [bears.parse expects]
    split_ifs with hnil <;> simp [ReaderHalf.onExec, hnil]
  · have hview := hshows.2
    rw [htake, hmore.2 hw, List.append_nil, max_eq_left hw] at hview
    exact ⟨hshows.1, hview⟩

/-- `recv` drops the packet in front before it waits. -/
theorem enter_recv {inner : Input}
    (shows : Shows h.inner ⟨capacity, frame, some frame.length, inner⟩) :
    ∃ r, ReceiverCall.recv.enter h = .ok ⟨⟩ { h with inner := r } ∧
      Shows r ⟨capacity, [], none, inner⟩ := by
  have hagree := consume_simulates h.inner _ shows
  rw [show View.consume (⟨capacity, frame, some frame.length, inner⟩ : View Input) =
    .ok ⟨⟩ ⟨capacity, [], none, inner⟩ by simp [View.consume]] at hagree
  generalize hr : Reader.consume h.inner = x at hagree
  cases hagree with
  | @ok r _ a hnext =>
    refine ⟨r, ?_, hnext⟩
    simp only [ReceiverCall.enter, ReaderHalf.onReader, hr]

/-- From a call that has entered its wait in front of the arrivals the calls return their packets
exactly if these are separated. -/
theorem delivers_iff_of_enter {arrivals : List Arrival} {sent : List (List UInt8 × Packet)}
    (enter : call.enter h = .ok ⟨⟩ h₀)
    (shows : Shows h₀.inner ⟨capacity, [], none, Arrival.schedule arrivals⟩)
    (whole : ∀ a ∈ arrivals, a.Whole capacity)
    (packets : arrivals.flatMap Arrival.sent = (frame, packet) :: sent)
    (pings : ∀ c ∈ receives (call :: List.replicate sent.length .recv) h,
      ∀ w ∈ c.input.ticks c.before, outcome (WriterHalf.handlePing w) = .ok ⟨⟩)
    (calm : ∀ q ∈ h₀.polls, q.Calm) (enough : arrivals.length + sent.length ≤ wakeups h₀.polls)
    (expects : call.expects packet = some reply) :
    (receives (call :: List.replicate sent.length .recv) h).map Call.result =
        .ok reply :: sent.map (fun q => .ok (.packet q.2)) ↔
      ∀ a ∈ arrivals, Separated a.chunks a.frames := by
  induction hlen : sent.length using Nat.strong_induction_on
    generalizing call h h₀ arrivals frame packet sent reply with
  | _ n ih =>
    subst hlen
    obtain ⟨k, chunks, sent', rest, rfl, hsent⟩ := Arrival.exists_front whole packets
    have hwhole : (⟨chunks, (frame, packet) :: sent'⟩ : Arrival).Whole capacity :=
      whole _ (List.mem_append_right _ List.mem_cons_self)
    have hbehind := hwhole.behind
    rw [List.length_append, List.length_replicate, List.length_cons] at enough
    rw [Arrival.schedule_front] at shows
    rw [receives, log, List.forall_mem_cons] at pings
    obtain ⟨hpings, hlater⟩ := pings
    obtain ⟨h', hfinal, hsuffix, hcount, hout, hshows⟩ := run_front enter shows hwhole.nonempty
      hwhole.flatten (hwhole.bears _ List.mem_cons_self) (hwhole.fits _ List.mem_cons_self) hpings
      calm (by omega) expects
    rw [Arrival.separated_front hwhole, receives, log, List.map_cons, List.cons.injEq, hout]
    refine and_congr_right fun hw => ?_
    have hok := hout.2 hw
    simp only [hok, hfinal, ReaderHalf.stops, Bool.false_eq_true, if_false] at hlater ⊢
    have hrest : ∀ a ∈ ⟨Chunks.advance frame.length chunks, sent'⟩ :: rest, a.Whole capacity :=
      List.forall_mem_cons.2 ⟨hbehind, fun a ha => whole a (List.mem_append_right _
        (List.mem_cons_of_mem _ ha))⟩
    cases sent with
    | nil =>
      refine iff_of_true rfl fun a ha => ?_
      obtain ⟨hsent', hrest'⟩ := List.append_eq_nil_iff.1 hsent.symm
      have hnone : a.sent = [] := by
        rcases List.mem_cons.1 ha with rfl | ha
        · exact hsent'
        · exact List.flatMap_eq_nil_iff.1 hrest' a ha
      rw [Arrival.frames, hnone]
      exact separated_nil _
    | cons q sent =>
      obtain ⟨r, henter, hnext⟩ := enter_recv (hshows hw)
      have hcalm : ∀ q ∈ h'.polls, q.Calm := fun q hq => calm q (hsuffix.subset hq)
      have henough : (⟨Chunks.advance frame.length chunks, sent'⟩ :: rest : List Arrival).length +
          sent.length ≤ wakeups h'.polls := by
        rw [List.length_cons] at enough ⊢
        omega
      exact ih sent.length (Nat.lt_succ_self _) henter hnext hrest hsent.symm hlater hcalm henough
        rfl rfl

/-- As long as `poll` wakes up for the socket often enough and the pings are written, `connect` and
the calls of `recv` behind it return the packets that arrive, one each and in order, exactly if
every packet shorter than the window has, in its piece, a chunk boundary between its header and its
end. -/
theorem delivers_iff {arrivals : List Arrival} {connack : ConnAck}
    {sent : List (List UInt8 × Packet)} {value : ConnectBuilder} {writer : WriterHalf W}
    (new : Reader.withCapacity (Arrival.schedule arrivals) capacity = some h.inner)
    (whole : ∀ a ∈ arrivals, a.Whole capacity)
    (packets : arrivals.flatMap Arrival.sent = (frame, .connAck connack) :: sent)
    (connects : WriterHalf.connect value h.writer = .ok ⟨⟩ writer)
    (pings : ∀ c ∈ receives (.connect value :: List.replicate sent.length .recv) h,
      ∀ w ∈ c.input.ticks c.before, outcome (WriterHalf.handlePing w) = .ok ⟨⟩)
    (calm : ∀ q ∈ h.polls, q.Calm) (enough : arrivals.length + sent.length ≤ wakeups h.polls) :
    (receives (.connect value :: List.replicate sent.length .recv) h).map Call.result =
        .ok (.connAck connack) :: sent.map (fun q => .ok (.packet q.2)) ↔
      ∀ a ∈ arrivals, Separated a.chunks a.frames := by
  have henter : ReceiverCall.enter (.connect value) h = .ok ⟨⟩ { h with writer } := by
    simp only [ReceiverCall.enter, ReaderHalf.onWriter, connects]
  exact delivers_iff_of_enter henter (shows_withCapacity new) whole packets pings calm enough rfl

end

end Connection

theorem Connection.delivers_iff_two :
    letI := Target.debug
    letI arrivals : List Arrival :=
      [⟨[[0x20, 2], [0, 0]], [([0x20, 2, 0, 0], .connAck ⟨⟨0⟩, .accepted⟩)]⟩,
        ⟨[[0xD0, 0]], [([0xD0, 0], .pingResp)]⟩]
    letI h : ReaderHalf Input Socket := ⟨⟨[0, 0, 0, 0, 0], 0, none, 0,
      Arrival.schedule arrivals⟩, ⟨false, ⟨[], [], []⟩⟩,
      List.replicate 3 ⟨id, .ok [.timer true, .reader]⟩⟩
    (Connection.receives [.connect ConnectBuilder.withEmptyClientId, .recv] h).map Call.result =
        [.ok (.connAck ⟨⟨0⟩, .accepted⟩), .ok (.packet .pingResp)] ↔
      ∀ a ∈ arrivals, Separated a.chunks a.frames := by
  refine @Connection.delivers_iff _ Target.debug _ 5 _ _ _ _ [([0xD0, 0], .pingResp)] _ _ rfl
    ?_ rfl rfl ?_ ?_ (by decide)
  · rintro a (_ | ⟨_, _ | ⟨_, ⟨⟩⟩⟩)
    · exact @Arrival.Whole.mk Target.debug _ _ (by decide) rfl
        (List.forall_mem_singleton.2 ⟨rfl, rfl⟩) (by decide)
    · exact @Arrival.Whole.mk Target.debug _ _ (by decide) rfl
        (List.forall_mem_singleton.2 ⟨rfl, rfl⟩) (by decide)
  · decide +kernel
  · intro q hq
    rw [List.eq_of_mem_replicate hq]
    exact ⟨_, rfl, by decide⟩

end Mcutt
