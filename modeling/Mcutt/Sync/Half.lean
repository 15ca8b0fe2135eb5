import Mcutt.Packets.Packet
import Mcutt.Sync.Interruption

/-!
# Receiving packets

`ReaderHalf::recv` with the event loop below it.  What `poll` reports is a script: the error it
fails with, or the events it wakes up for, and for an event of the timer whether reading the timer
succeeds.  The writer half is shared, so each entry of the script also says what the other holders
of the writer have done to it meanwhile.
-/

namespace Mcutt

open Machine

/-! ## The writer half -/

structure WriterHalf (W : Type) where
  sentFlag : Bool
  inner : W
  deriving DecidableEq, Repr

namespace WriterHalf

variable {W : Type} [Target] [Write W]

/-- `T::write_sync(&mut &self.inner, value)`. -/
def writeSync (packet : Enc ℕ) : EStateM Fault (WriterHalf W) ℕ := fun self =>
  match packet.run self.inner with
  | (.ok n, inner) => .ok n { self with inner }
  | (.error e, inner) => .error e { self with inner }

def flush : EStateM Fault (WriterHalf W) Unit := fun self =>
  match Write.flush self.inner with
  | (.ok (), inner) => .ok () { self with inner }
  | (.error kind, inner) =>
    .error (.err ⟨.stdIo kind, "while flusing the writer"⟩) { self with inner }

def handlePing : EStateM Fault (WriterHalf W) Unit := do
  let self ← get
  if self.sentFlag then set { self with sentFlag := false }
  else do
    let _ ← writeSync PingReq.writeSync
    flush
    modify fun self => { self with sentFlag := false }

end WriterHalf

/-! ## The reader half -/

/-- The tokens `poll` reports, the timer's with whether reading it gives its eight bytes. -/
inductive PollEvent where
  | reader
  | timer (read : Bool)
  deriving DecidableEq, Repr

/-- One return of `poll`, and what the other holders of the writer did to it before. -/
structure Poll (W : Type) where
  meanwhile : WriterHalf W → WriterHalf W
  events : Except IoErrorKind (List PollEvent)

structure ReaderHalf (R W : Type) where
  inner : Reader R
  writer : WriterHalf W
  polls : List (Poll W)

/-- How a call ends that does not return `Ok`: with a fault, or not at all before the script of
`poll` is over. -/
inductive Stop where
  | fault (f : Fault)
  | waiting
  deriving DecidableEq, Repr

namespace ReaderHalf

abbrev HalfM (R W : Type) := EStateM Stop (ReaderHalf R W)

variable {R W α : Type}

def onReader (x : ReaderM R α) : HalfM R W α := fun self =>
  match x self.inner with
  | .ok a inner => .ok a { self with inner }
  | .error e inner => .error (.fault e) { self with inner }

def onWriter (x : EStateM Fault (WriterHalf W) α) : HalfM R W α := fun self =>
  match x self.writer with
  | .ok a writer => .ok a { self with writer }
  | .error e writer => .error (.fault e) { self with writer }

def onExec (x : Exec α) : HalfM R W α := fun self =>
  match x with
  | .ok a => .ok a self
  | .error e => .error (.fault e) self

section

variable [Target] [Read R] [Write W]

/-- The arm of the socket; `true` is `break 'blk`. -/
def readerEvent : HalfM R W Bool := fun self =>
  match Reader.read self.inner with
  | .ok _ inner => .ok true { self with inner }
  | .error (.err e) inner =>
    if wouldBlock e then .ok false { self with inner }
    else .error (.fault (.err e)) { self with inner }
  | .error e inner => .error (.fault e) { self with inner }

/-- The arm of the timer. -/
def timerEvent (read : Bool) : HalfM R W Unit :=
  if read then onWriter WriterHalf.handlePing
  else throw (.fault (.err ⟨.invalid, "read"⟩))

/-- The `for` loop; `true` is `break 'blk`. -/
def handleEvents : List PollEvent → HalfM R W Bool
  | [] => pure false
  | .reader :: events => do
    let done ← readerEvent
    if done then pure true else handleEvents events
  | .timer read :: events => do
    timerEvent read
    handleEvents events

/-- One return of `poll`. -/
def poll (p : Poll W) (polls : List (Poll W)) : HalfM R W (List PollEvent) := do
  modify fun self => { self with polls, writer := p.meanwhile self.writer }
  match p.events with
  | .error kind => throw (.fault (.err ⟨.stdIo kind, "while polling"⟩))
  | .ok events => pure events

/-- The `loop`, over what `poll` does at one entry of its script and when the script is over. -/
def pollLoopWith {P : Type} (poll : P → List P → HalfM R W (List PollEvent))
    (idle : HalfM R W Unit) : List P → HalfM R W Unit
  | [] => idle
  | p :: polls => do
    let events ← poll p polls
    let done ← handleEvents events
    if done then pure () else pollLoopWith poll idle polls

def pollEventWith (loop : HalfM R W Unit) : HalfM R W (List UInt8) := do
  loop
  onReader Reader.buff

def recvWith (pollEvent : HalfM R W (List UInt8)) : HalfM R W Packet := do
  onReader Reader.consume
  let buf ← pollEvent
  onExec (Mcutt.consume Packet.parse buf)

def pollLoop : List (Poll W) → HalfM R W Unit := pollLoopWith poll (throw .waiting)

theorem pollLoop_cons (p : Poll W) (polls : List (Poll W)) :
    (pollLoop (p :: polls) : HalfM R W Unit) = poll p polls >>= fun events =>
      handleEvents events >>= fun done => if done then pure () else pollLoop polls := rfl

def pollEvent : HalfM R W (List UInt8) := do
  let self ← get
  pollEventWith (pollLoop self.polls)

def recv : HalfM R W Packet := recvWith pollEvent

omit [Read R] [Write W] in
/-- The state in which `recv` calls `poll_event`. -/
def begun (h : ReaderHalf R W) : ReaderHalf R W :=
  { h with inner := final (Reader.consume h.inner) }

/-! ## The calls of `read` and of `handle_ping` -/

/-- The readers that the loop over events calls `read` on, in order. -/
def eventReads : List PollEvent → ReaderHalf R W → List (Reader R)
  | [], _ => []
  | .reader :: events, h =>
    h.inner :: match readerEvent h with
      | .ok false h' => eventReads events h'
      | _ => []
  | .timer read :: events, h =>
    match timerEvent read h with
    | .ok () h' => eventReads events h'
    | .error _ _ => []

/-- The readers that the `loop` calls `read` on, in order. -/
def loopReads : List (Poll W) → ReaderHalf R W → List (Reader R)
  | [], _ => []
  | p :: polls, h =>
    match poll p polls h with
    | .error _ _ => []
    | .ok events h' =>
      eventReads events h' ++ match handleEvents events h' with
        | .ok false h'' => loopReads polls h''
        | _ => []

/-- The writer halves that the loop over events calls `handle_ping` on, in order. -/
def eventTicks : List PollEvent → ReaderHalf R W → List (WriterHalf W)
  | [], _ => []
  | .reader :: events, h =>
    match readerEvent h with
    | .ok false h' => eventTicks events h'
    | _ => []
  | .timer false :: _, _ => []
  | .timer true :: events, h =>
    h.writer :: match timerEvent true h with
      | .ok () h' => eventTicks events h'
      | .error _ _ => []

/-- The writer halves that the `loop` calls `handle_ping` on, in order. -/
def loopTicks : List (Poll W) → ReaderHalf R W → List (WriterHalf W)
  | [], _ => []
  | p :: polls, h =>
    match poll p polls h with
    | .error _ _ => []
    | .ok events h' =>
      eventTicks events h' ++ match handleEvents events h' with
        | .ok false h'' => loopTicks polls h''
        | _ => []

/-! ## The rule of the event loop -/

/-- What `poll_event` does to the reader is what calls of `read` do, up to one that does not fail
with `WouldBlock`: `I` holds before every call, `D` after one that returned and `E` at a failure. -/
structure LoopRule (I D E : Reader R → Prop) : Prop where
  stopped : ∀ r, I r → E r
  step : ∀ r, I r → match Reader.read r with
    | .ok _ r' => D r'
    | .error (.err e) r' => if wouldBlock e then I r' else E r'
    | .error _ r' => E r'

variable {I D E : Reader R → Prop}

omit [Write W] in
theorem LoopRule.readerEvent (rule : LoopRule I D E) :
    Triple (fun h : ReaderHalf R W => I h.inner) readerEvent
      (fun done h => if done then D h.inner else I h.inner) (fun h => E h.inner) := by
  intro h hI
  have hstep := rule.step h.inner hI
  unfold ReaderHalf.readerEvent
  rcases hread : Reader.read h.inner with ⟨slice, r'⟩ | ⟨e | msg, r'⟩
  · rw [hread] at hstep
    exact hstep
  · rw [hread] at hstep
    cases hblock : wouldBlock e with
    | true =>
      simp only [hblock, if_true] at hstep ⊢
      exact hstep
    | false =>
      simp only [hblock, Bool.false_eq_true, if_false] at hstep ⊢
      exact hstep
  · rw [hread] at hstep
    exact hstep

omit [Read R] in
theorem timerEvent_triple (hE : ∀ r, I r → E r) (read : Bool) :
    Triple (fun h : ReaderHalf R W => I h.inner) (timerEvent read) (fun _ h => I h.inner)
      (fun h => E h.inner) := by
  intro h hI
  cases read with
  | false => exact hE _ hI
  | true =>
    simp only [timerEvent, if_true, onWriter]
    cases WriterHalf.handlePing h.writer with
    | ok a writer => exact hI
    | error e writer => exact hE _ hI

theorem LoopRule.handleEvents (rule : LoopRule I D E) (events : List PollEvent) :
    Triple (fun h : ReaderHalf R W => I h.inner) (handleEvents events)
      (fun done h => if done then D h.inner else I h.inner) (fun h => E h.inner) := by
  induction events with
  | nil => exact .pure fun _ hI => hI
  | cons event events ih =>
    cases event with
    | reader =>
      refine rule.readerEvent.bind fun done => ?_
      cases done with
      | true => exact .pure fun _ hD => hD
      | false => exact ih
    | timer read => exact (timerEvent_triple rule.stopped read).bind fun _ => ih

omit [Target] [Read R] [Write W] in
theorem poll_triple (hE : ∀ r, I r → E r) (p : Poll W) (polls : List (Poll W)) :
    Triple (fun h : ReaderHalf R W => I h.inner) (poll p polls) (fun _ h => I h.inner)
      (fun h => E h.inner) := by
  intro h hI
  obtain ⟨meanwhile, events⟩ := p
  cases events with
  | error kind => exact hE _ hI
  | ok events => exact hI

theorem LoopRule.pollLoop (rule : LoopRule I D E) (polls : List (Poll W)) :
    Triple (fun h : ReaderHalf R W => I h.inner) (pollLoop polls) (fun _ h => D h.inner)
      (fun h => E h.inner) := by
  induction polls with
  | nil => exact .throw fun _ hI => rule.stopped _ hI
  | cons p polls ih =>
    rw [pollLoop_cons]
    refine (poll_triple rule.stopped p polls).bind fun events => ?_
    refine (rule.handleEvents events).bind fun done => ?_
    cases done with
    | true => exact .pure fun _ hD => hD
    | false => exact ih

theorem pollEvent_eq {h : ReaderHalf R W} (valid : (final (pollLoop h.polls h)).inner.Valid) :
    pollEvent h = match pollLoop h.polls h with
      | .ok _ h' => .ok h'.inner.pending h'
      | .error e h' => .error e h' := by
  simp only [pollEvent, pollEventWith, bind_apply, get_apply]
  cases hloop : pollLoop h.polls h with
  | error e h' => rfl
  | ok u h' =>
    rw [hloop, final_ok] at valid
    simp only [onReader, valid.buff_eq]

/-- The slice `poll_event` returns is what is pending. -/
theorem LoopRule.pollEvent (rule : LoopRule I D E) (hD : ∀ r, D r → r.Valid) :
    Triple (fun h : ReaderHalf R W => I h.inner) pollEvent
      (fun slice h => D h.inner ∧ slice = h.inner.pending) (fun h => E h.inner) := by
  have hbuff : Triple (fun h : ReaderHalf R W => D h.inner) (onReader Reader.buff)
      (fun slice h => D h.inner ∧ slice = h.inner.pending) (fun h => E h.inner) := by
    intro h' hd
    simp only [onReader, (hD _ hd).buff_eq]
    exact ⟨hd, trivial⟩
  intro h hI
  exact (rule.pollLoop h.polls).bind (fun _ => hbuff) h hI

/-- Calls of `read` up to one that returns, each with what the one before it left. -/
inductive ReadsTo : Reader R → List (Reader R) → Bool → Reader R → Prop where
  | stop (r : Reader R) : ReadsTo r [] false r
  | found {r r' : Reader R} {slice : List UInt8} (read : Reader.read r = .ok slice r') :
      ReadsTo r [r] true r'
  | failed {r r' r'' : Reader R} {e : Fault} {rs : List (Reader R)} {done : Bool}
      (read : Reader.read r = .error e r') (rest : ReadsTo r' rs done r'') :
      ReadsTo r (r :: rs) done r''

namespace ReadsTo

variable {r r' r'' : Reader R} {rs rs' : List (Reader R)} {done : Bool} {I K P : Reader R → Prop}

omit [Write W] in
theorem trans (first : ReadsTo r rs false r') (rest : ReadsTo r' rs' done r'') :
    ReadsTo r (rs ++ rs') done r'' := by
  generalize hd : false = d at first
  induction first with
  | stop => exact rest
  | found read => cases hd
  | failed read _ ih => exact .failed read (ih rest hd)

/-- What every call of `read` keeps holds before all of them and in the end. -/
theorem keeps (keep : ∀ r, I r → I (final (Reader.read r))) (reads : ReadsTo r rs done r')
    (hr : I r) : (∀ x ∈ rs, I x) ∧ I r' := by
  induction reads with
  | stop => exact ⟨by simp, hr⟩
  | @found r _ _ read =>
    have hnext := keep r hr
    rw [read] at hnext
    exact ⟨by simpa using hr, hnext⟩
  | @failed r _ _ _ _ _ read _ ih =>
    have hnext := keep r hr
    rw [read] at hnext
    obtain ⟨hrest, hend⟩ := ih hnext
    exact ⟨List.forall_mem_cons.2 ⟨hr, hrest⟩, hend⟩

/-- What a call of `read` leaves exactly if it was there or `P` holds is there in the end exactly if
it was there in the beginning or `P` holds at one of the calls. -/
theorem gain_iff (keep : ∀ r, I r → I (final (Reader.read r)))
    (gain : ∀ r, I r → (K (final (Reader.read r)) ↔ K r ∨ P r)) (reads : ReadsTo r rs done r')
    (hr : I r) : K r' ↔ K r ∨ ∃ x ∈ rs, P x := by
  induction reads with
  | stop => simp
  | @found r _ _ read =>
    have hgain := gain r hr
    rw [read] at hgain
    simpa using hgain
  | @failed r _ _ _ _ _ read _ ih =>
    have hnext := keep r hr
    have hgain := gain r hr
    rw [read, final_error] at hnext hgain
    rw [ih hnext, hgain, List.exists_mem_cons_iff, or_assoc]

/-- The calls end with a slice exactly if one of them returns it. -/
theorem found_iff (reads : ReadsTo r rs done r') :
    done = true ∧ r' = r'' ↔ ∃ x ∈ rs, ∃ slice, Reader.read x = .ok slice r'' := by
  induction reads with
  | stop => simp
  | found read => simp [read]
  | failed read _ ih => simp [ih, read]

end ReadsTo

omit [Write W] in
theorem readerEvent_reads (h : ReaderHalf R W) :
    match readerEvent h with
    | .ok true h' => ∃ slice, Reader.read h.inner = .ok slice h'.inner
    | .ok false h' => ∃ e, Reader.read h.inner = .error e h'.inner
    | .error _ h' => ∃ e, Reader.read h.inner = .error e h'.inner := by
  unfold readerEvent
  rcases Reader.read h.inner with ⟨slice, r'⟩ | ⟨e | msg, r'⟩
  · exact ⟨slice, rfl⟩
  · cases hblock : wouldBlock e <;> simp [hblock]
  · exact ⟨.panicked msg, rfl⟩

theorem handleEvents_reads (events : List PollEvent) (h : ReaderHalf R W) :
    match handleEvents events h with
    | .ok done h' => ReadsTo h.inner (eventReads events h) done h'.inner
    | .error _ h' => ReadsTo h.inner (eventReads events h) false h'.inner := by
  induction events generalizing h with
  | nil => exact .stop _
  | cons event events ih =>
    cases event with
    | reader =>
      have hread := readerEvent_reads h
      rw [handleEvents, bind_apply, eventReads]
      generalize readerEvent h = x at hread ⊢
      rcases x with ⟨_ | _, h'⟩ | ⟨stop, h'⟩
      · obtain ⟨e, hread⟩ := hread
        have hrest := ih h'
        simp only [Bool.false_eq_true, if_false]
        cases hevents : handleEvents events h' with
        | ok done h'' =>
          rw [hevents] at hrest
          exact .failed hread hrest
        | error stop h'' =>
          rw [hevents] at hrest
          exact .failed hread hrest
      · obtain ⟨slice, hread⟩ := hread
        exact .found hread
      · obtain ⟨e, hread⟩ := hread
        exact .failed hread (.stop _)
    | timer read =>
      have hsame := timerEvent_triple (I := (· = h.inner)) (W := W) (fun _ h => h) read h rfl
      rw [handleEvents, bind_apply, eventReads]
      generalize timerEvent read h = x at hsame ⊢
      rcases x with ⟨u, h'⟩ | ⟨stop, h'⟩
      · have hsame : h'.inner = h.inner := hsame
        exact hsame ▸ ih h'
      · have hsame : h'.inner = h.inner := hsame
        exact hsame ▸ .stop _

/-- The loop ends with a slice exactly if its last call of `read` does. -/
theorem pollLoop_reads (polls : List (Poll W)) (h : ReaderHalf R W) :
    ReadsTo h.inner (loopReads polls h) (outcome (pollLoop polls h)).isOk
      (final (pollLoop polls h)).inner := by
  induction polls generalizing h with
  | nil => exact .stop _
  | cons p polls ih =>
    have hsame := poll_triple (I := (· = h.inner)) (W := W) (fun _ h => h) p polls h rfl
    rw [pollLoop_cons, bind_apply, loopReads]
    generalize poll p polls h = x at hsame ⊢
    rcases x with ⟨events, h'⟩ | ⟨stop, h'⟩
    · have hsame : h'.inner = h.inner := hsame
      have hreads := handleEvents_reads events h'
      rw [hsame] at hreads
      simp only [bind_apply]
      generalize handleEvents events h' = x at hreads ⊢
      rcases x with ⟨_ | _, h''⟩ | ⟨stop, h''⟩
      · exact hreads.trans (ih h'')
      · simpa [Except.isOk, Except.toBool] using hreads
      · simpa [Except.isOk, Except.toBool] using hreads
    · have hsame : h'.inner = h.inner := hsame
      exact hsame ▸ .stop _

end

end ReaderHalf

end Mcutt
