import Mcutt.Sync.Sender

/-!
# Sends that fail midway

The socket does not block, so a `write_all` may fail having taken a part of its bytes.  The send
returns the error and the writer half does not know of the part.  Every state of a run is at the
end of a packet if and only if the socket takes of every packet all bytes or none
(`sends_on_boundary_iff`); the reader, which is on the same socket, does go on where it was
interrupted.
-/

namespace Mcutt

open Machine

/-! ## A socket that fails -/

/-- What a `write_all` does: it takes all bytes, or fails after some of them.  The one of the
standard library does not fail on an empty buffer and goes on after an interruption.  Here every
`write_all` has an outcome of its own, an empty one too, and may end with an error of any kind, so
the runs of a real socket are among those considered. -/
inductive Outcome where
  | all
  | part (n : ℕ) (kind : IoErrorKind)
  deriving DecidableEq, Repr

/-- A socket with what it is going to do.  When a script is over, nothing fails any more. -/
structure Socket where
  written : List UInt8
  outcomes : List Outcome
  flushes : List (Except IoErrorKind Unit)

instance : Write Socket where
  writeAll bs w :=
    match w.outcomes with
    | [] => (.ok (), { w with written := w.written ++ bs })
    | .all :: outcomes => (.ok (), { w with written := w.written ++ bs, outcomes })
    | .part n kind :: outcomes =>
      (.error kind, { w with written := w.written ++ bs.take n, outcomes })
  flush w :=
    match w.flushes with
    | [] => (.ok (), w)
    | r :: flushes => (r, { w with flushes })

namespace Socket

/-- The bytes that are taken of a list of writes, the first failure being the end. -/
def taken : List Outcome → List (List UInt8) → List UInt8
  | _, [] => []
  | [], bs :: writes => bs ++ taken [] writes
  | .all :: outcomes, bs :: writes => bs ++ taken outcomes writes
  | .part n _ :: _, bs :: _ => bs.take n

theorem taken_prefix (outcomes : List Outcome) (writes : List (List UInt8)) :
    taken outcomes writes <+: writes.flatten := by
  induction writes generalizing outcomes with
  | nil => simp [taken]
  | cons bs writes ih =>
    rw [List.flatten_cons]
    cases outcomes with
    | nil => exact (List.prefix_append_right_inj bs).2 (ih [])
    | cons o outcomes =>
      cases o with
      | all => exact (List.prefix_append_right_inj bs).2 (ih outcomes)
      | part n kind => exact (List.take_prefix n bs).trans (List.prefix_append _ _)

/-- An encoder leaves on the socket what is taken of its writes. -/
theorem written_run {α : Type} (e : Enc α) (w : Socket) :
    (e.run w).2.written = w.written ++ taken w.outcomes e.writes := by
  induction e generalizing w with
  | done r => simp [Enc.run, Enc.writes, taken]
  | write bs msg next ih =>
    obtain ⟨written, outcomes, flushes⟩ := w
    cases outcomes with
    | nil =>
      show (next.run (⟨written ++ bs, [], flushes⟩ : Socket)).2.written = _
      rw [ih]
      exact List.append_assoc _ _ _
    | cons o outcomes =>
      cases o with
      | all =>
        show (next.run (⟨written ++ bs, outcomes, flushes⟩ : Socket)).2.written = _
        rw [ih]
        exact List.append_assoc _ _ _
      | part n kind => rfl

end Socket

/-! ## The calls of a run -/

/-- A call that writes to the writer half after the connection was made. -/
inductive WriterCall where
  | send (call : SenderCall)
  | handlePing

namespace WriterCall

/-- The packet the call sends, if it does. -/
def packet {W : Type} (call : WriterCall) (self : WriterHalf W) : Option ClientPacket :=
  match call with
  | send call => some call.packet
  | handlePing => if self.sentFlag then none else some .pingReq

section

variable [Target]

def run {W : Type} [Write W] : WriterCall → EStateM Fault (WriterHalf W) Unit
  | send call => call.run
  | handlePing => WriterHalf.handlePing

/-- The encoder accepts the packet of the call. -/
def Valid : WriterCall → Prop
  | send call => call.Valid
  | handlePing => True

/-- The bytes that the socket takes in the call. -/
def taken (call : WriterCall) (w : WriterHalf Socket) : List UInt8 :=
  (call.packet w).elim [] fun p => Socket.taken w.inner.outcomes p.writeSync.writes

/-- Of the packet of the call, the socket takes all bytes or none. -/
def TakesWhole (call : WriterCall) (w : WriterHalf Socket) : Prop :=
  ∀ p ∈ call.packet w, call.taken w = [] ∨ call.taken w = p.wire

omit [Target] in
theorem written_writeSync (packet : Enc ℕ) (w : WriterHalf Socket) :
    (final (WriterHalf.writeSync packet w)).inner.written =
      w.inner.written ++ Socket.taken w.inner.outcomes packet.writes := by
  rw [← Socket.written_run, WriterHalf.writeSync]
  rcases packet.run w.inner with ⟨_ | _, inner⟩ <;> rfl

omit [Target] in
theorem written_flush (w : WriterHalf Socket) :
    (final (WriterHalf.flush w)).inner.written = w.inner.written := by
  obtain ⟨sentFlag, written, outcomes, flushes⟩ := w
  cases flushes with
  | nil => rfl
  | cons r flushes => cases r <;> rfl

omit [Target] in
/-- What follows the `write_sync` of a call writes nothing. -/
theorem written_writeSync_bind {α : Type} (packet : Enc ℕ)
    {f : ℕ → EStateM Fault (WriterHalf Socket) α}
    (hf : ∀ n w, (final (f n w)).inner.written = w.inner.written) (w : WriterHalf Socket) :
    (final ((WriterHalf.writeSync packet >>= f) w)).inner.written =
      w.inner.written ++ Socket.taken w.inner.outcomes packet.writes := by
  rw [← written_writeSync, bind_apply]
  cases h : WriterHalf.writeSync packet w with
  | ok n w' => exact hf n w'
  | error e w' => rfl

omit [Target] in
/-- Neither do `flush` and a store to the flag. -/
theorem written_flush_bind (b : Bool) (w : WriterHalf Socket) :
    (final ((WriterHalf.flush >>= fun _ => modify fun self : WriterHalf Socket =>
      { self with sentFlag := b }) w)).inner.written = w.inner.written := by
  rw [← written_flush w, bind_apply]
  cases h : WriterHalf.flush w with
  | ok u w' => rfl
  | error e w' => rfl

/-- A call adds to the stream what the socket takes of its packet. -/
theorem written_run (call : WriterCall) (w : WriterHalf Socket) :
    (final (call.run w)).inner.written = w.inner.written ++ call.taken w := by
  cases call with
  | send call =>
    cases call with
    | publish value | subscribe value | unsubscribe value =>
      exact written_writeSync_bind _ (fun _ => written_flush_bind true) w
    | disconnect => exact written_writeSync_bind _ (fun _ => written_flush) w
  | handlePing =>
    obtain ⟨sentFlag, inner⟩ := w
    cases sentFlag with
    | true => exact (List.append_nil _).symm
    | false => exact written_writeSync_bind _ (fun _ => written_flush_bind false) _

/-! ## Packet boundaries -/

/-- What is written is a concatenation of whole packets. -/
def OnBoundary (w : WriterHalf Socket) : Prop :=
  Framing.IsStream FixedHeader.nextFrame w.inner.written

/-- The packet of a valid call is one frame, which its encoder writes. -/
theorem Valid.packet_written {W : Type} {call : WriterCall} (valid : call.Valid)
    {self : WriterHalf W} {p : ClientPacket} (hp : call.packet self = some p) :
    p.writeSync.writes.flatten = p.wire ∧ Framing.IsFrame FixedHeader.nextFrame p.wire := by
  have hok : ∃ n, p.writeSync.result = .ok n := by
    cases call with
    | send call =>
      obtain rfl := Option.some.inj hp
      exact valid
    | handlePing =>
      rw [packet] at hp
      split_ifs at hp
      obtain rfl := Option.some.inj hp
      exact ⟨_, (Bare.writeSync_writes .pingReq).result_eq⟩
  obtain ⟨n, hn⟩ := hok
  obtain ⟨hout, -, hframe⟩ := ClientPacket.writeSync_eq_ok hn
  exact ⟨(Enc.flatten_writes _).trans hout, hframe⟩

/-- One call goes from a boundary to a boundary if its packet is taken whole. -/
theorem Valid.onBoundary_iff {call : WriterCall} (valid : call.Valid) {w : WriterHalf Socket}
    (hw : OnBoundary w) : OnBoundary (final (call.run w)) ↔ call.TakesWhole w := by
  rw [OnBoundary, written_run]
  cases hp : call.packet w with
  | none =>
    rw [taken, hp, Option.elim_none, List.append_nil]
    apply iff_of_true hw
    intro p hmem
    rw [hp] at hmem
    cases hmem
  | some p =>
    obtain ⟨hwrites, hframe⟩ := valid.packet_written hp
    have hprefix : call.taken w <+: p.wire := by
      rw [taken, hp, Option.elim_some, ← hwrites]
      exact Socket.taken_prefix _ _
    rw [Framing.IsStream.append_iff hw hframe hprefix]
    simp only [TakesWhole, hp, Option.mem_def, Option.some.injEq, forall_eq']

/-- The calls of a run in order, those after a failed one included. -/
def calls (script : List WriterCall) (w : WriterHalf Socket) :
    List (Call WriterCall Fault (WriterHalf Socket) Unit) :=
  log (fun _ => false) run script w

/-- Every packet whose send returns `Ok` starts at the end of a packet. -/
def SentOnBoundary (run : List (Call WriterCall Fault (WriterHalf Socket) Unit)) : Prop :=
  ∀ c ∈ run, c.result = .ok () → (c.input.packet c.before).isSome = true → OnBoundary c.before

/-- Of every packet before one whose send returns `Ok`, the socket took all bytes or none. -/
def WholeBeforeSent (run : List (Call WriterCall Fault (WriterHalf Socket) Unit)) : Prop :=
  ∀ pre c post, run = pre ++ c :: post → c.result = .ok () →
    (c.input.packet c.before).isSome = true → ∀ d ∈ pre, d.input.TakesWhole d.before

/-- If of every packet before it the socket took all bytes or none, a packet that is sent starts at
the end of one.  A run stays at the ends of packets in no other case: behind the first packet of
which the socket took a part, the next one starts inside it. -/
theorem sends_on_boundary_iff (script : List WriterCall) (w : WriterHalf Socket)
    (valid : ∀ call ∈ script, call.Valid) (hw : OnBoundary w) :
    (WholeBeforeSent (calls script w) → SentOnBoundary (calls script w)) ∧
    ((∀ c ∈ calls script w, OnBoundary c.after) ↔
      ∀ c ∈ calls script w, c.input.TakesWhole c.before) := by
  have before {pre post : List (Call WriterCall Fault (WriterHalf Socket) Unit)}
      {c : Call WriterCall Fault (WriterHalf Socket) Unit}
      (hrun : calls script w = pre ++ c :: post)
      (hpre : ∀ d ∈ pre, d.input.TakesWhole d.before) : OnBoundary c.before := by
    apply invariant_before_of_log (P := fun i s => i.Valid ∧ i.TakesWhole s) ?_ hw hrun ?_
    · rintro i s hs ⟨hvalid, hwhole⟩
      exact (hvalid.onBoundary_iff hs).2 hwhole
    · intro d hd
      have hmem : d ∈ calls script w := by
        rw [hrun]
        exact List.mem_append_left _ hd
      exact ⟨valid _ (input_of_log hmem), hpre d hd⟩
  have step {c : Call WriterCall Fault (WriterHalf Socket) Unit} (hc : c ∈ calls script w)
      (hbefore : OnBoundary c.before) :
      OnBoundary c.after ↔ c.input.TakesWhole c.before := by
    rw [(call_of_log hc).2]
    exact (valid _ (input_of_log hc)).onBoundary_iff hbefore
  refine ⟨fun h c hc hok hsends => ?_, fun h c hc => (step hc ?_).1 (h c hc),
    fun h c hc => (step hc ?_).2 (h c hc)⟩
  · obtain ⟨pre, post, hrun⟩ := List.append_of_mem hc
    exact before hrun (h pre c post hrun hok hsends)
  · refine (invariant_of_log (P := fun i s => OnBoundary (final (run i s)))
      (fun i s _ hfinal => hfinal) hw (fun d hd => ?_) hc).1
    rw [← (call_of_log hd).2]
    exact h d hd
  · obtain ⟨pre, post, hrun⟩ := List.append_of_mem hc
    refine before hrun fun d hd => h d ?_
    rw [hrun]
    exact List.mem_append_left _ hd

end

/-- A PUBLISH of which the socket takes nothing, and the PINGREQ of the timer behind it. -/
theorem sends_on_boundary_iff_two :
    letI := Target.debug
    let run := calls [.send (.publish (PublishBuilder.new "a" [1])), .handlePing]
      ⟨false, ⟨[], [.part 0 .wouldBlock], []⟩⟩
    SentOnBoundary run ∧ ∀ c ∈ run, OnBoundary c.after := by
  let := Target.debug
  have valid : ∀ call ∈ [.send (.publish (PublishBuilder.new "a" [1])), .handlePing],
      WriterCall.Valid call :=
    List.forall_mem_cons.2 ⟨⟨6, by decide⟩, List.forall_mem_cons.2 ⟨trivial, by simp⟩⟩
  have iff := @sends_on_boundary_iff Target.debug _ ⟨false, ⟨[], [.part 0 .wouldBlock], []⟩⟩ valid
    Framing.isStream_nil
  have whole : ∀ c ∈ calls [.send (.publish (PublishBuilder.new "a" [1])), .handlePing]
      ⟨false, ⟨[], [.part 0 .wouldBlock], []⟩⟩, c.input.TakesWhole c.before := by
    unfold calls log log log
    refine List.forall_mem_cons.2 ⟨fun p hp => ?_, List.forall_mem_cons.2 ⟨fun p hp => ?_, ?_⟩⟩
    · exact .inl rfl
    · obtain rfl := Option.some.inj hp
      exact .inr rfl
    · simp
  refine ⟨iff.1 fun pre c post hrun _ _ d hd => whole d ?_, iff.2.2 whole⟩
  rw [hrun]
  exact List.mem_append_left _ hd

/-- A PUBLISH of which the socket takes one byte; the PINGREQ behind it is sent. -/
theorem sends_off_boundary :
    letI := Target.debug
    let script := [.send (.publish (PublishBuilder.new "a" [1])), .handlePing]
    let w : WriterHalf Socket := ⟨false, ⟨[], [.all, .part 0 .wouldBlock], []⟩⟩
    (∀ call ∈ script, WriterCall.Valid call) ∧ OnBoundary w ∧
      ¬ SentOnBoundary (calls script w) := by
  let := Target.debug
  refine ⟨List.forall_mem_cons.2 ⟨⟨6, by decide⟩, List.forall_mem_cons.2 ⟨trivial, by simp⟩⟩,
    Framing.isStream_nil, fun h => ?_⟩
  have ping := h _ (List.mem_cons_of_mem _ List.mem_cons_self) rfl rfl
  obtain ⟨ps, hps⟩ := Framing.IsStream.frames_eq rfl ping
  have cut : Framing.frames FixedHeader.nextFrame [0x30] = .ok ([], [0x30]) := by decide
  cases cut.symm.trans hps

end WriterCall

end Mcutt
