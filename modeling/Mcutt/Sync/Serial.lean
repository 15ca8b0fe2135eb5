import Mcutt.Sync.Threads

/-!
# Calls that do not overlap

A call whose steps nobody interrupts does what `ClientCall.run` does on a socket that fails where
the answers to its writes do, so calls made one after the other are a run of `ClientCall.run`
(`serial_refines`).  For the packets to be whole it is enough that no call writes while another is
inside its packet (`frames_of_alone`).  A call that has failed inside its packet stays there, so a
lock that `write_sync` held would not be enough: behind such a call nothing may be written at all.
-/

namespace Mcutt

open Machine Threads

section

variable [Target]

/-! ## One call alone -/

namespace WriterHalf

/-- `write_sync`, `flush`, and the store if there is one. -/
def deliver {W : Type} [Write W] (packet : Enc ℕ) (store : Option Bool) :
    EStateM Fault (WriterHalf W) Unit := do
  let _ ← writeSync packet
  flush
  match store with
  | some b => modify fun self => { self with sentFlag := b }
  | none => pure ()

omit [Target] in
/-- A `write_all` that succeeds. -/
theorem deliver_all (bs : List UInt8) (msg : String) (next : Enc ℕ) (store : Option Bool)
    (sentFlag : Bool) (written : List UInt8) (outcomes : List Outcome)
    (flushes : List (Except IoErrorKind Unit)) :
    deliver (W := Socket) (.write bs msg next) store ⟨sentFlag, ⟨written, .all :: outcomes, flushes⟩⟩ =
      deliver next store ⟨sentFlag, ⟨written ++ bs, outcomes, flushes⟩⟩ := rfl

omit [Target] in
/-- One that fails. -/
theorem deliver_part (bs : List UInt8) (msg : String) (next : Enc ℕ) (store : Option Bool)
    (sentFlag : Bool) (written : List UInt8) (n : ℕ) (kind : IoErrorKind)
    (outcomes : List Outcome) (flushes : List (Except IoErrorKind Unit)) :
    deliver (W := Socket) (.write bs msg next) store
        ⟨sentFlag, ⟨written, .part n kind :: outcomes, flushes⟩⟩ =
      .error (.err ⟨.stdIo kind, msg⟩) ⟨sentFlag, ⟨written ++ bs.take n, outcomes, flushes⟩⟩ := rfl

end WriterHalf

namespace Phase

/-- A call that nobody interrupts. -/
def alone (i : ℕ) : List Answer → Phase → Wire → Phase × Wire
  | [], phase, s => (phase, s)
  | answer :: answers, phase, s =>
    alone i answers (phase.step i answer s).1 (phase.step i answer s).2

theorem alone_returned (i : ℕ) (answers : List Answer) (r : Exec Unit) (s : Wire) :
    alone i answers (returned r) s = (returned r, s) := by
  induction answers with
  | nil => rfl
  | cons answer answers ih => exact ih

end Phase

/-- The rest of a packet of which `pre` was taken in the current `write_all`. -/
def Enc.resume {α : Type} (pre : List UInt8) : Enc α → Enc α
  | done r => done r
  | write bs msg next => write (pre ++ bs) msg next

omit [Target] in
theorem Enc.resume_nil {α : Type} (e : Enc α) : e.resume [] = e := by
  cases e <;> rfl

/-- A program that ends in a state. -/
def endedIn {σ : Type} (r : Exec Unit) (s : σ) : EStateM.Result Fault σ Unit :=
  match r with
  | .ok () => .ok () s
  | .error e => .error e s

omit [Target] in
theorem outcome_endedIn {σ : Type} (r : Exec Unit) (s : σ) : outcome (endedIn r s) = r := by
  cases r <;> rfl

omit [Target] in
theorem final_endedIn {σ : Type} (r : Exec Unit) (s : σ) : final (endedIn r s) = s := by
  cases r <;> rfl

/-- The writer half on a socket. -/
def Wire.onSocket (s : Wire) (outcomes : List Outcome)
    (flushes : List (Except IoErrorKind Unit)) : WriterHalf Socket :=
  ⟨s.sentFlag, ⟨s.stream, outcomes, flushes⟩⟩

/-- On a socket that fails in some way the program goes from `s` to `s'`, whatever the socket does
later. -/
def Performs (program : EStateM Fault (WriterHalf Socket) Unit) (s : Wire) (r : Exec Unit)
    (s' : Wire) : Prop :=
  ∃ outcomes flushes, ∀ outcomes' flushes',
    program (s.onSocket (outcomes ++ outcomes') (flushes ++ flushes')) =
      endedIn r (s'.onSocket outcomes' flushes')

variable {i : ℕ} {s s' : Wire} {r : Exec Unit}

/-- The part of `deliver` behind the packet. -/
theorem performs_flushing {answers : List Answer} {store : Option Bool}
    (h : Phase.alone i answers (.flushing store) s = (.returned r, s')) (n : ℕ) :
    Performs (WriterHalf.deliver (.done (.ok n)) store) s r s' := by
  cases answers with
  | nil => cases (Prod.mk.inj h).1
  | cons answer answers =>
    cases answer with
    | error kind =>
      rw [Phase.alone, Phase.step, Phase.alone_returned] at h
      obtain ⟨hr, rfl⟩ := Prod.mk.inj h
      cases hr
      exact ⟨[], [.error kind], fun _ _ => rfl⟩
    | ok n =>
      cases store with
      | none =>
        rw [Phase.alone, Phase.step, Phase.alone_returned] at h
        obtain ⟨hr, rfl⟩ := Prod.mk.inj h
        cases hr
        exact ⟨[], [.ok ()], fun _ _ => rfl⟩
      | some b =>
        cases answers with
        | nil => cases (Prod.mk.inj h).1
        | cons answer answers =>
          rw [Phase.alone, Phase.step, Phase.alone, Phase.step, Phase.alone_returned] at h
          obtain ⟨hr, rfl⟩ := Prod.mk.inj h
          cases hr
          exact ⟨[], [.ok ()], fun _ _ => rfl⟩

/-- A `write_all` of which `pre` was taken. -/
theorem performs_writing {answers : List Answer} (packet : Enc ℕ) (store : Option Bool)
    (pre : List UInt8) (s₀ s : Wire) (hpre : ∀ r, packet = .done r → pre = [])
    (hflag : s₀.sentFlag = s.sentFlag) (hstream : s.stream = s₀.stream ++ pre)
    (h : Phase.alone i answers (.writing packet store) s = (.returned r, s')) :
    Performs (WriterHalf.deliver (packet.resume pre) store) s₀ r s' := by
  induction answers generalizing packet pre s s₀ with
  | nil => cases (Prod.mk.inj h).1
  | cons answer answers ih =>
    rw [Phase.alone] at h
    cases packet with
    | done result =>
      obtain rfl := hpre result rfl
      have hs₀ (outcomes : List Outcome) (flushes : List (Except IoErrorKind Unit)) :
          s₀.onSocket outcomes flushes = s.onSocket outcomes flushes := by
        simp [Wire.onSocket, hflag, hstream]
      cases result with
      | ok n =>
        obtain ⟨outcomes, flushes, hperforms⟩ := performs_flushing h n
        refine ⟨outcomes, flushes, fun outcomes' flushes' => ?_⟩
        rw [hs₀]
        exact hperforms outcomes' flushes'
      | error e =>
        rw [Phase.step, Phase.alone_returned] at h
        obtain ⟨hr, rfl⟩ := Prod.mk.inj h
        cases hr
        refine ⟨[], [], fun outcomes' flushes' => ?_⟩
        rw [hs₀]
        rfl
    | write bs msg next =>
      cases bs with
      | nil =>
        -- the socket has taken all of this `write_all`
        obtain ⟨outcomes, flushes, hperforms⟩ := ih next [] s s (fun _ _ => rfl) rfl
          (List.append_nil _).symm h
        refine ⟨.all :: outcomes, flushes, fun outcomes' flushes' => ?_⟩
        rw [Enc.resume_nil] at hperforms
        rw [← hperforms, Wire.onSocket, Wire.onSocket, ← hflag, hstream, Enc.resume,
          List.append_nil]
        exact WriterHalf.deliver_all ..
      | cons b bs =>
        have failed (kind : IoErrorKind)
            (h : Phase.alone i answers (.returned (fail (.stdIo kind) msg)) s =
              (.returned r, s')) :
            Performs (WriterHalf.deliver (Enc.resume pre (.write (b :: bs) msg next)) store) s₀ r
              s' := by
          rw [Phase.alone_returned] at h
          obtain ⟨hr, rfl⟩ := Prod.mk.inj h
          cases hr
          refine ⟨[.part pre.length kind], [], fun outcomes' flushes' => ?_⟩
          have hpart := WriterHalf.deliver_part (pre ++ b :: bs) msg next store s₀.sentFlag s₀.stream
            pre.length kind outcomes' flushes'
          rw [List.take_left, ← hstream, hflag] at hpart
          rw [Wire.onSocket, hflag]
          exact hpart
        cases answer with
        | error kind =>
          cases kind with
          | interrupted => exact ih _ pre s₀ s hpre hflag hstream h
          | wouldBlock => exact failed _ h
          | unexpectedEof => exact failed _ h
          | other code => exact failed _ h
        | ok n =>
          cases n with
          | zero => exact failed _ h
          | succ n =>
            have hrest : pre ++ b :: bs = (pre ++ b :: bs.take n) ++ bs.drop n := by
              rw [List.append_assoc, List.cons_append, List.take_append_drop]
            have hpush : (s.push i (b :: bs.take n)).stream =
                s₀.stream ++ (pre ++ b :: bs.take n) := by
              rw [Wire.stream_push, hstream, List.append_assoc]
            rw [Enc.resume, hrest]
            exact ih (.write (bs.drop n) msg next) _ s₀ (s.push i (b :: bs.take n))
              (fun _ hdone => by cases hdone) hflag hpush h

/-- The calls that have something to send are `deliver`. -/
theorem ClientCall.run_eq_deliver (call : ClientCall) (h : call ≠ .writer .handlePing) :
    (call.run : EStateM Fault (WriterHalf Socket) Unit) =
      WriterHalf.deliver call.offers.writeSync call.stores ∧
    call.start = .writing call.offers.writeSync call.stores := by
  match call with
  | .connect value | .writer (.send (.publish value)) | .writer (.send (.subscribe value))
  | .writer (.send (.unsubscribe value)) => exact ⟨rfl, rfl⟩
  | .writer (.send .disconnect) =>
    refine ⟨funext fun w => ?_, rfl⟩
    show (WriterHalf.writeSync Disconnect.writeSync >>= fun _ => WriterHalf.flush) w =
      (WriterHalf.writeSync Disconnect.writeSync >>= fun _ =>
        WriterHalf.flush >>= fun _ => pure ()) w
    simp only [bind_apply]
    cases WriterHalf.writeSync Disconnect.writeSync w with
    | error e w' => rfl
    | ok n w' =>
      simp only
      cases WriterHalf.flush w' <;> rfl
  | .writer .handlePing => exact absurd rfl h

/-- A call that nobody interrupts. -/
theorem performs_call {answers : List Answer} {call : ClientCall}
    (h : Phase.alone i answers call.start s = (.returned r, s')) : Performs call.run s r s' := by
  by_cases hping : call = .writer .handlePing
  · subst hping
    cases answers with
    | nil => cases (Prod.mk.inj h).1
    | cons answer answers =>
      obtain ⟨sentFlag, bytes⟩ := s
      cases sentFlag with
      | true =>
        rw [Phase.alone, ClientCall.start, Phase.step, if_pos rfl, Phase.alone_returned] at h
        obtain ⟨hr, rfl⟩ := Prod.mk.inj h
        cases hr
        exact ⟨[], [], fun _ _ => rfl⟩
      | false =>
        obtain ⟨outcomes, flushes, hperforms⟩ := performs_writing PingReq.writeSync (some false) []
          ⟨false, bytes⟩ ⟨false, bytes⟩ (fun _ _ => rfl) rfl (List.append_nil _).symm h
        rw [Enc.resume_nil] at hperforms
        exact ⟨outcomes, flushes, hperforms⟩
  · obtain ⟨hrun, hstart⟩ := call.run_eq_deliver hping
    rw [hstart] at h
    have hperforms := performs_writing _ _ [] s s (fun _ _ => rfl) rfl (List.append_nil _).symm h
    rw [Enc.resume_nil] at hperforms
    rw [hrun]
    exact hperforms

/-! ## One call after the other -/

namespace ClientCall

/-- The steps of calls made one after the other, the first being the `i`-th. -/
def serial : ℕ → List (ClientCall × List Answer) → Interleaved
  | _, [] => []
  | i, (call, answers) :: made => .spawn call :: (answers.map (.step i) ++ serial (i + 1) made)

/-- What calls leave of the writer half. -/
def leaves (script : List ClientCall) (w : WriterHalf Socket) : WriterHalf Socket :=
  script.foldl (fun w call => final (call.run w)) w

end ClientCall

/-- The steps of the last call. -/
theorem run_alone (answers : List Answer) (ts : List Thread) (t : Thread) (s : Wire) :
    writerThreads.run (answers.map (.step ts.length)) ⟨s, ts ++ [t]⟩ =
      ⟨(Phase.alone ts.length answers t.phase s).2,
        ts ++ [{ t with phase := (Phase.alone ts.length answers t.phase s).1 }]⟩ := by
  induction answers generalizing t s with
  | nil => rfl
  | cons answer answers ih =>
    rw [List.map_cons, System.run, System.move_step_append]
    exact ih _ _

/-- Calls made one after the other that all return do what `ClientCall.run` does. -/
theorem serial_performs (made : List (ClientCall × List Answer)) (ts : List Thread) (s : Wire)
    (h : ∀ t ∈ (writerThreads.run (ClientCall.serial ts.length made) ⟨s, ts⟩).threads,
      t.phase.isReturned) :
    ∃ outcomes flushes, ∀ outcomes' flushes',
      let p := writerThreads.run (ClientCall.serial ts.length made) ⟨s, ts⟩
      let w := s.onSocket (outcomes ++ outcomes') (flushes ++ flushes')
      p.threads.map Thread.phase = ts.map Thread.phase ++
        (ClientCall.calls (made.map Prod.fst) w).map (fun c => .returned c.result) ∧
      ClientCall.leaves (made.map Prod.fst) w = p.shared.onSocket outcomes' flushes' := by
  induction made generalizing ts s with
  | nil =>
    refine ⟨[], [], fun outcomes' flushes' => ⟨?_, rfl⟩⟩
    simp [ClientCall.serial, System.run, ClientCall.calls, log]
  | cons m made ih =>
    obtain ⟨call, answers⟩ := m
    set alone := Phase.alone ts.length answers call.start s with halone
    set t : Thread := ⟨call, alone.1⟩ with ht
    have hrun : writerThreads.run (ClientCall.serial ts.length ((call, answers) :: made)) ⟨s, ts⟩ =
        writerThreads.run (ClientCall.serial (ts ++ [t]).length made) ⟨alone.2, ts ++ [t]⟩ := by
      rw [ClientCall.serial, System.run, System.run_append]
      rw [show writerThreads.move (.spawn call) ⟨s, ts⟩ = ⟨s, ts ++ [⟨call, call.start⟩]⟩ from rfl,
        run_alone, List.length_append]
      rfl
    rw [hrun] at h ⊢
    obtain ⟨outcomes, flushes, hrest⟩ := ih (ts ++ [t]) alone.2 h
    obtain ⟨r, hr⟩ : ∃ r, t.phase = .returned r := by
      have hmem : t.phase ∈ (writerThreads.run (ClientCall.serial (ts ++ [t]).length made)
          ⟨alone.2, ts ++ [t]⟩).threads.map Thread.phase := by
        rw [(hrest [] []).1]
        simp
      obtain ⟨u, hu, hphase⟩ := List.mem_map.1 hmem
      rw [← hphase, ← Phase.isReturned_iff]
      exact h u hu
    have hperforms : Performs call.run s r alone.2 :=
      performs_call (show Phase.alone ts.length answers call.start s = _ from Prod.ext hr rfl)
    obtain ⟨outcomes₁, flushes₁, hcall⟩ := hperforms
    refine ⟨outcomes₁ ++ outcomes, flushes₁ ++ flushes, fun outcomes' flushes' => ?_⟩
    obtain ⟨hphases, hleaves⟩ := hrest outcomes' flushes'
    have hrun₁ := hcall (outcomes ++ outcomes') (flushes ++ flushes')
    rw [List.append_assoc, List.append_assoc]
    refine ⟨hphases.trans ?_, Eq.trans ?_ hleaves⟩
    · simp only [List.map_append, List.map_cons, List.map_nil, hr, ClientCall.calls, log, hrun₁,
        outcome_endedIn, final_endedIn, List.append_assoc, Bool.false_eq_true, if_false,
        List.cons_append, List.nil_append]
    · rw [List.map_cons, ClientCall.leaves, List.foldl_cons, hrun₁, final_endedIn]
      rfl

/-- Calls made one after the other return what a run of `ClientCall.run` returns on a socket that
fails in some way, and leave the same flag and the same bytes. -/
theorem serial_refines (made : List (ClientCall × List Answer)) (sentFlag : Bool)
    (returned : ∀ t ∈ (writerThreads.run (ClientCall.serial 0 made) (newPool sentFlag)).threads,
      t.phase.isReturned) :
    ∃ outcomes flushes,
      let p := writerThreads.run (ClientCall.serial 0 made) (newPool sentFlag)
      let w : WriterHalf Socket := ⟨sentFlag, ⟨[], outcomes, flushes⟩⟩
      p.threads.map Thread.phase =
        (ClientCall.calls (made.map Prod.fst) w).map (fun c => .returned c.result) ∧
      ClientCall.leaves (made.map Prod.fst) w = ⟨p.shared.sentFlag, ⟨p.shared.stream, [], []⟩⟩ := by
  obtain ⟨outcomes, flushes, hserial⟩ := serial_performs made [] ⟨sentFlag, []⟩ returned
  obtain ⟨hphases, hleaves⟩ := hserial [] []
  rw [List.append_nil, List.append_nil] at hphases hleaves
  exact ⟨outcomes, flushes, hphases, hleaves⟩

end

/-- A tick of which the socket takes the PINGREQ byte by byte, and one that finds the flag clear and
fails. -/
theorem serial_refines_two :
    letI := Target.debug
    letI made : List (ClientCall × List Answer) :=
      [(.writer .handlePing, List.replicate 8 (.ok 1)),
        (.writer .handlePing, [.ok 0, .error .wouldBlock])]
    ∃ outcomes flushes,
      let p := writerThreads.run (ClientCall.serial 0 made) (newPool false)
      let w : WriterHalf Socket := ⟨false, ⟨[], outcomes, flushes⟩⟩
      p.threads.map Thread.phase =
        (ClientCall.calls (made.map Prod.fst) w).map (fun c => .returned c.result) ∧
      ClientCall.leaves (made.map Prod.fst) w = ⟨p.shared.sentFlag, ⟨p.shared.stream, [], []⟩⟩ := by
  apply @serial_refines Target.debug
  decide +kernel

/-! ## One packet at a time -/

section

variable [Target]

namespace ClientCall

/-- The `i`-th call has written bytes of its packet and not all of them.  If it has returned, with an
error, it remains so. -/
def Midway (i : ℕ) (call : ClientCall) (s : Wire) : Prop := s.of i ≠ [] ∧ ¬ call.Whole i s

variable {i : ℕ} {call : ClientCall} {s s' : Wire}

/-- What is written is a frame. -/
theorem Whole.isFrame (h : call.Whole i s) : Framing.IsFrame FixedHeader.nextFrame (s.of i) := by
  obtain ⟨hout, n, hn⟩ := h
  obtain ⟨hwire, -, hframe⟩ := ClientPacket.writeSync_eq_ok hn
  rw [hout, hwire]
  exact hframe

theorem whole_congr (hs : s'.of i = s.of i) : call.Whole i s' ↔ call.Whole i s := by
  rw [Whole, Whole, hs]

theorem midway_congr (hs : s'.of i = s.of i) : call.Midway i s' ↔ call.Midway i s := by
  rw [Midway, Midway, hs, whole_congr hs]

/-- A call that goes on writing has not written its packet. -/
theorem not_whole_of_push {b : UInt8} {bs : List UInt8}
    (h : (s.push i (b :: bs)).of i <+: call.offers.writeSync.output) : ¬ call.Whole i s := by
  rintro ⟨hout, -⟩
  have hle := h.length_le
  rw [Wire.of_push_self, ← hout, List.length_append, List.length_cons] at hle
  omega

end ClientCall

/-- The stream is the packets of the calls in `order`, and the bytes of the one call that is inside
its packet, if there is one. -/
structure InOrder (order : List ℕ) (calls : List ClientCall) (s : Wire) : Prop where
  nodup : order.Nodup
  mem_iff : ∀ i, i ∈ order ↔ ∃ call, calls[i]? = some call ∧ call.Whole i s
  stream : (s.stream = order.flatMap (fun i => s.of i) ∧
      ∀ (i : ℕ) (call : ClientCall), calls[i]? = some call → ¬ call.Midway i s) ∨
    ∃ (i : ℕ) (call : ClientCall), calls[i]? = some call ∧ call.Midway i s ∧
      s.stream = order.flatMap (fun i => s.of i) ++ s.of i

namespace InOrder

variable {order : List ℕ} {calls : List ClientCall} {s s' : Wire}

theorem congr (h : InOrder order calls s) (hs : s'.bytes = s.bytes) :
    InOrder order calls s' := by
  obtain ⟨sentFlag, bytes⟩ := s
  obtain ⟨sentFlag', bytes'⟩ := s'
  obtain rfl : bytes' = bytes := hs
  exact ⟨h.nodup, h.mem_iff, h.stream⟩

/-- A call starts. -/
theorem spawn (h : InOrder order calls s) (hs : s.of calls.length = []) (call : ClientCall) :
    InOrder order (calls ++ [call]) s := by
  have hnew {i : ℕ} {c : ClientCall} (hi : (calls ++ [call])[i]? = some c) :
      calls[i]? = some c ∨ s.of i = [] := by
    by_cases hlt : i < calls.length
    · rw [List.getElem?_append_left hlt] at hi
      exact .inl hi
    · have hlen := (List.getElem?_eq_some_iff.1 hi).1
      rw [List.length_append, List.length_singleton] at hlen
      obtain rfl : i = calls.length := by omega
      exact .inr hs
  have hold {i : ℕ} {c : ClientCall} (hi : calls[i]? = some c) :
      (calls ++ [call])[i]? = some c := by
    rw [List.getElem?_append_left (List.getElem?_eq_some_iff.1 hi).1]
    exact hi
  refine ⟨h.nodup, fun i => (h.mem_iff i).trans ⟨?_, ?_⟩, ?_⟩
  · rintro ⟨c, hi, hwhole⟩
    exact ⟨c, hold hi, hwhole⟩
  · rintro ⟨c, hi, hwhole⟩
    rcases hnew hi with hi | hnil
    · exact ⟨c, hi, hwhole⟩
    · exact absurd hnil hwhole.isFrame.nonempty
  · rcases h.stream with ⟨hstream, hnone⟩ | ⟨i, c, hi, hmidway, hstream⟩
    · refine .inl ⟨hstream, fun i c hi hmidway => ?_⟩
      rcases hnew hi with hi | hnil
      · exact hnone i c hi hmidway
      · exact hmidway.1 hnil
    · exact .inr ⟨i, c, hold hi, hmidway, hstream⟩

/-- A call writes while no other one is inside its packet. -/
theorem push (h : InOrder order calls s) {i : ℕ} {call : ClientCall} {b : UInt8} {bs : List UInt8}
    (hi : calls[i]? = some call)
    (hfront : (s.push i (b :: bs)).of i <+: call.offers.writeSync.output)
    (halone : ∀ j c, j ≠ i → calls[j]? = some c → ¬ c.Midway j s) :
    ∃ order', InOrder order' calls (s.push i (b :: bs)) := by
  have hnot := ClientCall.not_whole_of_push hfront
  have hmem : i ∉ order := by
    intro hmem
    obtain ⟨c, hc, hwhole⟩ := (h.mem_iff i).1 hmem
    rw [hi, Option.some.injEq] at hc
    exact hnot (hc ▸ hwhole)
  have hof {j : ℕ} (hj : j ≠ i) : (s.push i (b :: bs)).of j = s.of j := Wire.of_push_ne hj _ s
  have horder : order.flatMap (fun j => (s.push i (b :: bs)).of j) =
      order.flatMap (fun j => s.of j) := by
    apply List.flatMap_congr
    intro j hj
    exact hof fun hji => hmem (hji ▸ hj)
  -- what the call had written is all there is behind the packets
  have hstream : s.stream = order.flatMap (fun j => s.of j) ++ s.of i := by
    rcases h.stream with ⟨hstream, hnone⟩ | ⟨j, c, hj, hmidway, hstream⟩
    · have hnil : s.of i = [] := by
        by_contra hne
        exact hnone i call hi ⟨hne, hnot⟩
      rw [hnil, List.append_nil]
      exact hstream
    · by_cases hji : j = i
      · rw [← hji]
        exact hstream
      · exact absurd hmidway (halone j c hji hj)
  have hafter : (s.push i (b :: bs)).stream =
      order.flatMap (fun j => (s.push i (b :: bs)).of j) ++ (s.push i (b :: bs)).of i := by
    rw [Wire.stream_push, hstream, horder, Wire.of_push_self, List.append_assoc]
  have hother (j : ℕ) (hj : j ≠ i) : j ∈ order ↔
      ∃ c, calls[j]? = some c ∧ c.Whole j (s.push i (b :: bs)) :=
    (h.mem_iff j).trans (exists_congr fun c =>
      and_congr_right fun _ => (ClientCall.whole_congr (hof hj)).symm)
  by_cases hwhole : call.Whole i (s.push i (b :: bs))
  · refine ⟨order ++ [i], ?_, fun j => ?_, .inl ⟨?_, fun j c hj hmidway => ?_⟩⟩
    · rw [List.nodup_append]
      refine ⟨h.nodup, List.nodup_singleton i, fun a ha c hc hac => hmem ?_⟩
      rw [← List.mem_singleton.1 hc, ← hac]
      exact ha
    · rw [List.mem_append, List.mem_singleton]
      by_cases hji : j = i
      · subst hji
        exact iff_of_true (.inr rfl) ⟨call, hi, hwhole⟩
      · rw [or_iff_left hji]
        exact hother j hji
    · rw [List.flatMap_append, List.flatMap_singleton]
      exact hafter
    · by_cases hji : j = i
      · subst hji
        rw [hi, Option.some.injEq] at hj
        exact hmidway.2 (hj ▸ hwhole)
      · exact halone j c hji hj ((ClientCall.midway_congr (hof hji)).1 hmidway)
  · refine ⟨order, h.nodup, fun j => ?_, .inr ⟨i, call, hi, ⟨?_, hwhole⟩, hafter⟩⟩
    · by_cases hji : j = i
      · subst hji
        refine iff_of_false hmem ?_
        rintro ⟨c, hc, hcwhole⟩
        rw [hi, Option.some.injEq] at hc
        exact hwhole (hc ▸ hcwhole)
      · exact hother j hji
    · rw [Wire.of_push_self]
      simp

end InOrder

/-- A call that puts bytes on the wire does so while no other one is inside its packet. -/
def WritesAlone (move : Move ClientCall Answer) (p : Pool Wire Thread) : Prop :=
  (writerThreads.move move p).shared.bytes ≠ p.shared.bytes →
    ∀ i answer, move = .step i answer → ∀ j t, j ≠ i → p.threads[j]? = some t →
      ¬ t.call.Midway j p.shared

theorem InOrder.move {order : List ℕ} {p : Pool Wire Thread} {move : Move ClientCall Answer}
    (h : InOrder order (p.threads.map Thread.call) p.shared)
    (holds : System.Holds Thread.Keeps (fun i s => s.of i = []) p) (alone : WritesAlone move p) :
    ∃ order', InOrder order' ((writerThreads.move move p).threads.map Thread.call)
      (writerThreads.move move p).shared := by
  have hafter := Thread.kept.move holds move
  cases move with
  | spawn call =>
    refine ⟨order, ?_⟩
    have hfresh := holds.fresh p.threads.length le_rfl
    rw [← List.length_map (f := Thread.call)] at hfresh
    have hspawn := h.spawn hfresh call
    simpa [System.move, writerThreads] using hspawn
  | step i answer =>
    cases hi : p.threads[i]? with
    | none =>
      rw [System.move_none hi]
      exact ⟨order, h⟩
    | some t =>
      have hcall : (p.threads.map Thread.call)[i]? = some t.call := by rw [List.getElem?_map, hi]; rfl
      have hcalls : (writerThreads.move (.step i answer) p).threads.map Thread.call =
          p.threads.map Thread.call := by
        have hmap := System.map_threads_run (S := writerThreads) (f := Thread.call) (fun _ => rfl)
          (fun _ _ _ _ => rfl) [.step i answer] p
        exact hmap.trans (List.append_nil _)
      have hthread : (writerThreads.move (.step i answer) p).threads[i]? =
          some (writerThreads.step i answer t p.shared).1 := by
        rw [System.move_step hi]
        exact List.getElem?_set_self (List.getElem?_eq_some_iff.1 hi).1
      have hfront := (hafter.thread i _ hthread).front
      rw [hcalls]
      rw [System.move_step hi] at hfront ⊢
      rcases Phase.step_bytes i answer t.phase p.shared with hsame | ⟨b, bs, hpush⟩
      · exact ⟨order, h.congr hsame⟩
      · have hbytes : (writerThreads.move (.step i answer) p).shared.bytes ≠ p.shared.bytes := by
          rw [System.move_step hi]
          show (t.phase.step i answer p.shared).2.bytes ≠ p.shared.bytes
          rw [hpush]
          simp [Wire.push]
        have hof : (writerThreads.step i answer t p.shared).2.of i =
            (p.shared.push i (b :: bs)).of i := by
          show ((t.phase.step i answer p.shared).2.bytes.filter _).map _ = _
          rw [hpush]
          rfl
        rw [hof] at hfront
        obtain ⟨order', horder⟩ := h.push hcall hfront fun j c hj hc => by
          rw [List.getElem?_map, Option.map_eq_some_iff] at hc
          obtain ⟨u, hu, rfl⟩ := hc
          exact alone hbytes i answer rfl j u hj hu
        exact ⟨order', horder.congr hpush⟩

theorem inOrder_run {schedule : Interleaved} {sentFlag : Bool}
    (alone : System.Along WritesAlone writerThreads schedule (newPool sentFlag)) :
    ∃ order, InOrder order
      ((writerThreads.run schedule (newPool sentFlag)).threads.map Thread.call)
      (writerThreads.run schedule (newPool sentFlag)).shared := by
  have hrun := System.invariant_run (I := fun p =>
    System.Holds Thread.Keeps (fun i s => s.of i = []) p ∧
      ∃ order, InOrder order (p.threads.map Thread.call) p.shared) (P := WritesAlone) ?_ ?_ alone
  · exact hrun.2
  · rintro move q ⟨holds, order, horder⟩ halone
    exact ⟨Thread.kept.move holds move, horder.move holds halone⟩
  · exact ⟨System.holds_empty fun _ => rfl, [], List.nodup_nil, by simp [newPool],
      .inl ⟨rfl, by simp [newPool]⟩⟩

/-- As long as no call writes while another one is inside its packet, every packet that was written
is on the wire once and whole, and behind them there is at most a part of one. -/
theorem frames_of_alone (schedule : Interleaved) (sentFlag : Bool)
    (alone : System.Along WritesAlone writerThreads schedule (newPool sentFlag)) :
    let p := writerThreads.run schedule (newPool sentFlag)
    ∃ order, InOrder order (p.threads.map Thread.call) p.shared ∧
      ∀ i ∈ order, Framing.IsFrame FixedHeader.nextFrame (p.shared.of i) := by
  intro p
  obtain ⟨order, horder⟩ := inOrder_run alone
  refine ⟨order, horder, fun i hi => ?_⟩
  obtain ⟨call, -, hwhole⟩ := (horder.mem_iff i).1 hi
  exact hwhole.isFrame

end

/-- Two ticks that find the flag clear.  The second one starts to write when the packet of the first
one is on the wire. -/
theorem frames_of_alone_two :
    letI := Target.debug
    letI tick := ClientCall.writer .handlePing
    let p := writerThreads.run
      [.spawn tick, .spawn tick, .step 0 (.ok 0), .step 1 (.ok 0), .step 0 (.ok 1), .step 0 (.ok 0),
        .step 0 (.ok 1), .step 1 (.ok 1)] (newPool false)
    p.shared.stream = [0xC0, 0, 0xC0] ∧
    ∃ order, InOrder order (p.threads.map Thread.call) p.shared ∧
      ∀ i ∈ order, Framing.IsFrame FixedHeader.nextFrame (p.shared.of i) := by
  refine ⟨rfl, ?_⟩
  apply @frames_of_alone Target.debug
  let := Target.debug
  refine ⟨fun h => absurd rfl h, fun h => absurd rfl h, fun h => absurd rfl h,
    fun h => absurd rfl h, fun _ _ _ _ _ _ _ _ midway => midway.1 rfl, fun h => absurd rfl h,
    fun _ i answer hstep j t hj ht midway => ?_, fun _ i answer hstep j t hj ht midway => ?_, trivial⟩
  · cases hstep
    cases j with
    | zero => exact hj rfl
    | succ j => exact midway.1 rfl
  · cases hstep
    match j with
    | 0 =>
      cases ht
      exact midway.2 ⟨rfl, 2, rfl⟩
    | 1 => exact hj rfl
    | j + 2 => cases ht

end Mcutt
