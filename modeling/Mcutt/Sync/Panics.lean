import Mcutt.Packets.Server
import Mcutt.Sync.KeepAlive
import Mcutt.Sync.Malformed

/-!
# Panics

The calls of the writer half never panic, whatever they are given and however the socket answers
(`ClientCall.safe_run`).  The calls that receive panic in debug builds only, and there at two
assertions: the one of `next_frame`, where a header that does not end is left in front from an
earlier call, and the one of the parser of `connect`, where the packet is of another type
(`Connection.panics_iff`).
-/

namespace Mcutt

open Machine

/-! ## Writing -/

theorem Enc.run_noPanic {α W : Type} [Write W] {e : Enc α} (h : NoPanic e.result) (w : W) :
    NoPanic (e.run w).1 := by
  induction e generalizing w with
  | done r => exact h
  | write bs msg next ih =>
    rw [Enc.run]
    rcases Write.writeAll bs w with ⟨kind | ⟨⟩, w'⟩
    · exact noPanic_fail _ _
    · exact ih h w'

theorem forM_noPanic {α : Type} (items : List α) {f : α → Exec Unit} (h : ∀ a, NoPanic (f a)) :
    NoPanic (forM items f) := by
  induction items with
  | nil => exact noPanic_ok _
  | cons a items ih =>
    rw [List.forM_cons]
    exact (h a).bind fun _ _ => ih

theorem Enc.Checks.noPanic {α : Type} {e : Enc α} {P : Prop} {a : α} {bs : List UInt8}
    (h : e.Checks P a bs) : NoPanic e.result := by
  by_cases hP : P
  · rw [(h.writes hP).result_eq]
    exact noPanic_ok a
  · obtain ⟨err, herr⟩ := h.fails hP
    simp [NoPanic, herr]

section

variable [Target]

theorem Measures.noPanic {len : Exec ℕ} {n : ℕ} (h : Measures len n) : NoPanic len := by
  unfold Measures at h
  split_ifs at h
  · rw [h]
    exact noPanic_ok n
  · obtain ⟨e, rfl⟩ := h
    simp [NoPanic]

theorem writePacket_noPanic {validate : Exec Unit} {encodeLen : Exec ℕ}
    {builder : FixedHeaderBuilder} {body : Enc ℕ}
    (hflags : validateTypeFlags builder.packetType builder.flags = .ok ())
    (hval : NoPanic validate) (hlen : NoPanic encodeLen) (hbody : NoPanic body.result) :
    NoPanic (writePacket validate encodeLen builder body).result := by
  simp only [writePacket, Enc.result_bind, Enc.result_lift]
  refine hval.bind fun _ _ => hlen.bind fun n _ => NoPanic.bind ?_ fun _ _ =>
    hbody.bind fun _ _ => noPanic_ok _
  by_cases hle : n ≤ 268435455
  · rw [(writeHeader_writes hflags hle).result_eq]
    exact noPanic_ok _
  · obtain ⟨err, herr⟩ := (writeHeader_rejects hflags (not_le.1 hle)).result_err
    simp [NoPanic, herr]

theorem Connect.addLen_noPanic {α : Type} {o : Option α} {encodeLen : α → Exec ℕ}
    (len : Option ℕ) (h : ∀ a ∈ o, NoPanic (encodeLen a)) : NoPanic (addLen len o encodeLen) := by
  cases o with
  | none => exact noPanic_ok _
  | some a => exact (h a rfl).bind fun _ _ => noPanic_ok _

/-- The packet is one that memory holds: only for the will is the sum of two lengths unchecked. -/
def ConnectBuilder.InMemory (value : ConnectBuilder) : Prop :=
  ∀ will ∈ value.will, (WillMsg.wire will).length ≤ usizeMax

theorem WillMsg.encodeLen_noPanic {value : Will} (h : (wire value).length ≤ usizeMax) :
    NoPanic (encodeLen value) := by
  refine (MqttStr.measures_encodeLen value.topic).noPanic.bind fun n hn => ?_
  refine (Buff.measures_encodeLen value.message).noPanic.bind fun m hm => ?_
  rw [wire, List.length_append, ← (MqttStr.measures_encodeLen value.topic).of_ok hn,
    ← (Buff.measures_encodeLen value.message).of_ok hm] at h
  rw [arith_of_le h]
  exact noPanic_ok _

theorem Connect.encodeLen_noPanic {value : ConnectBuilder} (h : value.InMemory) :
    NoPanic (encodeLen value) := by
  refine (MqttStr.measures_encodeLen value.clientId).noPanic.bind fun _ _ => ?_
  refine (addLen_noPanic _ fun will hwill => WillMsg.encodeLen_noPanic (h will hwill)).bind
    fun _ _ => ?_
  refine (addLen_noPanic _ fun s _ => (MqttStr.measures_encodeLen s).noPanic).bind fun _ _ => ?_
  exact (addLen_noPanic _ fun bs _ => (Buff.measures_encodeLen bs).noPanic).bind fun _ _ =>
    noPanic_okOr _ _ _

/-- No encoder of the client panics. -/
theorem ClientPacket.writeSync_noPanic {p : ClientPacket}
    (h : ∀ value, p = .connect value → value.InMemory) : NoPanic p.writeSync.result := by
  cases p with
  | connect value =>
    exact writePacket_noPanic rfl (noPanic_ok _) (Connect.encodeLen_noPanic (h value rfl))
      (Connect.checks_writeBody value).noPanic
  | publish value =>
    exact writePacket_noPanic rfl (noPanic_ite _ _ _ _) (Publish.measures_encodeLen value).noPanic
      (Publish.checks_writeBody value).noPanic
  | subscribe value =>
    exact writePacket_noPanic rfl (forM_noPanic _ fun _ => noPanic_ite _ _ _ _)
      (Subscribe.measures_encodeLen value).noPanic (Subscribe.checks_writeBody value).noPanic
  | unsubscribe value =>
    exact writePacket_noPanic rfl (forM_noPanic _ fun _ => noPanic_ite _ _ _ _)
      (Unsubscribe.measures_encodeLen value).noPanic (Unsubscribe.checks_writeBody value).noPanic
  | pubAck pkid | pubRec pkid | pubRel pkid | pubComp pkid =>
    exact (Ack.writeSync_writes _ pkid).checks.noPanic
  | pingReq | disconnect => exact (Bare.writeSync_writes _).checks.noPanic

/-! ## The writer half -/

/-- The program panics from no state. -/
def Safe {σ α : Type} (x : EStateM Fault σ α) : Prop := ∀ s, NoPanic (outcome (x s))

omit [Target] in
theorem Safe.bind {σ α β : Type} {x : EStateM Fault σ α} {f : α → EStateM Fault σ β}
    (hx : Safe x) (hf : ∀ a, Safe (f a)) : Safe (x >>= f) := by
  intro s
  have hstep := hx s
  rw [bind_apply]
  cases heq : x s with
  | ok a s' => exact hf a s'
  | error e s' =>
    rw [heq] at hstep
    exact fun msg h => hstep msg (by simpa using h)

namespace WriterHalf

variable {W : Type} [Write W] {packet : Enc ℕ}

omit [Target] in
theorem safe_writeSync (h : NoPanic packet.result) :
    Safe (writeSync packet : EStateM Fault (WriterHalf W) ℕ) := by
  intro w
  have hrun := Enc.run_noPanic h w.inner
  unfold writeSync
  rcases hpacket : packet.run w.inner with ⟨e | n, inner⟩
  · rw [hpacket] at hrun
    exact hrun
  · exact noPanic_ok n

omit [Target] in
theorem safe_flush : Safe (flush : EStateM Fault (WriterHalf W) Unit) := by
  intro w
  unfold flush
  rcases Write.flush w.inner with ⟨kind | ⟨⟩, inner⟩
  · simp [NoPanic]
  · exact noPanic_ok _

omit [Target] in
theorem safe_sendThen (h : NoPanic packet.result) (b : Bool) :
    Safe (sendThen packet b : EStateM Fault (WriterHalf W) Unit) := by
  have hstore : Safe (modify fun self : WriterHalf W => { self with sentFlag := b }) :=
    fun _ => noPanic_ok _
  exact (safe_writeSync h).bind fun _ => safe_flush.bind fun _ => hstore

theorem safe_handlePing : Safe (handlePing : EStateM Fault (WriterHalf W) Unit) := by
  have hping : NoPanic PingReq.writeSync.result := (Bare.writeSync_writes _).checks.noPanic
  rintro ⟨_ | _, inner⟩
  · exact safe_sendThen hping false ⟨false, inner⟩
  · exact noPanic_ok _

end WriterHalf

omit [Target] in
theorem ClientCall.eq_of_marks_connect {call : ClientCall} {value : ConnectBuilder}
    (h : call.marks = some (.connect value)) : call = .connect value := by
  match call with
  | .connect _ => simpa [marks] using h
  | .writer (.send (.publish _)) | .writer (.send (.subscribe _))
  | .writer (.send (.unsubscribe _)) | .writer (.send .disconnect)
  | .writer .handlePing => simp [marks] at h

/-- No call of the writer half panics. -/
theorem ClientCall.safe_run {W : Type} [Write W] {call : ClientCall}
    (h : ∀ value, call = .connect value → value.InMemory) :
    Safe (call.run : EStateM Fault (WriterHalf W) Unit) := by
  cases hmarks : call.marks with
  | some p =>
    rw [run_of_marks hmarks]
    refine WriterHalf.safe_sendThen (ClientPacket.writeSync_noPanic ?_) true
    rintro value rfl
    exact h value (eq_of_marks_connect hmarks)
  | none =>
    rcases eq_of_marks_none hmarks with rfl | rfl
    · have hpacket : NoPanic Disconnect.writeSync.result := (Bare.writeSync_writes _).checks.noPanic
      exact (WriterHalf.safe_writeSync hpacket).bind fun _ => WriterHalf.safe_flush
    · exact WriterHalf.safe_handlePing

/-! ## The reader -/

section

variable {R : Type} [Read R]

/-- A debug build is in front of a whole header window and knows no frame. -/
def View.Trips (v : View R) : Prop :=
  Target.debugAssertions = true ∧ v.frame = none ∧ Reader.MIN ≤ v.pending.length

/-- `read` panics at the assertion of `next_frame` only. -/
theorem View.read_noPanic_iff (v : View R) : NoPanic (outcome (View.read v)) ↔ ¬ v.Trips := by
  have frame (n : ℕ) (v : View R) : NoPanic (outcome (View.readFrame n v)) := by
    have hframed := View.readFrame_framed n v
    generalize View.readFrame n v = r at hframed ⊢
    cases hframed <;> simp [NoPanic, View.ioFault]
  have found {x : EStateM.Result Fault (View R) ℕ} (hx : View.currentFrame v = x)
      (h : NoPanic (outcome x)) : NoPanic (outcome (View.read v)) := by
    rw [View.read, bind_apply, hx]
    cases x with
    | ok n v' => exact frame n v'
    | error e v' => exact fun msg h' => h msg (by simpa using h')
  cases hf : v.frame with
  | some n =>
    refine iff_of_true (found (View.currentFrame_of_some hf) (noPanic_ok n)) fun htrips => ?_
    rw [htrips.2.1] at hf
    cases hf
  | none =>
    by_cases hassert : (Target.debugAssertions && !decide (v.pending.length < Reader.MIN)) = true
    · have htrips : v.Trips := by
        simp only [Bool.and_eq_true, Bool.not_eq_true', decide_eq_false_iff_not, not_lt] at hassert
        exact ⟨hassert.1, hf, hassert.2⟩
      refine iff_of_false (fun h => h "(self.filled - self.pos) < Self::MIN" ?_)
        (not_not.2 htrips)
      simp only [View.read, View.currentFrame, View.nextFrame, bind_apply, get_apply, hf,
        debugAssert, if_pos hassert]
      rfl
    · have hloop : View.currentFrame v = View.nextFrameLoop (Reader.MIN + 1) v := by
        simp only [View.currentFrame, View.nextFrame, bind_apply, get_apply, hf, debugAssert,
          if_neg hassert, lift_ok]
      obtain ⟨v₀, -, hsought⟩ := View.nextFrameLoop_sought (J := fun _ => True)
        (fun _ _ _ _ _ => trivial) trivial (Nat.le_add_left Reader.MIN v.pending.length)
      refine iff_of_true (found hloop ?_) fun htrips => hassert ?_
      · generalize View.nextFrameLoop (Reader.MIN + 1) v = x at hsought ⊢
        cases hsought with
        | found _ => exact noPanic_ok _
        | malformed error =>
          obtain ⟨rfl, -⟩ := FixedHeader.nextFrame_eq_error.1 error
          simp [NoPanic]
        | stopped _ fill =>
          have hfilled := View.fillHead_filled v₀
          rw [fill] at hfilled
          cases hfilled <;> simp [NoPanic, View.ioFault]
      · simp only [Bool.and_eq_true, Bool.not_eq_true', decide_eq_false_iff_not, not_lt]
        exact ⟨htrips.1, htrips.2.2⟩

/-! ## The event loop -/

/-- The call panicked. -/
def Panicked {α : Type} (x : Except Stop α) : Prop := ∃ msg, x = .error (.fault (.panicked msg))

omit [Target] in
theorem not_panicked_ok {α : Type} (a : α) : ¬ Panicked (.ok a : Except Stop α) := by
  rintro ⟨msg, ⟨⟩⟩

omit [Target] in
theorem panicked_mapError {α : Type} (x : Exec α) :
    Panicked (x.mapError Stop.fault) ↔ ¬ NoPanic x := by
  rcases x with ⟨e | msg⟩ | a
  · simp [Panicked, NoPanic, Except.mapError]
  · simp [Panicked, NoPanic, Except.mapError]
  · simp [Panicked, NoPanic, Except.mapError]

namespace ReaderHalf

variable {W : Type} [Write W] {h : ReaderHalf R W}

omit [Write W] in
/-- The arm of the socket panics where `read` does. -/
theorem readerEvent_panicked (valid : h.inner.Valid) :
    Panicked (outcome (readerEvent h)) ↔ h.inner.view.Trips := by
  have hread := View.read_noPanic_iff h.inner.view
  rw [← valid.read.1] at hread
  rw [← not_iff_not, ← hread]
  unfold readerEvent
  rcases Reader.read h.inner with ⟨slice, r'⟩ | ⟨e | msg, r'⟩
  · exact iff_of_true (not_panicked_ok true) (noPanic_ok slice)
  · cases hblock : wouldBlock e <;> simp [Panicked, NoPanic, hblock]
  · simp [Panicked, NoPanic]

omit [Read R] in
theorem timerEvent_not_panicked (read : Bool) : ¬ Panicked (outcome (timerEvent read h)) := by
  rintro ⟨msg, hmsg⟩
  cases read with
  | false => cases hmsg
  | true =>
    have hsafe := WriterHalf.safe_handlePing h.writer
    simp only [timerEvent, if_true, onWriter] at hmsg
    cases hping : WriterHalf.handlePing h.writer with
    | ok u w => simp [hping] at hmsg
    | error e w =>
      rw [hping] at hsafe
      simp only [hping, outcome_error, Except.error.injEq, Stop.fault.injEq] at hmsg
      exact hsafe msg (congrArg Except.error hmsg)

omit [Target] [Read R] [Write W] in
theorem poll_not_panicked (p : Poll W) (polls : List (Poll W)) :
    ¬ Panicked (outcome (poll p polls h)) := by
  obtain ⟨meanwhile, events⟩ := p
  rintro ⟨msg, hmsg⟩
  cases events <;> cases hmsg

/-- The loop over events panics where one of its calls of `read` does. -/
theorem handleEvents_panicked (events : List PollEvent) (valid : h.inner.Valid) :
    Panicked (outcome (handleEvents events h)) ↔ ∃ r ∈ eventReads events h, r.view.Trips := by
  induction events generalizing h with
  | nil => simp [handleEvents, eventReads, Panicked]
  | cons event events ih =>
    cases event with
    | reader =>
      have hpanic := readerEvent_panicked valid
      have hvalid := Reader.Valid.loopRule.readerEvent (W := W) h valid
      rw [handleEvents, bind_apply, eventReads, List.exists_mem_cons_iff, ← hpanic]
      cases heq : readerEvent h with
      | error e h' => simp [Panicked]
      | ok done h' =>
        rw [heq] at hvalid
        cases done with
        | true => simp [Panicked]
        | false => exact (ih hvalid).trans (or_iff_right (not_panicked_ok false)).symm
    | timer read =>
      have hpanic := timerEvent_not_panicked (h := h) read
      have hvalid := timerEvent_triple (W := W) (fun _ hv => hv) read h valid
      rw [handleEvents, bind_apply, eventReads]
      cases heq : timerEvent read h with
      | error e h' =>
        rw [heq] at hpanic
        exact iff_of_false (by simpa [Panicked] using hpanic) (by simp)
      | ok u h' =>
        rw [heq] at hvalid
        exact ih hvalid

theorem pollLoop_panicked (polls : List (Poll W)) (valid : h.inner.Valid) :
    Panicked (outcome (pollLoop polls h)) ↔ ∃ r ∈ loopReads polls h, r.view.Trips := by
  induction polls generalizing h with
  | nil => simp [pollLoop, pollLoopWith, loopReads, Panicked]
  | cons p polls ih =>
    have hvalid := poll_triple (I := Reader.Valid) (fun _ hv => hv) p polls h valid
    rw [pollLoop_cons, bind_apply, loopReads]
    cases heq : poll p polls h with
    | error e h' =>
      have hpanic := poll_not_panicked p polls (h := h)
      rw [heq] at hpanic
      exact iff_of_false (by simpa [Panicked] using hpanic) (by simp)
    | ok events h' =>
      rw [heq] at hvalid
      have hpanic := handleEvents_panicked events hvalid
      have hvalid' := Reader.Valid.loopRule.handleEvents events h' hvalid
      simp only [bind_apply, List.mem_append, or_and_right, exists_or]
      rw [← hpanic]
      cases hhandle : handleEvents events h' with
      | error e h'' => simp [Panicked]
      | ok done h'' =>
        rw [hhandle] at hvalid'
        cases done with
        | true => simp [Panicked]
        | false => exact (ih hvalid').trans (or_iff_right (not_panicked_ok false)).symm

theorem pollEvent_panicked (valid : h.inner.Valid) :
    Panicked (outcome (pollEvent h)) ↔ ∃ r ∈ loopReads h.polls h, r.view.Trips := by
  have hvalid := Reader.Valid.loopRule.pollLoop (W := W) h.polls h valid
  rw [← pollLoop_panicked h.polls valid]
  simp only [pollEvent, pollEventWith, bind_apply, get_apply]
  cases heq : pollLoop h.polls h with
  | error e h' => simp [Panicked]
  | ok u h' =>
    rw [heq] at hvalid
    simp only [onReader, hvalid.1.buff_eq]
    exact iff_of_false (not_panicked_ok _) (not_panicked_ok _)

end ReaderHalf

/-! ## What is in front of the reader -/

/-- Behind a known frame there is less than a window, and without one in front. -/
structure Reader.Tidy (r : Reader R) : Prop where
  valid : r.Valid
  short : r.view.leftover.length < MIN

omit [Target] [Read R] in
theorem View.leftover_of_some {v : View R} {n : ℕ} (hf : v.frame = some n) :
    v.leftover = v.pending.drop n := by
  obtain ⟨capacity, pending, frame, inner⟩ := v
  obtain rfl : frame = some n := hf
  rfl

omit [Target] in
theorem View.readFrame_leftover {v : View R} {n : ℕ} (hf : v.frame = some n)
    (h : (v.pending.drop n).length < Reader.MIN) :
    (final (View.readFrame n v)).leftover.length < Reader.MIN := by
  rw [View.leftover_of_some ((View.readFrame_frame n v).trans hf)]
  have hframed := View.readFrame_framed n v
  generalize View.readFrame n v = r at hframed ⊢
  cases hframed with
  | refused | there | interrupted => exact h
  | @completed got inner fits short request =>
    have hgot := Read.readExact_ok (n - v.pending.length) v.inner
    rw [request] at hgot
    have hdrop : (v.pending ++ got).drop n = [] := by
      rw [List.drop_eq_nil_iff, List.length_append, hgot rfl]
      omega
    rw [final_ok, hdrop]
    exact Nat.succ_pos _

/-- What is left in front of the reader, if it is not the rest behind a frame, is a header that
does not end. -/
theorem View.read_leftover {v : View R} (h : v.leftover.length < Reader.MIN) :
    (final (View.read v)).leftover.length < Reader.MIN ∨
      ∃ v', View.read v =
          .error (.err ⟨.invalid, "remaining length continuation flags require more than 4 bytes"⟩)
            v' ∧ v'.frame = none ∧ Overlong v'.pending := by
  rw [View.read, bind_apply]
  cases hf : v.frame with
  | some n =>
    rw [View.currentFrame_of_some hf]
    rw [View.leftover_of_some hf] at h
    exact .inl (View.readFrame_leftover hf h)
  | none =>
    rw [View.leftover_of_none hf] at h
    rw [View.currentFrame_of_short hf h]
    obtain ⟨v₀, ⟨hf₀, hlen₀⟩, hsought⟩ := View.nextFrameLoop_sought
      (J := fun w => w.frame = none ∧ w.pending.length ≤ Reader.MIN)
      (fun w w' hw hlt hfill => by
        obtain ⟨bytes, -, hread, heq⟩ := View.fillHead_eq_ok hfill
        have hle := Read.read_length _ _ _ _ hread
        rw [heq]
        refine ⟨hw.1, ?_⟩
        simp only [List.length_append]
        omega)
      ⟨hf, h.le⟩ (Nat.le_add_left Reader.MIN v.pending.length)
    generalize View.nextFrameLoop (Reader.MIN + 1) v = x at hsought ⊢
    cases hsought with
    | @found n announced =>
      obtain ⟨-, hle, -⟩ := FixedHeader.headerLength_le announced
      have h2 : 2 ≤ FixedHeader.headerLength v₀.pending := Nat.le_add_left 2 _
      refine .inl (View.readFrame_leftover rfl ?_)
      simp only [List.length_drop]
      omega
    | malformed error =>
      obtain ⟨rfl, -⟩ := FixedHeader.nextFrame_eq_error.1 error
      exact .inr ⟨v₀, rfl, hf₀, overlong_iff.2 ⟨_, error⟩⟩
    | @stopped e v' short fill =>
      obtain ⟨-, -, -, heq⟩ := View.fillHead_eq_error fill
      have hframe : ({ v₀ with inner := v'.inner } : View R).frame = none := hf₀
      refine .inl ?_
      rw [final_error, heq, View.leftover_of_none hframe]
      exact FixedHeader.length_lt_of_nextFrame_none short

omit [Target] in
theorem Overlong.le_length {bytes : List UInt8} (h : Overlong bytes) :
    Reader.MIN ≤ bytes.length := by
  have hle : (bytes.tail.takeWhile RemainingLength.hasContinueFlag).length ≤ bytes.tail.length :=
    (List.takeWhile_sublist _).length_le
  rw [List.length_tail] at hle
  unfold Overlong at h
  simp only [Reader.MIN, RemainingLength.maxBytes]
  omega

/-- A reader that has an overlong header in front. -/
def Reader.Jammed (r : Reader R) : Prop := ∃ bytes inner, r.Stuck bytes inner

theorem Reader.Tidy.loopRule : ReaderHalf.LoopRule (Reader.Tidy (R := R)) Reader.Tidy
    (fun r => r.Tidy ∨ r.Jammed) := by
  refine ⟨fun r h => .inl h, fun r h => ?_⟩
  obtain ⟨hout, hvalid, hview⟩ := h.valid.read
  rcases View.read_leftover h.short with hshort | ⟨v', hread, hf, hlong⟩
  · have htidy : (final (Reader.read r)).Tidy := ⟨hvalid, hview ▸ hshort⟩
    cases hread : Reader.read r with
    | ok slice r' =>
      rw [hread] at htidy
      exact htidy
    | error e r' =>
      rw [hread] at htidy
      cases e with
      | panicked msg => exact .inl htidy
      | err e =>
        simp only
        split_ifs
        · exact htidy
        · exact .inl htidy
  · rw [hread] at hout hview
    cases heq : Reader.read r with
    | ok slice r' =>
      rw [heq] at hout
      cases hout
    | error e r' =>
      rw [heq] at hout hvalid hview
      obtain rfl : e = .err ⟨.invalid, _⟩ := by simpa using hout
      obtain rfl : r'.view = v' := hview
      exact .inr ⟨_, _, hvalid, hf, rfl, rfl, hlong⟩

namespace ReaderHalf

variable {W : Type} [Write W]

/-- Every call of `read` finds what the rule keeps. -/
theorem LoopRule.eventReads {I D E : Reader R → Prop} (rule : LoopRule I D E)
    {events : List PollEvent} {h : ReaderHalf R W} (hI : I h.inner) :
    ∀ r ∈ ReaderHalf.eventReads events h, I r := by
  induction events generalizing h with
  | nil => simp [ReaderHalf.eventReads]
  | cons event events ih =>
    cases event with
    | reader =>
      have hnext := rule.readerEvent (W := W) h hI
      rw [ReaderHalf.eventReads, List.forall_mem_cons]
      refine ⟨hI, ?_⟩
      cases heq : ReaderHalf.readerEvent h with
      | error e h' => simp
      | ok done h' =>
        rw [heq] at hnext
        cases done with
        | true => simp
        | false => exact ih hnext
    | timer read =>
      have hnext := timerEvent_triple (W := W) rule.stopped read h hI
      rw [ReaderHalf.eventReads]
      cases heq : ReaderHalf.timerEvent read h with
      | error e h' => simp
      | ok u h' =>
        rw [heq] at hnext
        exact ih hnext

theorem LoopRule.loopReads {I D E : Reader R → Prop} (rule : LoopRule I D E)
    {polls : List (Poll W)} {h : ReaderHalf R W} (hI : I h.inner) :
    ∀ r ∈ ReaderHalf.loopReads polls h, I r := by
  induction polls generalizing h with
  | nil => simp [ReaderHalf.loopReads]
  | cons p polls ih =>
    have hpoll := poll_triple (I := I) rule.stopped p polls h hI
    rw [ReaderHalf.loopReads]
    cases heq : poll p polls h with
    | error e h' => simp
    | ok events h' =>
      rw [heq] at hpoll
      have hnext := rule.handleEvents events h' hpoll
      refine List.forall_mem_append.2 ⟨rule.eventReads hpoll, ?_⟩
      cases hhandle : ReaderHalf.handleEvents events h' with
      | error e h'' => simp
      | ok done h'' =>
        rw [hhandle] at hnext
        cases done with
        | true => simp
        | false => exact ih hnext

end ReaderHalf

/-! ## The calls -/

/-- A packet of another type, with one byte of remaining length. -/
def ConnAck.Mistyped (buf : List UInt8) : Prop :=
  ∃ b l rest t f, buf = b :: l :: rest ∧ Varint.more l = false ∧
    ControlPacketType.parse b = .ok (t, f) ∧ t ≠ .connAck

namespace ReceiverCall

variable {W : Type} [Write W] {h : ReaderHalf R W}

/-- The call is a `connect` whose packet memory holds. -/
def InMemory (call : ReceiverCall) : Prop := ∀ value, call = .connect value → value.InMemory

omit [Read R] [Write W] in
theorem parse_panics {call : ReceiverCall} {buf : List UInt8} :
    ¬ NoPanic (call.parse buf) ↔ Target.debugAssertions = true ∧
      (∃ value, call = .connect value) ∧ ConnAck.Mistyped buf := by
  cases call with
  | recv =>
    have hparse : NoPanic (Mcutt.consume Packet.parse buf) :=
      consume_noPanic_iff.2 (Packet.parse_noPanic buf)
    refine iff_of_false (not_not.2 ?_) (by simp)
    exact hparse.bind fun _ _ => noPanic_ok _
  | connect value =>
    have hmap : NoPanic ((connect value).parse buf) ↔
        NoPanic (Mcutt.consume ConnAck.parse buf) := by
      simp only [parse]
      cases Mcutt.consume ConnAck.parse buf <;> simp [NoPanic]
    rw [hmap, consume_noPanic_iff, ConnAck.parse_noPanic_iff]
    constructor
    · intro hpanic
      by_contra hnot
      refine hpanic fun b l rest t f hbuf hmore hparse hdebug => ?_
      by_contra ht
      exact hnot ⟨hdebug, ⟨value, rfl⟩, b, l, rest, t, f, hbuf, hmore, hparse, ht⟩
    · rintro ⟨hdebug, -, b, l, rest, t, f, hbuf, hmore, hparse, ht⟩ hno
      exact ht (hno b l rest t f hbuf hmore hparse hdebug)

omit [Read R] in
theorem enter_safe {call : ReceiverCall} (memory : call.InMemory) (valid : h.inner.Valid) :
    ¬ Panicked (outcome (call.enter h)) := by
  cases call with
  | recv =>
    simp only [enter, ReaderHalf.onReader]
    rw [valid.consume_eq]
    exact not_panicked_ok _
  | connect value =>
    have hsafe : Safe ((ClientCall.connect value).run : EStateM Fault (WriterHalf W) Unit) := by
      refine ClientCall.safe_run fun value' hvalue => ?_
      exact memory value' (by rw [ClientCall.connect.inj hvalue])
    have hstep : NoPanic (outcome (WriterHalf.connect value h.writer)) := hsafe h.writer
    simp only [enter, ReaderHalf.onWriter]
    cases heq : WriterHalf.connect value h.writer with
    | ok u w => exact not_panicked_ok _
    | error e w =>
      rw [heq] at hstep
      rintro ⟨msg, hmsg⟩
      obtain rfl : e = .panicked msg := by simpa using hmsg
      exact hstep msg rfl

/-- A call panics where one of its calls of `read` does, or where its parser does. -/
theorem run_panicked {call : ReceiverCall} (memory : call.InMemory) (valid : h.inner.Valid) :
    Panicked (outcome (call.run h)) ↔ (∃ r ∈ call.reads h, r.view.Trips) ∨
      ∃ buf, outcome (call.polled h) = .ok buf ∧ Target.debugAssertions = true ∧
        (∃ value, call = .connect value) ∧ ConnAck.Mistyped buf := by
  have henter := enter_safe memory valid
  have hvalid := Connection.enter_valid call valid
  rw [call.run_eq, reads, polled, bind_apply]
  cases heq : call.enter h with
  | error e h' =>
    rw [heq] at henter
    exact iff_of_false (by simpa [Panicked] using henter) (by simp)
  | ok u h' =>
    rw [heq] at hvalid
    have hpoll := ReaderHalf.pollEvent_panicked hvalid
    simp only
    rw [final_ok] at hpoll
    rw [← hpoll]
    cases ReaderHalf.pollEvent h' with
    | error e h'' => simp [Panicked]
    | ok buf h'' =>
      simp only [ReaderHalf.onExec, outcome_ok, Except.ok.injEq, exists_eq_left']
      rw [← parse_panics, or_iff_right (not_panicked_ok buf), ← panicked_mapError]
      cases call.parse buf <;> rfl

end ReceiverCall

/-! ## Runs -/

namespace Connection

variable {W : Type} [Write W] {h : ReaderHalf R W}

omit [Read R] in
theorem enter_tidy (call : ReceiverCall) (tidy : h.inner.Tidy) :
    (final (call.enter h)).inner.Tidy := by
  cases call with
  | connect value =>
    show (final (ReaderHalf.onWriter (WriterHalf.connect value) h)).inner.Tidy
    unfold ReaderHalf.onWriter
    cases WriterHalf.connect value h.writer <;> exact tidy
  | recv =>
    obtain ⟨hvalid, hview⟩ := tidy.valid.consume
    have hnext : (final (Reader.consume h.inner)).Tidy := by
      refine ⟨hvalid, ?_⟩
      rw [hview, View.leftover_of_none (View.consume_frame _)]
      exact tidy.short
    show (final (ReaderHalf.onReader Reader.consume h)).inner.Tidy
    rw [ReaderHalf.onReader, tidy.valid.consume_eq]
    exact hnext

/-- What is in front of the reader between two calls. -/
def Settled (h : ReaderHalf R W) : Prop := h.inner.Tidy ∨ h.inner.Jammed

theorem run_settled (call : ReceiverCall) (settled : Settled h) : Settled (final (call.run h)) := by
  rcases settled with tidy | ⟨bytes, inner, stuck⟩
  · have henter := enter_tidy call tidy
    rw [call.final_run, ReceiverCall.polled, bind_apply]
    cases heq : call.enter h with
    | error e h' =>
      rw [heq] at henter
      exact .inl henter
    | ok u h' =>
      rw [heq] at henter
      have hpoll := Reader.Tidy.loopRule.pollEvent (W := W) (fun r h => h.valid) h' henter
      simp only
      cases hevent : ReaderHalf.pollEvent h' with
      | error e h'' =>
        rw [hevent] at hpoll
        exact hpoll
      | ok buf h'' =>
        rw [hevent] at hpoll
        exact .inl hpoll.1
  · exact .inr ⟨bytes, inner, (run_stuck call stuck).1⟩

/-- Every call of `read` finds what the rule keeps. -/
theorem forall_reads {I D E : Reader R → Prop} (rule : ReaderHalf.LoopRule I D E)
    (call : ReceiverCall) (henter : I (final (call.enter h)).inner) : ∀ r ∈ call.reads h, I r := by
  rw [ReceiverCall.reads]
  cases heq : call.enter h with
  | error e h' => simp
  | ok u h' =>
    rw [heq] at henter
    exact rule.loopReads henter

/-- The `read` of a call trips over an overlong header that was there when the call began. -/
theorem reads_trip_iff (call : ReceiverCall) (settled : Settled h) :
    (∃ r ∈ call.reads h, r.view.Trips) ↔ Target.debugAssertions = true ∧ call.reads h ≠ [] ∧
      h.inner.frame = none ∧ Overlong h.inner.pending := by
  rcases settled with tidy | ⟨bytes, inner, stuck⟩
  · have hreads := forall_reads Reader.Tidy.loopRule call (enter_tidy call tidy)
    have short {r : Reader R} (hr : r.Tidy) (hf : r.frame = none) :
        r.pending.length < Reader.MIN := by
      have hshort := hr.short
      rwa [View.leftover_of_none (v := r.view) hf] at hshort
    apply iff_of_false
    · rintro ⟨r, hr, -, hf, hle⟩
      exact absurd (short (hreads r hr) hf) (not_lt.2 hle)
    · rintro ⟨-, -, hf, hlong⟩
      exact absurd (short tidy hf) (not_lt.2 hlong.le_length)
  · have hreads := forall_reads (Reader.Stuck.loopRule bytes inner) call (enter_stuck call stuck)
    have trips {r : Reader R} (hr : r.Stuck bytes inner) :
        r.view.Trips ↔ Target.debugAssertions = true := by
      refine ⟨fun h => h.1, fun hdebug => ⟨hdebug, hr.frame, ?_⟩⟩
      rw [show r.view.pending = bytes from hr.pending]
      exact hr.overlong.le_length
    constructor
    · rintro ⟨r, hr, htrips⟩
      exact ⟨htrips.1, List.ne_nil_of_mem hr, stuck.frame, stuck.pending ▸ stuck.overlong⟩
    · rintro ⟨hdebug, hne, -, -⟩
      obtain ⟨r, hr⟩ := List.exists_mem_of_ne_nil _ hne
      exact ⟨r, hr, (trips (hreads r hr)).2 hdebug⟩

/-- A call that receives panics in debug builds only: where it comes to `read` with a header in
front that does not end and was there when it began, or where `connect` is given a packet of
another type. -/
theorem panics_iff {capacity : ℕ} {inner : R}
    (new : Reader.withCapacity inner capacity = some h.inner) (script : List ReceiverCall)
    (memory : ∀ call ∈ script, call.InMemory) :
    ∀ c ∈ receives script h, Panicked c.result ↔ Target.debugAssertions = true ∧
      ((c.input.reads c.before ≠ [] ∧ c.before.inner.frame = none ∧
          Overlong c.before.inner.pending) ∨
        ∃ value buf, c.input = .connect value ∧ slice c = .ok buf ∧ ConnAck.Mistyped buf) := by
  intro c hc
  have htidy : h.inner.Tidy := by
    obtain ⟨hvalid, hview⟩ := shows_withCapacity new
    refine ⟨hvalid, ?_⟩
    rw [hview]
    exact Nat.succ_pos _
  have hsettled := (invariant_of_log (I := fun h : ReaderHalf R W => Settled h)
    (P := fun _ _ => True) (fun call h hs _ => run_settled call hs) (.inl htidy)
    (fun _ _ => trivial) hc).1
  have hvalid : c.before.inner.Valid := by
    rcases hsettled with tidy | ⟨bytes, inner, stuck⟩
    · exact tidy.valid
    · exact stuck.valid
  rw [(call_of_log hc).1, ReceiverCall.run_panicked (memory _ (input_of_log hc)) hvalid,
    reads_trip_iff c.input hsettled]
  constructor
  · rintro (⟨hdebug, hread⟩ | ⟨buf, hbuf, hdebug, ⟨value, hvalue⟩, htype⟩)
    · exact ⟨hdebug, .inl hread⟩
    · exact ⟨hdebug, .inr ⟨value, buf, hvalue, hbuf, htype⟩⟩
  · rintro ⟨hdebug, hread | ⟨value, buf, hvalue, hbuf, htype⟩⟩
    · exact .inl ⟨hdebug, hread⟩
    · exact .inr ⟨buf, hbuf, hdebug, ⟨value, hvalue⟩, htype⟩

end Connection

end

end

/-- A PUBLISH whose remaining length does not end, which the second call trips over. -/
theorem Connection.panics_iff_two :
    letI := Target.debug
    letI h : ReaderHalf Input (List UInt8) := ⟨⟨[0, 0, 0, 0, 0], 0, none, 0,
      [.chunk [0x30, 0x80, 0x80, 0x80, 0x80]]⟩, ⟨false, []⟩,
      List.replicate 2 ⟨id, .ok [.reader]⟩⟩
    letI c := Call.of ReceiverCall.run .recv h
    letI d := Call.of ReceiverCall.run (.connect ConnectBuilder.withEmptyClientId) c.after
    Panicked d.result ↔ Target.debugAssertions = true ∧
      ((d.input.reads d.before ≠ [] ∧ d.before.inner.frame = none ∧
          Overlong d.before.inner.pending) ∨
        ∃ value buf, d.input = .connect value ∧ Connection.slice d = .ok buf ∧
          ConnAck.Mistyped buf) := by
  refine @Connection.panics_iff Target.debug Input _ (List UInt8) _ ⟨⟨[0, 0, 0, 0, 0], 0, none, 0,
      [.chunk [0x30, 0x80, 0x80, 0x80, 0x80]]⟩, ⟨false, []⟩,
      List.replicate 2 ⟨id, .ok [.reader]⟩⟩ 5 _ rfl
    [.recv, .connect ConnectBuilder.withEmptyClientId] ?_ _ ?_
  · intro call hcall value hvalue will hwill
    obtain rfl : value = ConnectBuilder.withEmptyClientId := by
      rw [hvalue] at hcall
      simpa using hcall
    cases hwill
  · simp only [Connection.receives, log]
    rw [if_neg (by decide +kernel)]
    exact List.mem_cons_of_mem _ List.mem_cons_self

end Mcutt
