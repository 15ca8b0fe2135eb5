import Mcutt.Lib.Since
import Mcutt.Sync.PartialWrites

/-!
# The keep-alive flag

`sent_flag` is set by a send that succeeds and cleared by a tick that does.  So a tick writes a
PINGREQ if and only if nothing was sent since the last one, and between two ticks a packet is
written (`keepalive_ping_iff`).
-/

namespace Mcutt

open Machine

/-! ## Calls that return -/

/-- An encoder that returns has put all of its output on the socket. -/
theorem Socket.of_run_ok {α : Type} {e : Enc α} {w w' : Socket} {a : α}
    (h : e.run w = (.ok a, w')) :
    e.result = .ok a ∧ w'.written = w.written ++ e.output := by
  induction e generalizing w with
  | done r =>
    obtain ⟨rfl, rfl⟩ := Prod.mk.inj h
    exact ⟨rfl, (List.append_nil _).symm⟩
  | write bs msg next ih =>
    obtain ⟨written, outcomes, flushes⟩ := w
    rw [Enc.result, Enc.output, ← List.append_assoc]
    cases outcomes with
    | nil => exact ih h
    | cons o outcomes =>
      cases o with
      | all => exact ih h
      | part n kind => cases (Prod.mk.inj h).1

namespace WriterHalf

section

variable {W : Type} [Write W]

/-- The packet is written and the writer is flushed, both without an error. -/
def Flushed (packet : Enc ℕ) (self : WriterHalf W) : Prop :=
  ∃ n w w', writeSync packet self = .ok n w ∧ flush w = .ok () w'

theorem writeSync_sentFlag (packet : Enc ℕ) (self : WriterHalf W) :
    (final (writeSync packet self)).sentFlag = self.sentFlag := by
  unfold writeSync
  rcases packet.run self.inner with ⟨_ | _, inner⟩ <;> rfl

theorem flush_sentFlag (self : WriterHalf W) :
    (final (flush self)).sentFlag = self.sentFlag := by
  unfold flush
  rcases Write.flush self.inner with ⟨_ | _, inner⟩ <;> rfl

/-- A packet that is written and flushed, and then the flag. -/
def sendThen (packet : Enc ℕ) (b : Bool) : EStateM Fault (WriterHalf W) Unit := do
  let _ ← writeSync packet
  flush
  modify fun self => { self with sentFlag := b }

/-- The flag is stored exactly if the packet was written and flushed. -/
theorem sendThen_spec (packet : Enc ℕ) (b : Bool) (self : WriterHalf W) :
    (outcome (sendThen packet b self) = .ok () ↔ Flushed packet self) ∧
      (Flushed packet self → (final (sendThen packet b self)).sentFlag = b) ∧
      (¬ Flushed packet self → (final (sendThen packet b self)).sentFlag = self.sentFlag) := by
  have hwrite := writeSync_sentFlag packet self
  unfold sendThen Flushed
  simp only [bind_apply]
  cases h : writeSync packet self with
  | error e w =>
    rw [h] at hwrite
    simp [← hwrite]
  | ok n w =>
    rw [h] at hwrite
    have hflush := flush_sentFlag w
    cases h' : flush w with
    | error e w' =>
      rw [h'] at hflush
      have hflag : w'.sentFlag = self.sentFlag := hflush.trans hwrite
      simp [h', hflag]
    | ok u w' => simp [h']

end

/-- `Connection::connect` up to its wait for the CONNACK. -/
def connect {W : Type} [Target] [Write W] (value : ConnectBuilder) :
    EStateM Fault (WriterHalf W) Unit := send (Connect.writeSync value)

end WriterHalf

/-! ## Calls -/

/-- A call that writes to the writer half. -/
inductive ClientCall where
  | connect (value : ConnectBuilder)
  | writer (call : WriterCall)

/-- A call that was made on a writer half. -/
abbrev Made (W : Type) := Call ClientCall Fault (WriterHalf W) Unit

namespace ClientCall

/-- The packet after which the call stores `true` in the flag. -/
def marks : ClientCall → Option ClientPacket
  | connect value => some (.connect value)
  | writer (.send (.publish value)) => some (.publish value)
  | writer (.send (.subscribe value)) => some (.subscribe value)
  | writer (.send (.unsubscribe value)) => some (.unsubscribe value)
  | writer (.send .disconnect) => none
  | writer .handlePing => none

/-- The packet the call sends, if it does. -/
def packet {W : Type} (call : ClientCall) (self : WriterHalf W) : Option ClientPacket :=
  match call with
  | connect value => some (.connect value)
  | writer call => call.packet self

section

variable [Target]

def run {W : Type} [Write W] : ClientCall → EStateM Fault (WriterHalf W) Unit
  | connect value => WriterHalf.connect value
  | writer call => call.run

/-- The calls of a run in order, those after a failed one included. -/
def calls {W : Type} [Write W] (script : List ClientCall) (w : WriterHalf W) :
    List (Made W) :=
  log (fun _ => false) run script w

/-- A CONNECT, PUBLISH, SUBSCRIBE or UNSUBSCRIBE was written and flushed. -/
def Sent {W : Type} [Write W] (c : Made W) : Prop :=
  ∃ p, c.input.marks = some p ∧ WriterHalf.Flushed p.writeSync c.before

omit [Target] in
/-- A tick was handled. -/
def Ticked {W : Type} (c : Made W) : Prop :=
  c.input = .writer .handlePing ∧ c.result = .ok ()

omit [Target] in
/-- DISCONNECT and ticks do not mark the flag. -/
theorem eq_of_marks_none {call : ClientCall} (h : call.marks = none) :
    call = .writer (.send .disconnect) ∨ call = .writer .handlePing := by
  cases call with
  | connect value => cases h
  | writer call =>
    cases call with
    | handlePing => exact .inr rfl
    | send call =>
      cases call with
      | disconnect => exact .inl rfl
      | publish value | subscribe value | unsubscribe value => cases h

/-- A call that marks the flag is `write_sync`, `flush` and the store. -/
theorem run_of_marks {W : Type} [Write W] {call : ClientCall} {p : ClientPacket}
    (h : call.marks = some p) :
    (call.run : EStateM Fault (WriterHalf W) Unit) = WriterHalf.sendThen p.writeSync true := by
  match call with
  | connect value | writer (.send (.publish value)) | writer (.send (.subscribe value))
  | writer (.send (.unsubscribe value)) =>
    obtain rfl := Option.some.inj h
    rfl

/-- DISCONNECT leaves the flag alone. -/
theorem sentFlag_disconnect {W : Type} [Write W] (w : WriterHalf W) :
    (final (WriterHalf.disconnect w)).sentFlag = w.sentFlag := by
  have hwrite := WriterHalf.writeSync_sentFlag Disconnect.writeSync w
  rw [WriterHalf.disconnect, bind_apply]
  cases h : WriterHalf.writeSync Disconnect.writeSync w with
  | ok n w' =>
    rw [h] at hwrite
    exact (WriterHalf.flush_sentFlag w').trans hwrite
  | error e w' =>
    rw [h] at hwrite
    exact hwrite

/-- A tick clears the flag, or finds it clear and leaves it so. -/
theorem sentFlag_handlePing {W : Type} [Write W] (w : WriterHalf W) :
    (final (WriterHalf.handlePing w)).sentFlag = false := by
  obtain ⟨sentFlag, inner⟩ := w
  cases sentFlag with
  | true => rfl
  | false =>
    show (final (WriterHalf.sendThen PingReq.writeSync false ⟨false, inner⟩)).sentFlag = false
    obtain ⟨-, hstored, hkept⟩ := WriterHalf.sendThen_spec PingReq.writeSync false ⟨false, inner⟩
    by_cases h : WriterHalf.Flushed PingReq.writeSync ⟨false, inner⟩
    · exact hstored h
    · exact hkept h

/-- A tick that finds the flag set returns `Ok`. -/
theorem ticked_of_sentFlag {W : Type} [Write W] {w : WriterHalf W} (h : w.sentFlag = true) :
    Ticked (.of run (.writer .handlePing) w) := by
  obtain ⟨sentFlag, inner⟩ := w
  obtain rfl : sentFlag = true := h
  exact ⟨rfl, rfl⟩

/-- The flag is set by what is sent and cleared by ticks. -/
theorem sentFlag_run {W : Type} [Write W] (call : ClientCall) (w : WriterHalf W) :
    (final (call.run w)).sentFlag = true ↔
      Sent (.of run call w) ∨ (w.sentFlag = true ∧ ¬ Ticked (.of run call w)) := by
  cases hmarks : call.marks with
  | some p =>
    obtain ⟨-, hstored, hkept⟩ := WriterHalf.sendThen_spec p.writeSync true w
    have hsent : Sent (.of run call w) ↔ WriterHalf.Flushed p.writeSync w := by
      simp [Sent, Call.of, hmarks]
    have htick : ¬ Ticked (.of run call w) := by
      rintro ⟨rfl, -⟩
      cases hmarks
    rw [run_of_marks hmarks, hsent]
    by_cases h : WriterHalf.Flushed p.writeSync w
    · simp [hstored h, h]
    · simp [hkept h, h, htick]
  | none =>
    have hsent : ¬ Sent (.of run call w) := by simp [Sent, Call.of, hmarks]
    rw [or_iff_right hsent]
    obtain rfl | rfl := eq_of_marks_none hmarks
    · have htick : ¬ Ticked (.of run (.writer (.send .disconnect)) w) := by
        rintro ⟨⟨⟩, -⟩
      rw [and_iff_left htick]
      exact iff_of_eq (congrArg (· = true) (sentFlag_disconnect w))
    · have hclear : (final ((ClientCall.writer .handlePing).run w)).sentFlag = false :=
        sentFlag_handlePing w
      rw [hclear]
      exact iff_of_false Bool.false_ne_true fun h => h.2 (ticked_of_sentFlag h.1)

/-- A call that sends a packet writes it first, and nothing behind it. -/
theorem exists_run_eq {call : ClientCall} {w : WriterHalf Socket} {p : ClientPacket}
    (hp : call.packet w = some p) : ∃ f : ℕ → EStateM Fault (WriterHalf Socket) Unit,
      call.run w = (WriterHalf.writeSync p.writeSync >>= f) w ∧
        ∀ n w', (final (f n w')).inner.written = w'.inner.written := by
  match call with
  | connect value | writer (.send (.publish value)) | writer (.send (.subscribe value))
  | writer (.send (.unsubscribe value)) =>
    obtain rfl := Option.some.inj hp
    exact ⟨_, rfl, fun _ => WriterCall.written_flush_bind true⟩
  | writer (.send .disconnect) =>
    obtain rfl := Option.some.inj hp
    exact ⟨_, rfl, fun _ => WriterCall.written_flush⟩
  | writer .handlePing =>
    obtain ⟨sentFlag, inner⟩ := w
    cases sentFlag with
    | true => cases hp
    | false =>
      obtain rfl := Option.some.inj hp
      exact ⟨_, rfl, fun _ => WriterCall.written_flush_bind false⟩

/-- A call that returns has written its packet. -/
theorem written_of_ok {call : ClientCall} {w : WriterHalf Socket} {p : ClientPacket}
    (hok : outcome (call.run w) = .ok ()) (hp : call.packet w = some p) :
    (final (call.run w)).inner.written = w.inner.written ++ p.wire := by
  obtain ⟨f, hrun, hf⟩ := exists_run_eq hp
  rw [hrun] at hok ⊢
  have htaken := WriterCall.written_writeSync_bind p.writeSync hf w
  rw [htaken, List.append_cancel_left_eq]
  cases h : p.writeSync.run w.inner with
  | mk r inner =>
    cases r with
    | error e =>
      have hsync : WriterHalf.writeSync p.writeSync w = .error e { w with inner } := by
        simp [WriterHalf.writeSync, h]
      rw [bind_apply, hsync] at hok
      cases hok
    | ok n =>
      obtain ⟨hresult, hwritten⟩ := Socket.of_run_ok h
      have hout := (ClientPacket.writeSync_eq_ok hresult).1
      have hadded := Socket.written_run p.writeSync w.inner
      rw [h, hwritten, List.append_cancel_left_eq, hout] at hadded
      exact hadded.symm

/-- A tick that is handled leaves the socket alone or writes a PINGREQ, by the flag. -/
theorem ticked_written {w : WriterHalf Socket}
    (htick : Ticked (.of run (.writer .handlePing) w)) :
    (w.sentFlag = true → (final (run (.writer .handlePing) w)).inner = w.inner) ∧
      (w.sentFlag = false → (final (run (.writer .handlePing) w)).inner.written =
        w.inner.written ++ ClientPacket.wire .pingReq) := by
  obtain ⟨sentFlag, inner⟩ := w
  constructor
  · rintro rfl
    rfl
  · rintro rfl
    exact written_of_ok htick.2 rfl

/-- What a tick writes is a PINGREQ. -/
def Pinged (c : Made Socket) : Prop :=
  c.after.inner.written = c.before.inner.written ++ ClientPacket.wire .pingReq

/-- The call wrote a whole packet. -/
def Wrote (c : Made Socket) : Prop :=
  ∃ p : ClientPacket, c.input.packet c.before = some p ∧
    c.after.inner.written = c.before.inner.written ++ p.wire

/-- A packet that marks the flag is written when it is sent. -/
theorem Sent.wrote {call : ClientCall} {w : WriterHalf Socket} (h : Sent (.of run call w)) :
    Wrote (.of run call w) := by
  obtain ⟨p, hmarks, hflushed⟩ := h
  have hmarks : call.marks = some p := hmarks
  have hp : call.packet w = some p := by
    match call with
    | connect value | writer (.send (.publish value)) | writer (.send (.subscribe value))
    | writer (.send (.unsubscribe value)) => exact hmarks
  have hok : outcome (call.run w) = .ok () := by
    rw [run_of_marks hmarks]
    exact (WriterHalf.sendThen_spec p.writeSync true w).1.2 hflushed
  exact ⟨p, hp, written_of_ok hok hp⟩

/-- A tick writes a PINGREQ if and only if no packet that marks the flag was sent since the tick
before it, and leaves the socket alone otherwise.  So a packet is written between two ticks. -/
theorem keepalive_ping_iff (script : List ClientCall) (socket : Socket) :
    (∀ pre c post, calls script ⟨false, socket⟩ = pre ++ c :: post → Ticked c →
      (Pinged c ↔ ¬ Since Sent Ticked pre) ∧
        (Since Sent Ticked pre → c.after.inner = c.before.inner)) ∧
    ∀ pre c mid d post, calls script ⟨false, socket⟩ = pre ++ c :: (mid ++ d :: post) →
      Ticked c → Ticked d → ∃ e ∈ mid ++ [d], Wrote e := by
  have flag {pre post : List (Made Socket)} {c : Made Socket}
      (hrun : calls script ⟨false, socket⟩ = pre ++ c :: post) :
      c.before.sentFlag = true ↔ Since Sent Ticked pre :=
    flag_iff_since (fun w => w.sentFlag = true) sentFlag_run Bool.false_ne_true hrun
  have call {c : Made Socket} (hc : c ∈ calls script ⟨false, socket⟩) :
      c = .of run c.input c.before :=
    eq_of_log hc
  have written {c : Made Socket} (hc : c ∈ calls script ⟨false, socket⟩) (htick : Ticked c) :
      (c.before.sentFlag = true → c.after.inner = c.before.inner) ∧
        (c.before.sentFlag = false → Pinged c) := by
    have hcall := call hc
    rw [htick.1] at hcall
    rw [hcall] at htick ⊢
    exact ticked_written htick
  constructor
  · intro pre c post hrun htick
    obtain ⟨hkept, hping⟩ := written (hrun ▸ List.mem_append_right pre List.mem_cons_self) htick
    rw [← flag hrun]
    refine ⟨?_, hkept⟩
    cases hsent : c.before.sentFlag with
    | true =>
      refine iff_of_false (fun h => ?_) (by simp)
      rw [Pinged, hkept hsent, List.self_eq_append_right] at h
      cases h
    | false => exact iff_of_true (hping hsent) Bool.false_ne_true
  · intro pre c mid d post hrun hc hd
    have hrun' : calls script ⟨false, socket⟩ = (pre ++ c :: mid) ++ d :: post := by
      rw [hrun, List.append_assoc, List.cons_append]
    cases hsent : d.before.sentFlag with
    | true =>
      have hnot : ¬ Sent c := by
        rintro ⟨p, hmarks, -⟩
        rw [hc.1] at hmarks
        cases hmarks
      obtain ⟨e, he, hsent⟩ := ((flag hrun').1 hsent).exists_mem hc hnot
      refine ⟨e, List.mem_append_left _ he, ?_⟩
      have hcall := call (c := e) (by simp [hrun, he])
      rw [hcall] at hsent ⊢
      exact hsent.wrote
    | false =>
      have hping := (written (hrun' ▸ List.mem_append_right _ List.mem_cons_self) hd).2 hsent
      refine ⟨d, by simp, .pingReq, ?_, hping⟩
      rw [hd.1, packet, WriterCall.packet, hsent]
      rfl

end

/-- A PUBLISH, a tick, and a tick that finds nothing sent. -/
theorem keepalive_ping_iff_three :
    letI := Target.debug
    let run := calls [.writer (.send (.publish (PublishBuilder.new "a" [1]))),
      .writer .handlePing, .writer .handlePing] ⟨false, ⟨[], [], []⟩⟩
    ∃ pre c, run = pre ++ [c] ∧ Pinged c ∧ ¬ Since Sent Ticked pre := by
  let := Target.debug
  obtain ⟨ping, -⟩ := keepalive_ping_iff [.writer (.send (.publish (PublishBuilder.new "a" [1]))),
    .writer .handlePing, .writer .handlePing] ⟨[], [], []⟩
  have hping := ping [_, _] _ [] rfl ⟨rfl, by decide⟩
  refine ⟨[_, _], _, rfl, ?_, hping.1.1 ?_⟩
  · exact rfl
  · exact rfl

end ClientCall

end Mcutt
