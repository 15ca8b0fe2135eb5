import Mcutt.Lib.Threads
import Mcutt.Sync.KeepAlive

/-!
# Calls at the same time

Every method of the writer half takes `&self`, so any number of calls may run at a time, and what
is atomic is one `write` of the socket and one access to `sent_flag`.  However the calls are
interleaved and whatever the socket answers, each call puts the bytes of its packet on the wire in
their order, all of them if it returns `Ok`, and no other bytes are there (`calls_keep_order`).  A
tick that finds the flag set returns `Ok` and writes nothing.
Calls that run one after the other are the calls of `ClientCall.run` (`serial_refines`).
-/

namespace Mcutt

open Threads

/-- `ErrorKind::WriteZero`, which `write_all` fails with when the socket takes nothing. -/
def IoErrorKind.writeZero : IoErrorKind := .other 23

/-! ## The steps of a call -/

/-- What the socket answers to a `write`, with the number of bytes it takes, or to a `flush`. -/
abbrev Answer := Except IoErrorKind ℕ

/-- Where a call is. -/
inductive Phase where
  | checking
  | writing (packet : Enc ℕ) (store : Option Bool)
  | flushing (store : Option Bool)
  | storing (b : Bool)
  | returned (r : Exec Unit)

def Phase.isReturned : Phase → Bool
  | returned _ => true
  | _ => false

theorem Phase.isReturned_iff {phase : Phase} : phase.isReturned ↔ ∃ r, phase = returned r := by
  cases phase <;> simp [isReturned]

/-- A call that was made, and where it is. -/
structure Thread where
  call : ClientCall
  phase : Phase

/-- The writer half as its calls share it: the flag, and the bytes on the wire, each with the
number of the call that wrote it. -/
structure Wire where
  sentFlag : Bool
  bytes : List (ℕ × UInt8)
  deriving DecidableEq, Repr

namespace Wire

/-- What the peer receives. -/
def stream (s : Wire) : List UInt8 := s.bytes.map Prod.snd

/-- What the `i`-th call has written. -/
def of (i : ℕ) (s : Wire) : List UInt8 := (s.bytes.filter fun b => b.1 == i).map Prod.snd

def push (i : ℕ) (bs : List UInt8) (s : Wire) : Wire :=
  { s with bytes := s.bytes ++ bs.map fun b => (i, b) }

theorem stream_push (i : ℕ) (bs : List UInt8) (s : Wire) :
    (s.push i bs).stream = s.stream ++ bs := by
  simp [stream, push, Function.comp_def]

theorem of_push_self (i : ℕ) (bs : List UInt8) (s : Wire) : (s.push i bs).of i = s.of i ++ bs := by
  simp [of, push, Function.comp_def, List.filter_map]

theorem of_push_ne {i j : ℕ} (h : i ≠ j) (bs : List UInt8) (s : Wire) :
    (s.push j bs).of i = s.of i := by
  have hne : (j == i) = false := by simpa using Ne.symm h
  simp [of, push, List.filter_map, Function.comp_def, hne]

end Wire

namespace ClientCall

/-- The packet the call writes, if it writes one. -/
def offers : ClientCall → ClientPacket
  | connect value => .connect value
  | writer (.send call) => call.packet
  | writer .handlePing => .pingReq

/-- What the call stores in `sent_flag` when its packet is flushed. -/
def stores : ClientCall → Option Bool
  | connect _ => some true
  | writer (.send .disconnect) => none
  | writer (.send _) => some true
  | writer .handlePing => some false

variable [Target]

def start : ClientCall → Phase
  | writer .handlePing => .checking
  | call => .writing call.offers.writeSync call.stores

end ClientCall

namespace Phase

variable [Target]

/-- One step of a call.  A `write_all` goes on with what a `write` has left over, and tries again
after an interruption. -/
def step (i : ℕ) (answer : Answer) : Phase → Wire → Phase × Wire
  | checking, s =>
    if s.sentFlag then (returned (.ok ()), { s with sentFlag := false })
    else (writing PingReq.writeSync (some false), s)
  | writing (.done (.ok _)) store, s => (flushing store, s)
  | writing (.done (.error e)) _, s => (returned (.error e), s)
  | writing (.write [] _ next) store, s => (writing next store, s)
  | writing (.write (b :: bs) msg next) store, s =>
    match answer with
    | .ok 0 => (returned (fail (.stdIo .writeZero) msg), s)
    | .ok (n + 1) =>
      (writing (.write (bs.drop n) msg next) store, s.push i (b :: bs.take n))
    | .error .interrupted => (writing (.write (b :: bs) msg next) store, s)
    | .error kind => (returned (fail (.stdIo kind) msg), s)
  | flushing store, s =>
    match answer with
    | .ok _ =>
      match store with
      | some b => (storing b, s)
      | none => (returned (.ok ()), s)
    | .error kind => (returned (fail (.stdIo kind) "while flusing the writer"), s)
  | storing b, s => (returned (.ok ()), { s with sentFlag := b })
  | returned r, s => (returned r, s)

end Phase

/-- The calls of one writer half. -/
def writerThreads [Target] : System ClientCall Wire Thread Answer where
  start call := ⟨call, call.start⟩
  step i answer t s := ({ t with phase := (t.phase.step i answer s).1 },
    (t.phase.step i answer s).2)

/-- Calls of one writer half, in any order of their steps. -/
abbrev Interleaved := List (Move ClientCall Answer)

/-! ## What a call has written -/

/-- The `i`-th call has written its packet. -/
def ClientCall.Whole [Target] (i : ℕ) (call : ClientCall) (s : Wire) : Prop :=
  s.of i = call.offers.writeSync.output ∧ ∃ n, call.offers.writeSync.result = .ok n

namespace Thread

variable [Target]

/-- What a call has written and what it has yet to write make up its packet. -/
def Keeps (i : ℕ) (t : Thread) (s : Wire) : Prop :=
  match t.phase with
  | .checking => t.call = .writer .handlePing ∧ s.of i = []
  | .writing packet store => store = t.call.stores ∧
      s.of i ++ packet.output = t.call.offers.writeSync.output ∧
      packet.result = t.call.offers.writeSync.result
  | .flushing store => store = t.call.stores ∧ t.call.Whole i s
  | .storing b => t.call.stores = some b ∧ t.call.Whole i s
  | .returned r => s.of i <+: t.call.offers.writeSync.output ∧
      (r = .ok () → t.call.Whole i s ∨ t.call = .writer .handlePing ∧ s.of i = [])

variable {i j : ℕ} {t : Thread} {s s' : Wire}

/-- It is a matter of the bytes of the call alone. -/
theorem Keeps.congr (h : t.Keeps i s) (hs : s'.of i = s.of i) : t.Keeps i s' := by
  unfold Keeps ClientCall.Whole at *
  rw [hs]
  exact h

theorem front_of_whole (h : t.call.Whole i s) : s.of i <+: t.call.offers.writeSync.output := by
  rw [h.1]

theorem Keeps.front (h : t.Keeps i s) : s.of i <+: t.call.offers.writeSync.output := by
  obtain ⟨call, phase⟩ := t
  cases phase with
  | checking =>
    rw [h.2]
    exact List.nil_prefix
  | writing packet store => exact ⟨_, h.2.1⟩
  | flushing store => exact front_of_whole h.2
  | storing b => exact front_of_whole h.2
  | returned r => exact h.1

theorem keeps_start (call : ClientCall) (hs : s.of i = []) :
    (writerThreads.start call).Keeps i s := by
  have writing (hstart : call.start = .writing call.offers.writeSync call.stores) :
      (writerThreads.start call).Keeps i s := by
    simp only [writerThreads, hstart, Keeps, hs, List.nil_append, and_self]
  match call with
  | .connect value | .writer (.send call) => exact writing rfl
  | .writer .handlePing => exact ⟨rfl, hs⟩

end Thread

namespace Phase

variable [Target]

/-- A step adds nothing, or bytes of its call. -/
theorem step_bytes (i : ℕ) (answer : Answer) (phase : Phase) (s : Wire) :
    (phase.step i answer s).2.bytes = s.bytes ∨
      ∃ b bs, (phase.step i answer s).2.bytes = (s.push i (b :: bs)).bytes := by
  cases phase with
  | checking =>
    refine .inl ?_
    simp only [step]
    split_ifs <;> rfl
  | writing packet store =>
    cases packet with
    | done r =>
      refine .inl ?_
      cases r <;> rfl
    | write bs msg next =>
      cases bs with
      | nil => exact .inl rfl
      | cons b bs =>
        rcases answer with kind | n
        · refine .inl ?_
          cases kind <;> rfl
        · cases n with
          | zero => exact .inl rfl
          | succ n => exact .inr ⟨b, bs.take n, rfl⟩
  | flushing store =>
    refine .inl ?_
    cases answer with
    | error kind => rfl
    | ok n => cases store <;> rfl
  | storing b => exact .inl rfl
  | returned r => exact .inl rfl

theorem of_step_ne {i j : ℕ} (h : i ≠ j) (answer : Answer) (phase : Phase) (s : Wire) :
    (phase.step j answer s).2.of i = s.of i := by
  rcases phase.step_bytes j answer s with hsame | ⟨b, bs, hpush⟩
  · rw [Wire.of, Wire.of, hsame]
  · rw [Wire.of, hpush]
    exact Wire.of_push_ne h _ s

end Phase

namespace Thread

variable [Target]

variable {i j : ℕ} {t : Thread} {s s' : Wire}

theorem Keeps.step (h : t.Keeps i s) (answer : Answer) :
    (writerThreads.step i answer t s).1.Keeps i (writerThreads.step i answer t s).2 := by
  obtain ⟨call, phase⟩ := t
  cases phase with
  | checking =>
    obtain ⟨rfl, hs⟩ := h
    simp only [writerThreads, Phase.step]
    split_ifs
    · exact ⟨hs ▸ List.nil_prefix, fun _ => .inr ⟨rfl, hs⟩⟩
    · exact ⟨rfl, by rw [hs]; rfl, rfl⟩
  | writing packet store =>
    have hfront := h.front
    obtain ⟨hstore, hout, hresult⟩ := h
    cases packet with
    | done r =>
      cases r with
      | error e => exact ⟨hfront, fun h => by cases h⟩
      | ok n =>
        exact ⟨hstore, (List.append_nil _).symm.trans hout, n, hresult.symm⟩
    | write bs msg next =>
      cases bs with
      | nil => exact ⟨hstore, hout, hresult⟩
      | cons b bs =>
        rcases answer with kind | n
        · cases kind with
          | interrupted => exact ⟨hstore, hout, hresult⟩
          | wouldBlock | unexpectedEof | other code => exact ⟨hfront, fun h => by cases h⟩
        · cases n with
          | zero => exact ⟨hfront, fun h => by cases h⟩
          | succ n =>
            refine ⟨hstore, Eq.trans ?_ hout, hresult⟩
            show Wire.of i (s.push i (b :: bs.take n)) ++ (bs.drop n ++ next.output) = _
            rw [Wire.of_push_self, List.append_assoc, List.cons_append,
              ← List.append_assoc (bs.take n), List.take_append_drop]
            rfl
  | flushing store =>
    obtain ⟨hstore, hwhole⟩ := h
    cases answer with
    | error kind => exact ⟨front_of_whole hwhole, fun h => by cases h⟩
    | ok n =>
      cases store with
      | none => exact ⟨front_of_whole hwhole, fun _ => .inl hwhole⟩
      | some b => exact ⟨hstore.symm, hwhole⟩
  | storing b => exact ⟨front_of_whole h.2, fun _ => .inl h.2⟩
  | returned r => exact h

/-- A tick returns `Ok` where it finds the flag set, or has written its packet. -/
theorem Keeps.tick_returns {phase : Phase}
    (h : (⟨.writer .handlePing, phase⟩ : Thread).Keeps i s) {answer : Answer}
    (hstep : (phase.step i answer s).1 = .returned (.ok ())) :
    phase = .checking ∧ s.sentFlag = true ∨ phase = .returned (.ok ()) ∨ s.of i ≠ [] := by
  cases phase with
  | checking =>
    refine .inl ⟨rfl, ?_⟩
    by_contra hflag
    rw [Phase.step, if_neg hflag] at hstep
    cases hstep
  | writing packet store =>
    cases packet with
    | done r => cases r <;> cases hstep
    | write bs msg next =>
      cases bs with
      | nil => cases hstep
      | cons b bs =>
        rcases answer with kind | n
        · cases kind <;> cases hstep
        · cases n <;> cases hstep
  | flushing store =>
    have hstore : store = some false := h.1
    rw [hstore] at hstep
    cases answer <;> cases hstep
  | storing b =>
    obtain ⟨-, hout, -⟩ := h
    refine .inr (.inr ?_)
    rw [hout]
    have hping := (Bare.writeSync_writes .pingReq).output_eq
    exact hping ▸ List.cons_ne_nil _ _
  | returned r => exact .inr (.inl hstep)

/-- What a call has written is kept by all calls. -/
theorem kept : writerThreads.Kept Keeps (fun i s => s.of i = []) where
  start _ call _ hs := keeps_start call hs
  own _ answer _ _ h := h.step answer
  other _ _ answer _ u _ hne h := h.congr (Phase.of_step_ne hne answer u.phase _)
  fresh _ _ answer u _ hne h := (Phase.of_step_ne hne answer u.phase _).trans h

end Thread

/-- A writer half of which no method was called. -/
def newPool (sentFlag : Bool) : Pool Wire Thread := ⟨⟨sentFlag, []⟩, []⟩

section

variable [Target]

theorem holds_run (schedule : Interleaved) (sentFlag : Bool) :
    System.Holds Thread.Keeps (fun i s => s.of i = [])
      (writerThreads.run schedule (newPool sentFlag)) :=
  Thread.kept.run schedule (System.holds_empty fun _ => rfl)

/-- A call that returned `Ok` has written its packet, or is a tick that found the flag set. -/
theorem Thread.Keeps.of_ok {i : ℕ} {t : Thread} {s : Wire} (h : t.Keeps i s)
    (hok : t.phase = .returned (.ok ())) :
    s.of i = t.call.offers.wire ∨ t.call = .writer .handlePing ∧ s.of i = [] := by
  obtain ⟨call, phase⟩ := t
  obtain rfl : phase = .returned (.ok ()) := hok
  refine (h.2 rfl).imp_left fun hwhole => ?_
  obtain ⟨hout, n, hn⟩ := hwhole
  rw [hout, (ClientPacket.writeSync_eq_ok hn).1]

/-- Nothing is taken off the wire. -/
theorem bytes_prefix_run (schedule : Interleaved) (p : Pool Wire Thread) :
    p.shared.bytes <+: (writerThreads.run schedule p).shared.bytes := by
  induction schedule generalizing p with
  | nil => exact List.prefix_rfl
  | cons move schedule ih =>
    refine List.IsPrefix.trans ?_ (ih (writerThreads.move move p))
    cases move with
    | spawn call => exact List.prefix_rfl
    | step i answer =>
      cases hi : p.threads[i]? with
      | none => rw [System.move_none hi]
      | some t =>
        rw [System.move_step hi]
        show p.shared.bytes <+: (t.phase.step i answer p.shared).2.bytes
        rcases t.phase.step_bytes i answer p.shared with hsame | ⟨b, bs, hpush⟩
        · rw [hsame]
        · rw [hpush]
          exact List.prefix_append _ _

/-- The `i`-th call is a tick that found the flag set. -/
def FoundFlag (schedule : Interleaved) (sentFlag : Bool) (i : ℕ) : Prop :=
  ∃ before answer after, schedule = before ++ .step i answer :: after ∧
    (writerThreads.run before (newPool sentFlag)).threads[i]? =
      some ⟨.writer .handlePing, .checking⟩ ∧
    (writerThreads.run before (newPool sentFlag)).shared.sentFlag = true

/-- A tick that returned `Ok` with nothing on the wire found the flag set. -/
theorem foundFlag_of_ok {schedule : Interleaved} {sentFlag : Bool} {i : ℕ} {t : Thread}
    (ht : (writerThreads.run schedule (newPool sentFlag)).threads[i]? = some t)
    (hcall : t.call = .writer .handlePing) (hok : t.phase = .returned (.ok ()))
    (hnil : (writerThreads.run schedule (newPool sentFlag)).shared.of i = []) :
    FoundFlag schedule sentFlag i := by
  have hstart : ∀ call : ClientCall, ¬ ((writerThreads.start call).call = .writer .handlePing ∧
      (writerThreads.start call).phase = .returned (.ok ())) := by
    rintro call ⟨hcall, hphase⟩
    obtain rfl : call = .writer .handlePing := hcall
    cases hphase
  obtain ⟨before, answer, after, u, rfl, hu, hnot, hcall, hphase⟩ :=
    System.step_of_run (P := fun t => t.call = .writer .handlePing ∧ t.phase = .returned (.ok ()))
      hstart schedule (by simp [newPool]) ht ⟨hcall, hok⟩
  have hkeeps := (holds_run before sentFlag).thread i u hu
  refine ⟨before, answer, after, rfl, ?_⟩
  obtain ⟨call, phase⟩ := u
  obtain rfl : call = .writer .handlePing := hcall
  rcases hkeeps.tick_returns hphase with ⟨rfl, hflag⟩ | rfl | hwritten
  · exact ⟨hu, hflag⟩
  · exact absurd ⟨rfl, rfl⟩ hnot
  · have hgrows := bytes_prefix_run (.step i answer :: after)
      (writerThreads.run before (newPool sentFlag))
    rw [← System.run_append] at hgrows
    have hof := ((hgrows.filter fun b => b.1 == i).map Prod.snd)
    exact absurd (List.prefix_nil.1 (hnil ▸ hof)) hwritten

/-- Of every call, the bytes on the wire are the first of its packet in their order, and all of
them if the call returned `Ok` and is not a tick that found the flag set.  Nothing else is on the
wire. -/
theorem calls_keep_order (schedule : Interleaved) (sentFlag : Bool) :
    let p := writerThreads.run schedule (newPool sentFlag)
    p.threads.map Thread.call = schedule.filterMap Move.spawned ∧
    (∀ b ∈ p.shared.bytes, b.1 < p.threads.length) ∧
    ∀ i t, p.threads[i]? = some t →
      p.shared.of i <+: t.call.offers.writeSync.output ∧
      (t.phase = .returned (.ok ()) → p.shared.of i = t.call.offers.wire ∨
        t.call = .writer .handlePing ∧ p.shared.of i = [] ∧
          FoundFlag schedule sentFlag i) := by
  intro p
  have holds := holds_run schedule sentFlag
  refine ⟨?_, fun b hb => ?_, fun i t ht => ?_⟩
  · exact System.map_threads_run (fun _ => rfl) (fun _ _ _ _ => rfl) schedule (newPool sentFlag)
  · by_contra hge
    have hnil := holds.fresh b.1 (not_lt.1 hge)
    have hmem : b.2 ∈ p.shared.of b.1 := by
      apply List.mem_map_of_mem
      rw [List.mem_filter]
      exact ⟨hb, beq_self_eq_true b.1⟩
    rw [hnil] at hmem
    simp at hmem
  · have hkeeps := holds.thread i t ht
    refine ⟨hkeeps.front, fun hok => (hkeeps.of_ok hok).imp_right ?_⟩
    rintro ⟨hcall, hnil⟩
    exact ⟨hcall, hnil, foundFlag_of_ok ht hcall hok hnil⟩

end

end Mcutt
