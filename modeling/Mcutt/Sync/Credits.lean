import Mcutt.Sync.Serial

/-!
# The keep-alive flag and calls at the same time

A send that has flushed its packet stores the flag later, and a tick that comes between writes a
PINGREQ, after which the flag is set for a packet that is older than it.  So a tick that finds the
flag set need not follow a packet.  What holds in every interleaving is that each such tick stands
for a packet of its own, and no less than that (`silent_ticks_paid`).  If no send is between its
flush and its store when a tick is done, a packet is written before the next one is
(`written_between_ticks`).
-/

namespace Mcutt

open Machine Threads

section

variable [Target]

/-! ## Counting -/

/-- A tick finds the flag set, and writes nothing. -/
def silent (_i : ℕ) (_answer : Answer) (t : Thread) (s : Wire) : ℕ :=
  match t.phase with
  | .checking => s.sentFlag.toNat
  | _ => 0

/-- The packet of a call that sets the flag is written and flushed. -/
def handedOver (_i : ℕ) (answer : Answer) (t : Thread) (_s : Wire) : ℕ :=
  match t.phase, answer with
  | .flushing (some true), .ok _ => 1
  | _, _ => 0

/-- The call has flushed its packet and not yet set the flag. -/
def Thread.late (t : Thread) : ℕ :=
  match t.phase with
  | .storing true => 1
  | _ => 0

/-- The calls that have flushed their packets and not yet set the flag. -/
def lateCalls (p : Pool Wire Thread) : ℕ := (p.threads.map Thread.late).sum

theorem late_start (call : ClientCall) : (writerThreads.start call).late = 0 := by
  match call with
  | .connect value | .writer (.send call) | .writer .handlePing => rfl

/-- A step that finds the flag set takes it, and one that sets it has flushed its packet. -/
theorem pays (i : ℕ) (answer : Answer) (t : Thread) (s : Wire) :
    (writerThreads.step i answer t s).2.sentFlag.toNat + (writerThreads.step i answer t s).1.late +
      silent i answer t s ≤ s.sentFlag.toNat + t.late + handedOver i answer t s := by
  obtain ⟨call, phase⟩ := t
  cases phase with
  | checking =>
    obtain ⟨sentFlag, bytes⟩ := s
    cases sentFlag with
    | true => exact le_rfl
    | false => exact le_rfl
  | writing packet store =>
    cases packet with
    | done r => cases r <;> exact le_rfl
    | write bs msg next =>
      cases bs with
      | nil => exact le_rfl
      | cons b bs =>
        rcases answer with kind | n
        · cases kind <;> exact le_rfl
        · cases n <;> exact le_rfl
  | flushing store =>
    cases answer with
    | error kind => exact Nat.le_add_right _ _
    | ok n =>
      cases store with
      | none => exact le_rfl
      | some b => cases b <;> exact le_rfl
  | storing b =>
    have hle := Bool.toNat_le s.sentFlag
    cases b with
    | true => exact Nat.le_add_left 1 s.sentFlag.toNat
    | false => exact Nat.zero_le _
  | returned r => exact le_rfl

/-! ## Calls that are late -/

/-- A call whose packet the socket takes. -/
theorem Phase.exists_alone_writing (i : ℕ) (packet : Enc ℕ) (store : Option Bool) (s : Wire)
    {n : ℕ} (hok : packet.result = .ok n) :
    ∃ answers, Phase.alone i answers (.writing packet store) s =
      (.flushing store, s.push i packet.output) := by
  induction packet generalizing s with
  | done r =>
    obtain rfl : r = .ok n := hok
    exact ⟨[.ok 0], by simp [alone, step, Enc.output, Wire.push]⟩
  | write bs msg next ih =>
    cases bs with
    | nil =>
      obtain ⟨answers, halone⟩ := ih s hok
      exact ⟨.ok 0 :: answers, halone⟩
    | cons b bs =>
      obtain ⟨answers, halone⟩ := ih (s.push i (b :: bs)) hok
      refine ⟨.ok (bs.length + 1) :: .ok 0 :: answers, ?_⟩
      have hpush : (s.push i (b :: bs)).push i next.output =
          s.push i (Enc.write (b :: bs) msg next).output := by
        simp [Wire.push, Enc.output]
      rw [← hpush, ← halone, alone, step, List.take_length, List.drop_length]
      rfl

theorem Phase.alone_append (i : ℕ) (answers answers' : List Answer) (phase : Phase) (s : Wire) :
    alone i (answers ++ answers') phase s =
      alone i answers' (alone i answers phase s).1 (alone i answers phase s).2 := by
  induction answers generalizing phase s with
  | nil => rfl
  | cons answer answers ih => exact ih _ _

/-- A send whose packet the socket takes is late until it takes one more step. -/
theorem exists_late (i : ℕ) {call : ClientCall} (hstores : call.stores = some true) {n : ℕ}
    (hok : call.offers.writeSync.result = .ok n) (s : Wire) :
    ∃ answers, Phase.alone i answers call.start s =
      (.storing true, s.push i call.offers.writeSync.output) := by
  have hne : call ≠ .writer .handlePing := by
    rintro rfl
    cases hstores
  obtain ⟨answers, halone⟩ := Phase.exists_alone_writing i call.offers.writeSync call.stores s hok
  refine ⟨answers ++ [.ok 0], ?_⟩
  rw [Phase.alone_append, (call.run_eq_deliver hne).2, halone, hstores]
  rfl

/-- Any number of sends can be late at a time. -/
theorem exists_run_late {call : ClientCall} (hstores : call.stores = some true) {k : ℕ}
    (hok : call.offers.writeSync.result = .ok k) (n : ℕ) :
    ∃ before s, s.sentFlag = false ∧ writerThreads.run before (newPool false) =
      ⟨s, List.replicate n ⟨call, .storing true⟩⟩ := by
  induction n with
  | zero => exact ⟨[], ⟨false, []⟩, rfl, rfl⟩
  | succ n ih =>
    obtain ⟨before, s, hflag, hrun⟩ := ih
    obtain ⟨answers, halone⟩ := exists_late n hstores hok s
    have hsteps := run_alone answers (List.replicate n ⟨call, .storing true⟩) ⟨call, call.start⟩ s
    rw [List.length_replicate, halone] at hsteps
    refine ⟨before ++ .spawn call :: answers.map (.step n), s.push n call.offers.writeSync.output,
      hflag, ?_⟩
    rw [System.run_append, hrun, List.replicate_succ']
    exact hsteps

/-- Ticks that each follow the store of a late send write nothing. -/
theorem exists_stall (call : ClientCall) (m : ℕ) (before after : List Thread) (s : Wire)
    (hflag : s.sentFlag = false) :
    ∃ schedule : Interleaved,
      let p : Pool Wire Thread :=
        ⟨s, before ++ (List.replicate m ⟨call, .storing true⟩ ++ after)⟩
      schedule.filterMap Move.spawned = List.replicate m (.writer .handlePing) ∧
        System.tally writerThreads silent schedule p = m ∧
        (writerThreads.run schedule p).shared.bytes = s.bytes := by
  induction m generalizing before after with
  | zero => exact ⟨[], rfl, rfl, rfl⟩
  | succ m ih =>
    obtain ⟨sentFlag, bytes⟩ := s
    obtain rfl : sentFlag = false := hflag
    let done : Thread := ⟨call, .returned (.ok ())⟩
    let ticked : Thread := ⟨.writer .handlePing, .returned (.ok ())⟩
    let rest := List.replicate m ⟨call, .storing true⟩ ++ after
    obtain ⟨schedule, hspawned, htally, hbytes⟩ := ih (before ++ [done]) (after ++ [ticked])
    have hpool : before ++ [done] ++ (List.replicate m ⟨call, .storing true⟩ ++
        (after ++ [ticked])) = (before ++ done :: rest) ++ [ticked] := by simp [rest]
    rw [hpool] at htally hbytes
    have hstore : writerThreads.move (.step before.length (.ok 0))
        ⟨⟨false, bytes⟩, before ++ ⟨call, .storing true⟩ :: rest⟩ =
          ⟨⟨true, bytes⟩, before ++ done :: rest⟩ := System.move_step_append ..
    have hspawn : writerThreads.move (.spawn (.writer .handlePing))
        ⟨⟨true, bytes⟩, before ++ done :: rest⟩ =
          ⟨⟨true, bytes⟩, (before ++ done :: rest) ++ [⟨.writer .handlePing, .checking⟩]⟩ := rfl
    have htick : writerThreads.move (.step (before ++ done :: rest).length (.ok 0))
        ⟨⟨true, bytes⟩, (before ++ done :: rest) ++ [⟨.writer .handlePing, .checking⟩]⟩ =
          ⟨⟨false, bytes⟩, (before ++ done :: rest) ++ [ticked]⟩ := System.move_step_append ..
    refine ⟨.step before.length (.ok 0) :: .spawn (.writer .handlePing) ::
      .step (before ++ done :: rest).length (.ok 0) :: schedule, ?_, ?_, ?_⟩
    · rw [List.replicate_succ, ← hspawned]
      rfl
    · rw [List.replicate_succ, List.cons_append, System.tally_step_append, hstore, System.tally,
        hspawn, System.tally_step_append, htick, htally]
      simp only [silent, Bool.toNat_true]
      omega
    · rw [List.replicate_succ, List.cons_append, System.run, hstore, System.run, hspawn,
        System.run, htick]
      exact hbytes

/-- Every tick that writes nothing stands for a packet of its own, which was flushed meanwhile or
whose call was late, or for the flag.  No bound is smaller: after any number of packets as many
ticks in a row can write nothing. -/
theorem silent_ticks_paid :
    (∀ (schedule : Interleaved) (p : Pool Wire Thread),
      System.tally writerThreads silent schedule p ≤
        System.tally writerThreads handedOver schedule p + lateCalls p +
          p.shared.sentFlag.toNat) ∧
    ∀ call : ClientCall, call.stores = some true →
      (∃ k, call.offers.writeSync.result = .ok k) → ∀ n, ∃ before after : Interleaved,
        let p := writerThreads.run before (newPool false)
        after.filterMap Move.spawned = List.replicate n (.writer .handlePing) ∧
          System.tally writerThreads silent after p = n ∧
          (writerThreads.run after p).shared.bytes = p.shared.bytes := by
  constructor
  · intro schedule p
    have hcharge := @System.charge_run _ _ _ _ writerThreads (fun s => s.sentFlag.toNat)
      Thread.late silent handedOver late_start pays schedule p
    simp only [System.potential] at hcharge
    rw [lateCalls]
    omega
  · rintro call hstores ⟨k, hok⟩ n
    obtain ⟨before, s, hflag, hrun⟩ := exists_run_late hstores hok n
    obtain ⟨after, hafter⟩ := exists_stall call n [] [] s hflag
    rw [List.nil_append, List.append_nil] at hafter
    refine ⟨before, after, ?_⟩
    rw [hrun]
    exact hafter

end

/-- Three PUBLISH that are late, and three ticks that write nothing. -/
theorem silent_ticks_paid_three :
    letI := Target.debug
    letI call := ClientCall.writer (.send (.publish (PublishBuilder.new "a" [1])))
    (∃ k, call.offers.writeSync.result = .ok k) ∧ ∃ before after : Interleaved,
      let p := writerThreads.run before (newPool false)
      after.filterMap Move.spawned = List.replicate 3 (.writer .handlePing) ∧
        System.tally writerThreads silent after p = 3 ∧
        (writerThreads.run after p).shared.bytes = p.shared.bytes := by
  let := Target.debug
  have hok : ∃ k, (ClientCall.writer (.send (.publish (PublishBuilder.new "a"
      [1])))).offers.writeSync.result = .ok k := ⟨6, by decide⟩
  exact ⟨hok, (@silent_ticks_paid Target.debug).2 _ rfl hok 3⟩

/-! ## A tick after which no send is late -/

section

variable [Target]

/-- A packet was written whole by one of the calls from the `n`-th on. -/
def WrittenFrom (n : ℕ) (p : Pool Wire Thread) : Prop :=
  ∃ k t, n ≤ k ∧ p.threads[k]? = some t ∧ t.call.Whole k p.shared

/-- The state of a run whose first `n` calls had returned when the flag was clear: the flag, and a
tick among the later calls that returned `Ok`, stand for a packet that was written since. -/
structure SinceQuiet (n : ℕ) (p : Pool Wire Thread) : Prop where
  holds : System.Holds Thread.Keeps (fun i s => s.of i = []) p
  le_length : n ≤ p.threads.length
  quiet : ∀ i t, i < n → p.threads[i]? = some t → t.phase.isReturned
  flag : p.shared.sentFlag = true → WrittenFrom n p
  ticked : ∀ i t, n ≤ i → p.threads[i]? = some t → t.call = .writer .handlePing →
    t.phase = .returned (.ok ()) → WrittenFrom n p

namespace Phase

/-- Where the flag comes from. -/
theorem sentFlag_step {i : ℕ} {answer : Answer} {phase : Phase} {s : Wire}
    (h : (phase.step i answer s).2.sentFlag = true) : s.sentFlag = true ∨ phase = .storing true := by
  cases phase with
  | checking =>
    refine .inl ?_
    by_contra hflag
    rw [step, if_neg hflag] at h
    exact hflag h
  | writing packet store =>
    refine .inl ?_
    cases packet with
    | done r => cases r <;> exact h
    | write bs msg next =>
      cases bs with
      | nil => exact h
      | cons b bs =>
        rcases answer with kind | n
        · cases kind <;> exact h
        · cases n <;> exact h
  | flushing store =>
    refine .inl ?_
    cases answer with
    | error kind => exact h
    | ok n => cases store <;> exact h
  | storing b =>
    refine .inr ?_
    obtain rfl : b = true := h
    rfl
  | returned r => exact .inl h

/-- How a call comes to return `Ok`. -/
theorem returned_step {i : ℕ} {answer : Answer} {phase : Phase} {s : Wire}
    (h : (phase.step i answer s).1 = .returned (.ok ())) :
    phase = .returned (.ok ()) ∨ phase = .checking ∧ s.sentFlag = true ∨
      phase = .flushing none ∨ ∃ b, phase = .storing b := by
  cases phase with
  | checking =>
    refine .inr (.inl ⟨rfl, ?_⟩)
    by_contra hflag
    rw [step, if_neg hflag] at h
    cases h
  | writing packet store =>
    cases packet with
    | done r => cases r <;> cases h
    | write bs msg next =>
      cases bs with
      | nil => cases h
      | cons b bs =>
        rcases answer with kind | n
        · cases kind <;> cases h
        · cases n <;> cases h
  | flushing store =>
    cases answer with
    | error kind => cases h
    | ok n =>
      cases store with
      | none => exact .inr (.inr (.inl rfl))
      | some b => cases h
  | storing b => exact .inr (.inr (.inr ⟨b, rfl⟩))
  | returned r => exact .inl h

end Phase

/-- What is written stays written. -/
theorem WrittenFrom.move {n : ℕ} {p : Pool Wire Thread} (h : WrittenFrom n p)
    (holds : System.Holds Thread.Keeps (fun i s => s.of i = []) p) (move : Move ClientCall Answer) :
    WrittenFrom n (writerThreads.move move p) := by
  obtain ⟨k, t, hk, ht, hwhole⟩ := h
  cases move with
  | spawn call =>
    exact ⟨k, t, hk, (List.getElem?_append_left (List.getElem?_eq_some_iff.1 ht).1).trans ht, hwhole⟩
  | step i answer =>
    cases hi : p.threads[i]? with
    | none =>
      rw [System.move_none hi]
      exact ⟨k, t, hk, ht, hwhole⟩
    | some u =>
      have hkeeps := (holds.thread i u hi).step answer
      rw [System.move_step hi]
      by_cases hik : k = i
      · subst hik
        obtain rfl : u = t := Option.some.inj (hi.symm.trans ht)
        refine ⟨k, _, hk, List.getElem?_set_self (List.getElem?_eq_some_iff.1 ht).1, ?_⟩
        rcases Phase.step_bytes k answer u.phase p.shared with hsame | ⟨b, bs, hpush⟩
        · refine (ClientCall.whole_congr ?_).2 hwhole
          show ((u.phase.step k answer p.shared).2.bytes.filter _).map _ = _
          rw [hsame]
          rfl
        · have hfront : (p.shared.push k (b :: bs)).of k <+: u.call.offers.writeSync.output := by
            rw [Wire.of, ← hpush]
            exact hkeeps.front
          exact absurd hwhole (ClientCall.not_whole_of_push hfront)
      · refine ⟨k, t, hk, (List.getElem?_set_ne (Ne.symm hik)).trans ht, ?_⟩
        exact (ClientCall.whole_congr (Phase.of_step_ne hik answer u.phase p.shared)).2 hwhole

namespace SinceQuiet

variable {n : ℕ} {p : Pool Wire Thread}

/-- A call that is not done is one of the later ones. -/
theorem le_of_not_returned (h : SinceQuiet n p) {i : ℕ} {t : Thread} (ht : p.threads[i]? = some t)
    (hphase : ¬ t.phase.isReturned) : n ≤ i := by
  by_contra hlt
  exact hphase (h.quiet i t (not_le.1 hlt) ht)

theorem spawn (h : SinceQuiet n p) (call : ClientCall) :
    SinceQuiet n (writerThreads.move (.spawn call) p) := by
  refine ⟨Thread.kept.spawn h.holds call, ?_, fun i t hi ht => ?_,
    fun hflag => (h.flag hflag).move h.holds _, fun i t hi ht hcall hphase => ?_⟩
  · exact h.le_length.trans (List.sublist_append_left _ _).length_le
  · have ht : (p.threads ++ [writerThreads.start call])[i]? = some t := ht
    rw [List.getElem?_append_left (hi.trans_le h.le_length)] at ht
    exact h.quiet i t hi ht
  · have ht : (p.threads ++ [writerThreads.start call])[i]? = some t := ht
    by_cases hlt : i < p.threads.length
    · rw [List.getElem?_append_left hlt] at ht
      exact (h.ticked i t hi ht hcall hphase).move h.holds _
    · rw [List.getElem?_append_right (not_lt.1 hlt)] at ht
      obtain rfl := List.mem_singleton.1 (List.mem_of_getElem? ht)
      match call with
      | .connect value | .writer (.send call) | .writer .handlePing => cases hphase

theorem step (h : SinceQuiet n p) (i : ℕ) (answer : Answer) :
    SinceQuiet n (writerThreads.move (.step i answer) p) := by
  have hholds := Thread.kept.step h.holds i answer
  cases hi : p.threads[i]? with
  | none =>
    rw [System.move_none hi]
    exact h
  | some t =>
    have written (hwhole : t.call.Whole i p.shared) (hphase : ¬ t.phase.isReturned) :
        WrittenFrom n (writerThreads.move (.step i answer) p) :=
      WrittenFrom.move ⟨i, t, h.le_of_not_returned hi hphase, hi, hwhole⟩ h.holds _
    have hkeeps := h.holds.thread i t hi
    have hmove := System.move_step (S := writerThreads) hi answer
    have hlt := (List.getElem?_eq_some_iff.1 hi).1
    obtain ⟨call, phase⟩ := t
    refine ⟨hholds, ?_, fun j u hj hu => ?_, fun hflag => ?_, fun j u hj hu hcall hphase => ?_⟩
    · rw [hmove]
      exact h.le_length.trans_eq (List.length_set ..).symm
    · rw [hmove] at hu
      by_cases hji : j = i
      · subst hji
        have hreturned := h.quiet j _ hj hi
        obtain ⟨r, rfl⟩ := Phase.isReturned_iff.1 hreturned
        obtain rfl := Option.some.inj ((List.getElem?_set_self hlt).symm.trans hu)
        rfl
      · exact h.quiet j u hj ((List.getElem?_set_ne (Ne.symm hji)).symm.trans hu)
    · have hflag' : (phase.step i answer p.shared).2.sentFlag = true := by
        rw [hmove] at hflag
        exact hflag
      rcases Phase.sentFlag_step hflag' with hbefore | rfl
      · exact (h.flag hbefore).move h.holds _
      · exact written hkeeps.2 (by simp [Phase.isReturned])
    · by_cases hji : j = i
      · subst hji
        have hu' : some (writerThreads.step j answer ⟨call, phase⟩ p.shared).1 = some u := by
          rw [hmove] at hu
          exact (List.getElem?_set_self hlt).symm.trans hu
        obtain rfl := Option.some.inj hu'
        rcases Phase.returned_step hphase with rfl | ⟨rfl, hflag⟩ | rfl | ⟨b, rfl⟩
        · exact (h.ticked j _ hj hi hcall rfl).move h.holds _
        · exact (h.flag hflag).move h.holds _
        · exact written hkeeps.2 (by simp [Phase.isReturned])
        · exact written hkeeps.2 (by simp [Phase.isReturned])
      · rw [hmove] at hu
        exact (h.ticked j u hj ((List.getElem?_set_ne (Ne.symm hji)).symm.trans hu) hcall
          hphase).move h.holds _

theorem run (h : SinceQuiet n p) (schedule : Interleaved) :
    SinceQuiet n (writerThreads.run schedule p) := by
  induction schedule generalizing p with
  | nil => exact h
  | cons move schedule ih =>
    apply ih
    cases move with
    | spawn call => exact h.spawn call
    | step i answer => exact h.step i answer

end SinceQuiet

/-- If no call is being made when the flag is clear, as after a tick that nobody else ran into, then
by the time a later tick returns `Ok` a call made since has written its whole packet. -/
theorem written_between_ticks (before after : Interleaved) (sentFlag : Bool)
    (quiet : ∀ t ∈ (writerThreads.run before (newPool sentFlag)).threads, t.phase.isReturned)
    (clear : (writerThreads.run before (newPool sentFlag)).shared.sentFlag = false) :
    let p := writerThreads.run before (newPool sentFlag)
    let p' := writerThreads.run after p
    ∀ i t, p.threads.length ≤ i → p'.threads[i]? = some t → t.call = .writer .handlePing →
      t.phase = .returned (.ok ()) → ∃ k u, p.threads.length ≤ k ∧ p'.threads[k]? = some u ∧
        p.shared.of k = [] ∧ p'.shared.of k = u.call.offers.wire := by
  intro p p' i t hi ht hcall hphase
  have hstart : SinceQuiet p.threads.length p := by
    refine ⟨holds_run before sentFlag, le_rfl, fun j u _ hu => quiet u (List.mem_of_getElem? hu),
      fun hflag => ?_, fun j u hj hu => ?_⟩
    · rw [clear] at hflag
      cases hflag
    · have := (List.getElem?_eq_some_iff.1 hu).1
      omega
  obtain ⟨k, u, hk, hu, hout, n, hn⟩ := (hstart.run after).ticked i t hi ht hcall hphase
  refine ⟨k, u, hk, hu, hstart.holds.fresh k hk, ?_⟩
  rw [hout, (ClientPacket.writeSync_eq_ok hn).1]

end

/-- A tick that writes a PINGREQ and one that does not return before another has. -/
theorem written_between_ticks_two :
    letI := Target.debug
    letI tick := ClientCall.writer .handlePing
    letI steps (i : ℕ) : Interleaved := .spawn tick :: List.replicate 8 (.step i (.ok 1))
    let p := writerThreads.run (steps 0) (newPool false)
    let p' := writerThreads.run (steps 1) p
    ∃ k u, p.threads.length ≤ k ∧ p'.threads[k]? = some u ∧ p.shared.of k = [] ∧
      p'.shared.of k = u.call.offers.wire := by
  let := Target.debug
  exact @written_between_ticks Target.debug
    (.spawn (.writer .handlePing) :: List.replicate 8 (.step 0 (.ok 1)))
    (.spawn (.writer .handlePing) :: List.replicate 8 (.step 1 (.ok 1))) false
    (by decide +kernel) (by decide +kernel) 1 _ (by decide +kernel) rfl rfl rfl

end Mcutt
