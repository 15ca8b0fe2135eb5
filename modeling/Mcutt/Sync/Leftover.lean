import Mcutt.Sync.Rounds

/-!
# What is left when a header is looked for

`next_frame` asserts that fewer than `MIN` bytes are left in the buffer.  Behind a frame that was
found there are fewer, and a search that the inner reader ends has fewer; but a header whose
remaining length does not end stays in the buffer, all `MIN` bytes of it, and the next round finds
them there.  In a run of rounds the assertion holds exactly until such a header has been in sight
(`Reader.drained_iff`).
-/

namespace Mcutt

open Machine

/-- A type byte and four bytes of remaining length that all ask for one more. -/
def Overlong (bytes : List UInt8) : Prop :=
  4 ≤ (bytes.tail.takeWhile RemainingLength.hasContinueFlag).length

section

variable [Target]

theorem overlong_iff {bytes : List UInt8} :
    Overlong bytes ↔ ∃ e, FixedHeader.nextFrame bytes = .error e := by
  simp only [Overlong, RemainingLength.hasContinueFlag_eq_more, FixedHeader.nextFrame_eq_error]
  cases bytes with
  | nil => simp
  | cons t l => simp

/-- The assertion of `next_frame`, after `consume`. -/
def Reader.Drained {R : Type} (r : Reader R) : Prop :=
  (final (consume r)).filled - (final (consume r)).pos < MIN

/-- What is left after `consume`, and what the inner reader delivers before it fails or returns
nothing. -/
def Reader.inSight (r : Reader Input) : List UInt8 :=
  (final (consume r)).pending ++ Schedule.lead (fun _ => false) (final (consume r)).inner

/-! ## One round -/

namespace View

omit [Target] in
/-- What a search sees does not depend on how far it has got. -/
structure Seen (bytes : List UInt8) (v : View Input) : Prop where
  frame : v.frame = none
  length_le : v.pending.length ≤ Reader.MIN
  sight : v.pending ++ Schedule.lead (fun _ => false) v.inner = bytes

omit [Target] in
theorem Seen.fillHead {bytes : List UInt8} {v v' : View Input} (h : Seen bytes v)
    (hlen : v.pending.length < Reader.MIN) (hfill : View.fillHead v = .ok ⟨⟩ v') :
    Seen bytes v' := by
  obtain ⟨bytes', hne, hread, heq⟩ := fillHead_eq_ok hfill
  have hle := Read.read_length _ _ _ _ hread
  have hsight := h.sight
  rw [Schedule.lead_read hne hread, ← List.append_assoc] at hsight
  rw [heq]
  refine ⟨h.frame, ?_, hsight⟩
  simp only [List.length_append]
  omega

omit [Target] in
/-- A search that the inner reader ends has seen everything. -/
theorem Seen.stopped {bytes : List UInt8} {v v' : View Input} {e : Fault} (h : Seen bytes v)
    (hlen : v.pending.length < Reader.MIN) (hfill : View.fillHead v = .error e v') :
    v.pending = bytes := by
  obtain ⟨answer, hread, hanswer, -⟩ := fillHead_eq_error hfill
  have hpos : 0 < Reader.MIN - v.pending.length := Nat.sub_pos_of_lt hlen
  have hlead : Schedule.lead (fun _ => false) v.inner = [] :=
    Schedule.lead_eq_nil_of_read hpos hread
      (hanswer.imp_right fun ⟨kind, hkind⟩ => ⟨kind, hkind, rfl⟩)
  have hsight := h.sight
  rwa [hlead, List.append_nil] at hsight

/-- The bytes that are left when a header is looked for. -/
def leftover {R : Type} (v : View R) : List UInt8 := (final (consume v)).pending

omit [Target] in
theorem leftover_of_none {R : Type} {v : View R} (hf : v.frame = none) :
    v.leftover = v.pending := by
  obtain ⟨capacity, pending, frame, inner⟩ := v
  obtain rfl : frame = none := hf
  rfl

theorem Inv.leftover_lt {v : View Input} (inv : Inv v) {n : ℕ} (hf : v.frame = some n) :
    v.leftover.length < Reader.MIN := by
  have hlt := inv.length_drop_lt hf
  obtain ⟨capacity, pending, frame, inner⟩ := v
  obtain rfl : frame = some n := hf
  exact hlt

/-- From a state with less than a window in front, `read` leaves a full window exactly if it saw
a header that is too long. -/
theorem read_leftover_iff {v : View Input} (inv : Inv v) (hf : v.frame = none)
    (hlen : v.pending.length < Reader.MIN) :
    (final (read v)).leftover.length < Reader.MIN ↔
      ¬ Overlong (v.pending ++ Schedule.lead (fun _ => false) v.inner) := by
  have hread : read v = (nextFrameLoop (Reader.MIN + 1) >>= readFrame) v := by
    simp only [read, bind_apply, currentFrame_of_short hf hlen]
  have hinv := inv.read
  obtain ⟨v₀, seen, hend⟩ := nextFrameLoop_sought (fun _ _ h => Seen.fillHead h)
    (⟨hf, hlen.le, rfl⟩ : Seen (v.pending ++ Schedule.lead (fun _ => false) v.inner) v)
    (Nat.le_add_left Reader.MIN v.pending.length)
  rw [overlong_iff]
  rw [hread, bind_apply] at hinv ⊢
  generalize nextFrameLoop (Reader.MIN + 1) v = r at hend hinv ⊢
  cases hend with
  | @found n announced =>
    have hframe : (final (readFrame n { v₀ with frame := some n })).frame = some n :=
      readFrame_frame n _
    refine iff_of_true (hinv.leftover_lt hframe) ?_
    rintro ⟨e, he⟩
    rw [← seen.sight, FixedHeader.nextFrame_append announced] at he
    cases he
  | malformed error =>
    obtain ⟨-, t, l, hpending, hl⟩ := FixedHeader.nextFrame_eq_error.1 error
    have hle : (l.takeWhile Varint.more).length ≤ l.length := (List.takeWhile_sublist _).length_le
    apply iff_of_false
    · rw [final_error, leftover_of_none seen.frame, hpending, List.length_cons, Reader.MIN,
        RemainingLength.maxBytes]
      omega
    · rw [not_not, ← seen.sight]
      exact ⟨_, FixedHeader.nextFrame_error_append error _⟩
  | @stopped e v' short fill =>
    have hlt : v₀.pending.length < Reader.MIN := FixedHeader.length_lt_of_nextFrame_none short
    have hsight := seen.stopped hlt fill
    obtain ⟨-, -, -, heq⟩ := fillHead_eq_error fill
    refine iff_of_true ?_ ?_
    · have hframe : ({ v₀ with inner := v'.inner } : View Input).frame = none := seen.frame
      rw [final_error, heq, leftover_of_none hframe]
      exact hlt
    · rintro ⟨e, he⟩
      rw [← hsight, short] at he
      cases he

theorem round_eq {R : Type} [Read R] (v : View R) : round v = read (final (consume v)) := by
  obtain ⟨capacity, pending, frame, inner⟩ := v
  cases frame <;> rfl

theorem Inv.round {v : View Input} (inv : Inv v) : Inv (final (round v)) := by
  rw [round_eq]
  exact inv.consume.read

end View

/-! ## Runs -/

theorem Reader.Valid.drained_iff_leftover {R : Type} {r : Reader R} (valid : r.Valid) :
    r.Drained ↔ r.view.leftover.length < MIN := by
  obtain ⟨valid', hview⟩ := valid.consume
  have hpending : r.view.leftover = (final (Reader.consume r)).pending :=
    (congrArg View.pending hview).symm
  rw [hpending, valid'.length_pending, Drained]

theorem Reader.Valid.inSight_eq {r : Reader Input} (valid : r.Valid) :
    r.inSight = r.view.leftover ++
      Schedule.lead (fun _ => false) (final (View.consume r.view)).inner := by
  rw [inSight, View.leftover, ← valid.consume.2]
  rfl

/-- A round on a drained reader drains it again unless a header that is too long is in sight. -/
theorem Reader.Valid.round_drained_iff {r : Reader Input} (valid : r.Valid) (inv : r.view.Inv)
    (hd : r.Drained) : (final (round r)).Drained ↔ ¬ Overlong r.inSight := by
  obtain ⟨-, valid', hview⟩ := (round_simulates r r.view ⟨valid, rfl⟩).outcome_eq
  rw [valid'.drained_iff_leftover, hview, View.round_eq, valid.inSight_eq]
  exact View.read_leftover_iff inv.consume (View.consume_frame _) (valid.drained_iff_leftover.1 hd)

/-- In a run of rounds less than a window is left before every search for a header exactly if no
round but the last has a header in sight that is too long. -/
theorem Reader.drained_iff {inner : Input} {capacity : ℕ} {r : Reader Input}
    (hr : withCapacity inner capacity = some r) (n : ℕ) :
    (∀ c ∈ log isPanic (fun _ => round) (List.replicate n ()) r, c.before.Drained) ↔
      ∀ c ∈ (log isPanic (fun _ => round) (List.replicate n ()) r).dropLast,
        ¬ Overlong c.before.inSight := by
  obtain ⟨valid, hview⟩ := shows_withCapacity hr
  have keep (s : Reader Input) (hs : s.Valid ∧ s.view.Inv) :
      (final (round s)).Valid ∧ (final (round s)).view.Inv := by
    obtain ⟨-, valid', hview'⟩ := (round_simulates s s.view ⟨hs.1, rfl⟩).outcome_eq
    exact ⟨valid', hview' ▸ hs.2.round⟩
  have hnew : r.Drained := by
    rw [valid.drained_iff_leftover, hview]
    exact Nat.succ_pos _
  exact before_of_log_iff (I := fun s : Reader Input => s.Valid ∧ s.view.Inv)
    (fun _ s hs => keep s hs) (fun _ s hs hd => hs.1.round_drained_iff hs.2 hd)
    ⟨valid, hview ▸ View.inv_new capacity inner⟩ hnew

omit [Target] in
theorem Reader.drained_iff_pings :
    letI := Target.debug
    letI stream : Input := [.chunk [0xD0, 0], .fail .wouldBlock, .chunk [0xD0, 0]]
    letI r : Reader Input := ⟨[0, 0, 0, 0, 0], 0, none, 0, stream⟩
    (∀ c ∈ log isPanic (fun _ => round) [(), (), ()] r, c.before.Drained) ↔
      ∀ c ∈ (log isPanic (fun _ => round) [(), (), ()] r).dropLast, ¬ Overlong c.before.inSight :=
  @drained_iff Target.debug [.chunk [0xD0, 0], .fail .wouldBlock, .chunk [0xD0, 0]] 5 _ rfl 3

omit [Target] in
/-- The header of a PUBLISH whose remaining length does not end, one round and then another. -/
theorem Reader.overlong_header_stays :
    letI := Target.debug
    letI stream : Input := [.chunk [0x30, 0x80, 0x80, 0x80, 0x80]]
    letI r : Reader Input := ⟨[0, 0, 0, 0, 0], 0, none, 0, stream⟩
    withCapacity stream 5 = some r ∧
    (log isPanic (fun _ => round) [(), ()] r).map Call.result =
      [fail .invalid "remaining length continuation flags require more than 4 bytes",
        .error (.panicked "(self.filled - self.pos) < Self::MIN")] ∧
    ¬ ∀ c ∈ log isPanic (fun _ => round) [(), ()] r, c.before.Drained := by
  let := Target.debug
  refine ⟨rfl, by decide, fun h => ?_⟩
  have := h _ (List.mem_cons_of_mem _ List.mem_cons_self)
  revert this
  unfold Drained
  decide

end

end Mcutt
