import Mcutt.Slab.Contents

/-!
# Slots lost to a failing closure

`try_insert` pushes the entry before it runs the closure, and a closure that returns `Err` leaves
the free entry behind, which nothing reuses.  No `get` shows it; what shows it is a later insertion
that is rejected (`failed_tryInsert_unnoticed_iff`).
-/

namespace Mcutt

namespace Slab

variable {T O E : Type}

/-! ## Observations -/

/-- Whether a call was accepted; `failed` is the `Err` of a closure. -/
inductive Verdict where
  | accepted
  | rejected
  | failed
  deriving DecidableEq, Repr

def verdictOf {α : Type} : Option α → Verdict
  | some _ => .accepted
  | none => .rejected

def Reply.verdict : Reply T O E → Verdict
  | .insert out => verdictOf out
  | .tryInsert (.ok out) => verdictOf out
  | .tryInsert (.error _) => .failed
  | .remove value => verdictOf value
  | .get value => verdictOf value
  | .getMut value => verdictOf value

def Op.isGetMut : Op T O E → Bool
  | .getMut _ _ => true
  | _ => false

section

variable [Target]

/-- Which calls of a run are accepted. -/
def verdicts (ops : List (Op T O E)) (s : Slab T) : Exec (List Verdict) := do
  let (log, _) ← calls ops s
  .ok (log.map fun c => c.reply.verdict)

/-- No `get` and no continuation tells the slabs apart. -/
def Indistinguishable (O E : Type) (s s' : Slab T) : Prop :=
  (∀ idx, s.get idx = s'.get idx) ∧
    ∀ ops : List (Op T O E), (∀ op ∈ ops, op.isGetMut = false) → verdicts ops s = verdicts ops s'

variable {s : Slab T}

/-! ## Filling a slab -/

/-- How many entries can still be reserved. -/
def room (s : Slab T) : ℕ := s.maxItems.toNat - s.store.length

theorem verdicts_cons (op : Op T O E) (ops : List (Op T O E)) {c : Called T O E} {s' : Slab T}
    (h : call s op = .ok (c, s')) :
    verdicts (op :: ops) s = verdicts ops s' >>= fun vs => .ok (c.reply.verdict :: vs) := by
  simp only [verdicts, calls, h, ok_bind, bind_assoc, List.map_cons]

/-- As many insertions are accepted as entries can be reserved. -/
theorem verdicts_inserts (inv : Inv s) (f : UInt16 → T × O) (k : ℕ) :
    verdicts (List.replicate k (.insert f : Op T O E)) s =
      .ok (List.replicate (min k s.room) .accepted ++ List.replicate (k - s.room) .rejected) := by
  induction k generalizing s with
  | zero => simp [verdicts, calls]
  | succ k ih =>
    rw [List.replicate_succ]
    by_cases hroom : s.store.length < s.maxItems.toNat
    · have inv' : Inv { s with store := s.store ++
          [Entry.occupied (f (UInt16.ofNat s.store.length)).1] } := by
        refine ⟨inv.nextFree_eq, ?_⟩
        rw [List.length_append, List.length_singleton]
        exact hroom
      have hnext : room { s with store := s.store ++
          [Entry.occupied (f (UInt16.ofNat s.store.length)).1] } = s.room - 1 := by
        simp only [room, List.length_append, List.length_singleton]
        omega
      have hmin : min (k + 1) s.room = min k (s.room - 1) + 1 := by
        unfold room
        omega
      have hsub : k + 1 - s.room = k - (s.room - 1) := by
        unfold room
        omega
      rw [verdicts_cons _ _ (call_insert_of_room inv hroom f), ih inv', ok_bind, hnext, hmin, hsub,
        List.replicate_succ]
      rfl
    · have hzero : s.room = 0 := by
        unfold room
        omega
      rw [verdicts_cons _ _ (call_insert_of_full inv hroom f), ih inv, ok_bind, hzero]
      simp [List.replicate_succ, Reply.verdict, verdictOf]

/-! ## A failing closure -/

/-- One more entry in the store shows as soon as the slab is full. -/
theorem verdicts_ne_of_room_lt {s' : Slab T} (inv : Inv s) (inv' : Inv s')
    (hlt : s'.room < s.room) (f : UInt16 → T × O) :
    verdicts (List.replicate s.room (.insert f : Op T O E)) s ≠
      verdicts (List.replicate s.room (.insert f : Op T O E)) s' := by
  have hs := verdicts_inserts (E := E) inv f s.room
  have hs' := verdicts_inserts (E := E) inv' f s.room
  intro heq
  rw [hs, hs', Nat.sub_self, List.replicate_zero, List.append_nil, min_self] at heq
  have hmem : Verdict.rejected ∈ List.replicate (min s.room s'.room) Verdict.accepted ++
      List.replicate (s.room - s'.room) Verdict.rejected :=
    List.mem_append_right _ (List.mem_replicate.2 ⟨by omega, rfl⟩)
  rw [← Except.ok.inj heq] at hmem
  cases List.eq_of_mem_replicate hmem

/-- A `try_insert` whose closure fails goes unnoticed if and only if the closure is not called, the
slab having reserved all its entries before. -/
theorem failed_tryInsert_unnoticed_iff [Inhabited T] [Inhabited O] (maxItems : UInt16)
    (ops : List (Op T O E)) :
    ∃ s, run ops (new maxItems) = .ok s ∧ ∀ f : UInt16 → Except E (T × O),
      (∀ idx, s.closureArg = .ok (some idx) → ∃ e, f idx = .error e) →
      ∃ r s', s.tryInsert f = .ok (r, s') ∧
        (Indistinguishable O E s s' ↔ maxItems.toNat ≤ reservations ops) := by
  obtain ⟨s, hrun, inv, hmax, hflags⟩ := run_spec maxItems ops
  have hlen : s.store.length = min (reservations ops) maxItems.toNat := by
    rw [← length_flags, hflags, length_flagsAfter]
  refine ⟨s, hrun, fun f hf => ?_⟩
  have htry := tryInsert_eq inv f
  by_cases hroom : s.store.length < s.maxItems.toNat
  · rw [if_pos hroom] at htry
    obtain ⟨e, he⟩ := hf (UInt16.ofNat s.store.length) (by rw [closureArg_eq inv, if_pos hroom])
    rw [he] at htry
    refine ⟨_, _, htry, iff_of_false ?_ (by rw [hmax] at hroom; omega)⟩
    rintro ⟨-, hverdicts⟩
    have inv' : Inv { s with store := s.store ++ [Entry.free none] } := by
      refine ⟨inv.nextFree_eq, ?_⟩
      rw [List.length_append, List.length_singleton]
      exact hroom
    have hlt : room { s with store := s.store ++ [Entry.free none] } < s.room := by
      simp only [room, List.length_append, List.length_singleton]
      omega
    refine verdicts_ne_of_room_lt inv inv' hlt (fun _ => (default, default)) (hverdicts _ ?_)
    intro op hop
    rw [List.eq_of_mem_replicate hop]
    rfl
  · rw [if_neg hroom] at htry
    refine ⟨_, _, htry, iff_of_true ⟨fun _ => rfl, fun _ _ => rfl⟩ ?_⟩
    rw [hmax] at hroom
    omega

end

theorem failed_tryInsert_unnoticed_iff_two :
    letI := Target.debug
    let ops : List (Op ℕ Unit String) := [.insert fun _ => (5, ())]
    let f : UInt16 → Except String (ℕ × Unit) := fun _ => .error "no"
    ∃ s, run ops (new 2) = .ok s ∧ ∃ r s', s.tryInsert f = .ok (r, s') ∧
      (Indistinguishable Unit String s s' ↔ (2 : UInt16).toNat ≤ reservations ops) := by
  obtain ⟨s, hrun, h⟩ := @failed_tryInsert_unnoticed_iff ℕ Unit String Target.debug _ _ 2
    [.insert fun _ => (5, ())]
  exact ⟨s, hrun, h _ fun _ _ => ⟨_, rfl⟩⟩

/-- A slab for one value is full after one failed insertion. -/
theorem failed_tryInsert_fills :
    letI := Target.debug
    let f : UInt16 → Except String (ℕ × Unit) := fun _ => .error "no"
    ∃ s r s', run ([] : List (Op ℕ Unit String)) (new 1) = .ok s ∧
      s.tryInsert f = .ok (r, s') ∧
      ¬ Indistinguishable Unit String s s' := by
  let := Target.debug
  refine ⟨new 1, .error "no", ⟨1, none, [.free none]⟩, rfl, rfl, ?_⟩
  rintro ⟨-, hverdicts⟩
  have h := hverdicts [.insert fun _ => (5, ())] (by simp [Op.isGetMut])
  exact absurd h (by decide)

end Slab

end Mcutt
