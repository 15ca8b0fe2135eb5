import Mcutt.Slab.LostSlots

/-!
# Indexes are given out once

The closures of a run are called with the indexes 0, 1, 2 and so on up to the limit, whatever is
removed in between.  An index that was given out and at which nothing is stored, be it that the
value was removed or that the closure failed, is dead: no later call stores there, and every later
call that names it is rejected (`indexes_given_once`).
-/

namespace Mcutt

namespace Slab

variable {T O E : Type}

/-- The index that the caller names. -/
def Op.names : Op T O E → Option UInt16
  | insert _ => none
  | tryInsert _ => none
  | remove idx => some idx
  | get idx => some idx
  | getMut idx _ => some idx

/-- The index was given out and nothing is stored there. -/
def Dead (s : Slab T) (idx : UInt16) : Prop := idx.toNat < s.store.length ∧ s.get idx = none

theorem dead_iff {s : Slab T} {idx : UInt16} : s.Dead idx ↔ s.flags[idx.toNat]? = some true := by
  rw [Dead, get, flags, List.getElem?_map]
  by_cases hlt : idx.toNat < s.store.length
  · rw [List.getElem?_eq_getElem hlt]
    cases s.store[idx.toNat] <;> simp [hlt, Entry.isFree, Entry.asOccupied]
  · rw [List.getElem?_eq_none (not_lt.1 hlt)]
    simp [hlt]

/-- No call takes a free entry. -/
theorem flagsAfter_free {maxItems : UInt16} {flags : List Bool} {i : ℕ}
    (h : flags[i]? = some true) (op : Op T O E) :
    (flagsAfter maxItems flags op)[i]? = some true := by
  have hlt : i < flags.length := (List.getElem?_eq_some_iff.1 h).1
  cases op with
  | insert f =>
    rw [flagsAfter]
    split_ifs
    · rw [List.getElem?_append_left hlt, h]
    · exact h
  | tryInsert f =>
    rw [flagsAfter]
    split_ifs
    · rw [List.getElem?_append_left hlt, h]
    · exact h
  | remove idx =>
    by_cases hidx : idx.toNat = i
    · subst hidx
      exact List.getElem?_set_self hlt
    · exact (List.getElem?_set_ne hidx).trans h
  | get idx => exact h
  | getMut idx update => exact h

section

variable [Target] {s s' : Slab T} {op : Op T O E} {c : Called T O E}

/-- An insertion calls its closure with the number of entries, as long as there is room. -/
theorem arg_of_call (inv : Inv s) (h : call s op = .ok (c, s')) :
    c.arg = if op.reserves = true ∧ s.store.length < s.maxItems.toNat then
      some (UInt16.ofNat s.store.length) else none := by
  have harg := closureArg_eq inv
  cases op with
  | insert f =>
    rw [call, harg, ok_bind] at h
    obtain ⟨⟨out, s₁⟩, -, h⟩ := bind_eq_ok.1 h
    cases h
    simp [Op.reserves]
  | tryInsert f =>
    rw [call, harg, ok_bind] at h
    obtain ⟨⟨out, s₁⟩, -, h⟩ := bind_eq_ok.1 h
    cases h
    simp [Op.reserves]
  | remove idx | get idx | getMut idx update =>
    cases h
    simp [Op.reserves]

theorem flags_of_call (inv : Inv s) (h : call s op = .ok (c, s')) :
    s'.flags = flagsAfter s.maxItems s.flags op := by
  obtain ⟨s₁, hstep, -, -, hflags⟩ := step_spec inv op
  rw [step_eq, h, ok_bind] at hstep
  cases hstep
  exact hflags

theorem length_of_call (inv : Inv s) (h : call s op = .ok (c, s')) :
    s'.store.length = s.store.length +
      if op.reserves = true ∧ s.store.length < s.maxItems.toNat then 1 else 0 := by
  rw [← length_flags s', flags_of_call inv h]
  cases op with
  | insert f | tryInsert f =>
    simp only [flagsAfter, length_flags, Op.reserves, true_and]
    split_ifs <;> simp [length_flags]
  | remove idx | get idx | getMut idx update =>
    simp [flagsAfter, length_flags, Op.reserves]

/-- A dead index stays dead. -/
theorem Dead.of_call {idx : UInt16} (inv : Inv s) (h : call s op = .ok (c, s'))
    (dead : s.Dead idx) : s'.Dead idx := by
  rw [dead_iff] at dead ⊢
  rw [flags_of_call inv h]
  exact flagsAfter_free dead op

/-- A call that names an index at which nothing is stored is rejected. -/
theorem CallSpec.rejected {idx : UInt16} (spec : CallSpec s op c s') (hnone : s.get idx = none)
    (hnames : c.op.names = some idx) : c.reply.verdict = .rejected := by
  have hreply := spec.reply_eq
  rw [spec.op_eq] at hnames
  cases op with
  | insert f | tryInsert f => cases hnames
  | remove i | get i | getMut i update =>
    obtain rfl : i = idx := Option.some.inj hnames
    rw [hreply, replyOf, hnone]
    rfl

/-- The indexes that a run gives out, and what it does at a dead one. -/
theorem calls_indexes (inv : Inv s) (ops : List (Op T O E)) :
    ∃ log s', calls ops s = .ok (log, s') ∧ Inv s' ∧ s'.maxItems = s.maxItems ∧
      s'.store.length = s.store.length + min (reservations ops) s.room ∧
      log.filterMap Called.arg =
        (List.range' s.store.length (min (reservations ops) s.room)).map UInt16.ofNat ∧
      ∀ idx, s.Dead idx → s'.Dead idx ∧
        ∀ c ∈ log, c.op.names = some idx → c.reply.verdict = .rejected := by
  induction ops generalizing s with
  | nil =>
    exact ⟨[], s, rfl, inv, rfl, by simp [reservations], by simp [reservations],
      fun idx dead => ⟨dead, by simp⟩⟩
  | cons op ops ih =>
    obtain ⟨c, s₁, hcall, inv₁, hmax₁, spec⟩ := call_spec inv op
    obtain ⟨log, s₂, hcalls, inv₂, hmax₂, hlen₂, hargs, hdead⟩ := ih inv₁
    have harg := arg_of_call inv hcall
    have hlen₁ := length_of_call inv hcall
    have hgives : min (reservations (op :: ops)) s.room =
        min (reservations ops) s₁.room +
          if op.reserves = true ∧ s.store.length < s.maxItems.toNat then 1 else 0 := by
      have hcount : reservations (op :: ops) =
          reservations ops + if op.reserves = true then 1 else 0 := List.countP_cons
      rw [hcount, room, room, hmax₁, hlen₁]
      by_cases hreserves : op.reserves = true
      · simp only [hreserves, true_and, if_true]
        split_ifs <;> omega
      · simp only [hreserves, false_and, if_false, Bool.false_eq_true, Nat.add_zero]
    refine ⟨c :: log, s₂, ?_, inv₂, hmax₂.trans hmax₁, ?_, ?_, fun idx dead => ?_⟩
    · simp only [calls, hcall, ok_bind, hcalls]
    · omega
    · rw [hgives]
      split_ifs at harg hlen₁ ⊢
      · rw [List.filterMap_cons_some harg, hargs, hlen₁, List.range'_succ, List.map_cons]
      · rw [List.filterMap_cons_none harg, hargs, hlen₁]
        rfl
    · obtain ⟨hafter, hrejected⟩ := hdead idx (dead.of_call inv hcall)
      refine ⟨hafter, List.forall_mem_cons.2 ⟨spec.rejected dead.2, hrejected⟩⟩

/-- The closures of a run are called with 0, 1, 2 and so on up to the limit.  From an index that is
given out and at which nothing is stored nothing is ever read again, whatever is inserted. -/
theorem indexes_given_once (maxItems : UInt16) (before after : List (Op T O E)) :
    ∃ log s log' s', calls before (new maxItems) = .ok (log, s) ∧
      calls after s = .ok (log', s') ∧
      (log ++ log').filterMap Called.arg =
        (List.range (min (reservations (before ++ after)) maxItems.toNat)).map UInt16.ofNat ∧
      ∀ idx ∈ log.filterMap Called.arg, s.get idx = none → s'.get idx = none ∧
        ∀ c ∈ log', c.op.names = some idx → c.reply.verdict = .rejected := by
  obtain ⟨log, s, hcalls, inv, hmax, hlen, hargs, -⟩ := calls_indexes (inv_new maxItems) before
  obtain ⟨log', s', hcalls', -, -, -, hargs', hdead⟩ := calls_indexes inv after
  have hroom : room (new maxItems : Slab T) = maxItems.toNat := rfl
  have hnew : (new maxItems : Slab T).store.length = 0 := rfl
  rw [hroom, hnew, Nat.zero_add] at hlen
  rw [hroom, hnew] at hargs
  refine ⟨log, s, log', s', hcalls, hcalls', ?_, fun idx hidx hnone => ?_⟩
  · have hcount : reservations (before ++ after) = reservations before + reservations after :=
      List.countP_append
    have hleft : s.room = maxItems.toNat - min (reservations before) maxItems.toNat := by
      rw [room, hmax, hlen]
      rfl
    have hrange := @List.range'_append_1 0 (min (reservations before) maxItems.toNat)
      (min (reservations after) s.room)
    rw [Nat.zero_add] at hrange
    rw [List.filterMap_append, hargs, hargs', hlen, ← List.map_append, hrange, hcount, hleft,
      List.range_eq_range']
    congr 2
    omega
  · have hgiven : idx.toNat < s.store.length := by
      rw [hargs, List.mem_map] at hidx
      obtain ⟨n, hn, rfl⟩ := hidx
      rw [List.mem_range'_1] at hn
      have := maxItems.toNat_lt
      rw [UInt16.toNat_ofNat']
      omega
    obtain ⟨hafter, hrejected⟩ := hdead idx ⟨hgiven, hnone⟩
    exact ⟨hafter.2, hrejected⟩

end

end Slab

end Mcutt
