import Mcutt.Lib.History
import Mcutt.Slab

/-!
# The slab as a map

What the calls on a slab return, and with which index a closure is called, make a history of the
values stored.  The slab is the map of that history: `get` is `History.lastStored` after any run
(`refines_map`).  The index given to a closure is chosen by the slab; all that the map knows of it
is that it is free (`CallSpec.fresh`).
-/

namespace Mcutt

namespace Slab

open History

variable {T O E : Type}

/-! ## Calls with their replies -/

/-- What a call returns. -/
inductive Reply (T O E : Type) where
  | insert (out : Option O)
  | tryInsert (out : Except E (Option O))
  | remove (value : Option T)
  | get (value : Option T)
  | getMut (value : Option T)

/-- A call, the index its closure was called with, and what it returned. -/
structure Called (T O E : Type) where
  op : Op T O E
  arg : Option UInt16
  reply : Reply T O E

section

variable [Target]

/-- The index the closure of an insertion is called with, if it is called. -/
def closureArg (self : Slab T) : Exec (Option UInt16) := do
  let (reserved, _) ← self.reserveNext
  .ok reserved

def call (s : Slab T) (op : Op T O E) : Exec (Called T O E × Slab T) :=
  match op with
  | .insert f => do
    let arg ← s.closureArg
    let (out, s) ← s.insert f
    .ok (⟨op, arg, .insert out⟩, s)
  | .tryInsert f => do
    let arg ← s.closureArg
    let (out, s) ← s.tryInsert f
    .ok (⟨op, arg, .tryInsert out⟩, s)
  | .remove idx =>
    let (value, s) := s.remove idx
    .ok (⟨op, none, .remove value⟩, s)
  | .get idx => .ok (⟨op, none, .get (s.get idx)⟩, s)
  | .getMut idx update =>
    let (value, s) := s.getMut idx update
    .ok (⟨op, none, .getMut value⟩, s)

/-- The calls of a run, in order. -/
def calls : List (Op T O E) → Slab T → Exec (List (Called T O E) × Slab T)
  | [], s => .ok ([], s)
  | op :: ops, s => do
    let (c, s) ← call s op
    let (cs, s) ← calls ops s
    .ok (c :: cs, s)

end

/-! ## The map -/

/-- What a call does to the map. -/
def Called.events (c : Called T O E) : List (Event UInt16 T) :=
  match c.op with
  | .insert f => c.arg.toList.map fun idx => .stored idx (f idx).1
  | .tryInsert f => c.arg.toList.flatMap fun idx =>
    match f idx with
    | .ok (value, _) => [.stored idx value]
    | .error _ => []
  | .remove idx => [.erased idx]
  | .get _ => []
  | .getMut idx update =>
    match c.reply with
    | .getMut (some value) => [.stored idx (update value)]
    | _ => []

/-- What a call on the map `m` returns if its closure is called with the index `arg`. -/
def replyOf (m : UInt16 → Option T) (arg : Option UInt16) : Op T O E → Reply T O E
  | .insert f => .insert (arg.map fun idx => (f idx).2)
  | .tryInsert f => .tryInsert
    (match arg with
    | none => .ok none
    | some idx => (f idx).map fun r => some r.2)
  | .remove idx => .remove (m idx)
  | .get idx => .get (m idx)
  | .getMut idx _ => .getMut (m idx)

/-- A call as the map sees it. -/
structure CallSpec [Target] (s : Slab T) (op : Op T O E) (c : Called T O E) (s' : Slab T) :
    Prop where
  op_eq : c.op = op
  /-- The closure is given an index within the limit at which nothing is stored. -/
  fresh : ∀ idx, c.arg = some idx → idx < s.maxItems ∧ s.get idx = none
  /-- The entry that was reserved is there and free. -/
  reserved : ∀ idx r, s.reserveNext = .ok (some idx, r) →
    ∃ nextFree, r.store[idx.toNat]? = some (.free nextFree)
  /-- An insertion returns what its closure returned, if it was called. -/
  reply_eq : c.reply = replyOf s.get c.arg op
  /-- Only the index of the call changes. -/
  get_eq : s'.get = applyAll s.get c.events
  /-- Removing what is not there changes nothing. -/
  remove_free : ∀ idx, op = .remove idx → s.get idx = none → s' = s

/-! ## `get` after an update -/

theorem get_eq_none {s : Slab T} {idx : UInt16} (h : s.store.length ≤ idx.toNat) :
    s.get idx = none := by
  rw [get, List.getElem?_eq_none h]
  rfl

/-- A new entry at the end of the store. -/
theorem get_append {s : Slab T} {n : UInt16} (hn : n.toNat = s.store.length) (e : Entry T) :
    get { s with store := s.store ++ [e] } = Function.update s.get n e.asOccupied := by
  funext idx
  by_cases h : idx = n
  · subst h
    rw [Function.update_self]
    simp [get, hn]
  · rw [Function.update_of_ne h]
    have hne : idx.toNat ≠ s.store.length := by
      intro heq
      exact h (UInt16.toNat_inj.1 (heq.trans hn.symm))
    by_cases hlt : idx.toNat < s.store.length
    · simp only [get, List.getElem?_append_left hlt]
    · have hle : (s.store ++ [e]).length ≤ idx.toNat := by
        rw [List.length_append, List.length_singleton]
        omega
      exact (get_eq_none hle).trans (get_eq_none (by omega)).symm

theorem get_set {s : Slab T} {idx : UInt16} (h : idx.toNat < s.store.length) (e : Entry T) :
    get { s with store := s.store.set idx.toNat e } = Function.update s.get idx e.asOccupied := by
  funext i
  by_cases hi : i = idx
  · subst hi
    rw [Function.update_self]
    simp [get, h]
  · rw [Function.update_of_ne hi]
    have hne : idx.toNat ≠ i.toNat := fun heq => hi (UInt16.toNat_inj.1 heq.symm)
    simp only [get, List.getElem?_set_ne hne]

/-! ## Every call is a call on the map -/

section

variable [Target] {s : Slab T}

theorem closureArg_eq (inv : Inv s) :
    s.closureArg = .ok (if s.store.length < s.maxItems.toNat then
      some (UInt16.ofNat s.store.length) else none) := by
  rw [closureArg, reserveNext_eq inv]
  split_ifs <;> rfl

omit [Target] in
/-- The next index is within the limit and nothing is stored there. -/
theorem next_fresh (h : s.store.length < s.maxItems.toNat) :
    UInt16.ofNat s.store.length < s.maxItems ∧ s.get (UInt16.ofNat s.store.length) = none := by
  have hn := toNat_length h
  exact ⟨UInt16.lt_iff_toNat_lt.2 (by omega), get_eq_none (by omega)⟩

theorem reserveNext_free (inv : Inv s) (idx : UInt16) (r : Slab T)
    (h : s.reserveNext = .ok (some idx, r)) :
    ∃ nextFree, r.store[idx.toNat]? = some (.free nextFree) := by
  rw [reserveNext_eq inv] at h
  split_ifs at h with hroom
  · cases h
    exact ⟨none, by simp [toNat_length hroom]⟩
  · cases h

omit [Target] in
theorem fresh_of_room (hroom : s.store.length < s.maxItems.toNat) (idx : UInt16)
    (h : some (UInt16.ofNat s.store.length) = some idx) :
    idx < s.maxItems ∧ s.get idx = none := by
  cases h
  exact next_fresh hroom

theorem call_insert_of_room (inv : Inv s) (hroom : s.store.length < s.maxItems.toNat)
    (f : UInt16 → T × O) :
    call s (.insert f : Op T O E) =
      .ok (⟨.insert f, some (UInt16.ofNat s.store.length),
        .insert (some (f (UInt16.ofNat s.store.length)).2)⟩,
        { s with store := s.store ++ [.occupied (f (UInt16.ofNat s.store.length)).1] }) := by
  have harg := closureArg_eq inv
  have hinsert := insert_eq inv f
  simp only [if_pos hroom] at harg hinsert
  rw [call, harg, ok_bind, hinsert, ok_bind]

theorem call_insert_of_full (inv : Inv s) (hfull : ¬ s.store.length < s.maxItems.toNat)
    (f : UInt16 → T × O) :
    call s (.insert f : Op T O E) = .ok (⟨.insert f, none, .insert none⟩, s) := by
  have harg := closureArg_eq inv
  have hinsert := insert_eq inv f
  simp only [if_neg hfull] at harg hinsert
  rw [call, harg, ok_bind, hinsert, ok_bind]

theorem callSpec_insert (inv : Inv s) (f : UInt16 → T × O) :
    ∃ c s', call s (.insert f : Op T O E) = .ok (c, s') ∧ CallSpec s (.insert f) c s' := by
  by_cases hroom : s.store.length < s.maxItems.toNat
  · refine ⟨_, _, call_insert_of_room inv hroom f, ?_⟩
    exact {
      op_eq := rfl
      fresh := fresh_of_room hroom
      reserved := reserveNext_free inv
      reply_eq := rfl
      get_eq := get_append (toNat_length hroom) _
      remove_free := by rintro idx ⟨⟩ }
  · refine ⟨_, _, call_insert_of_full inv hroom f, ?_⟩
    exact {
      op_eq := rfl
      fresh := by rintro idx ⟨⟩
      reserved := reserveNext_free inv
      reply_eq := rfl
      get_eq := rfl
      remove_free := by rintro idx ⟨⟩ }

theorem callSpec_tryInsert (inv : Inv s) (f : UInt16 → Except E (T × O)) :
    ∃ c s', call s (.tryInsert f) = .ok (c, s') ∧ CallSpec s (.tryInsert f) c s' := by
  have harg := closureArg_eq inv
  have hinsert := tryInsert_eq inv f
  by_cases hroom : s.store.length < s.maxItems.toNat
  · simp only [if_pos hroom] at harg hinsert
    cases hf : f (UInt16.ofNat s.store.length) with
    | error e =>
      rw [hf] at hinsert
      refine ⟨⟨.tryInsert f, some (UInt16.ofNat s.store.length), .tryInsert (.error e)⟩, _,
        by rw [call, harg, ok_bind, hinsert, ok_bind], ?_⟩
      exact {
        op_eq := rfl
        fresh := fresh_of_room hroom
        reserved := reserveNext_free inv
        reply_eq := by simp [replyOf, hf, Except.map]
        get_eq := by
          -- the entry pushed before the closure ran stays behind, and it is free
          rw [get_append (toNat_length hroom)]
          simp [Called.events, hf, Entry.asOccupied, (next_fresh hroom).2]
        remove_free := by rintro idx ⟨⟩ }
    | ok r =>
      rw [hf] at hinsert
      refine ⟨⟨.tryInsert f, some (UInt16.ofNat s.store.length), .tryInsert (.ok (some r.2))⟩, _,
        by rw [call, harg, ok_bind, hinsert, ok_bind], ?_⟩
      exact {
        op_eq := rfl
        fresh := fresh_of_room hroom
        reserved := reserveNext_free inv
        reply_eq := by simp [replyOf, hf, Except.map]
        get_eq := by
          rw [get_append (toNat_length hroom)]
          simp [Called.events, hf, applyAll_singleton, Event.key, Event.value, Entry.asOccupied]
        remove_free := by rintro idx ⟨⟩ }
  · simp only [if_neg hroom] at harg hinsert
    refine ⟨⟨.tryInsert f, none, .tryInsert (.ok none)⟩, s,
      by rw [call, harg, ok_bind, hinsert, ok_bind], ?_⟩
    exact {
      op_eq := rfl
      fresh := by rintro idx ⟨⟩
      reserved := reserveNext_free inv
      reply_eq := rfl
      get_eq := rfl
      remove_free := by rintro idx ⟨⟩ }

theorem callSpec_remove (inv : Inv s) (idx : UInt16) :
    ∃ c s', call s (.remove idx : Op T O E) = .ok (c, s') ∧ CallSpec s (.remove idx) c s' := by
  have hremove : (s.remove idx).1 = s.get idx ∧
      get (s.remove idx).2 = Function.update s.get idx none ∧
      (s.get idx = none → (s.remove idx).2 = s) := by
    have keep (h : s.get idx = none) : s.get = Function.update s.get idx none :=
      (h ▸ Function.update_eq_self idx s.get).symm
    rw [remove]
    rcases h : s.store[idx.toNat]? with _ | (nextFree | value)
    · have hget : s.get idx = none := by simp [get, h]
      exact ⟨hget.symm, keep hget, fun _ => rfl⟩
    · have hget : s.get idx = none := by simp [get, h, Entry.asOccupied]
      exact ⟨hget.symm, keep hget, fun _ => rfl⟩
    · have hget : s.get idx = some value := by simp [get, h, Entry.asOccupied]
      have hlt : idx.toNat < s.store.length := (List.getElem?_eq_some_iff.1 h).1
      exact ⟨hget.symm, get_set hlt _, fun hnone => absurd (hget.symm.trans hnone) (by simp)⟩
  obtain ⟨hreply, hget, hfree⟩ := hremove
  refine ⟨⟨.remove idx, none, .remove (s.remove idx).1⟩, (s.remove idx).2, rfl, ?_⟩
  exact {
    op_eq := rfl
    fresh := by rintro idx ⟨⟩
    reserved := reserveNext_free inv
    reply_eq := congrArg Reply.remove hreply
    get_eq := hget
    remove_free := by
      rintro i ⟨⟩ hnone
      exact hfree hnone }

theorem callSpec_getMut (inv : Inv s) (idx : UInt16) (update : T → T) :
    ∃ c s', call s (.getMut idx update : Op T O E) = .ok (c, s') ∧
      CallSpec s (.getMut idx update) c s' := by
  refine ⟨⟨.getMut idx update, none, .getMut (s.getMut idx update).1⟩, (s.getMut idx update).2,
    rfl, ?_⟩
  have hgetMut : (s.getMut idx update).1 = s.get idx ∧
      get (s.getMut idx update).2 = applyAll s.get (Called.events
        (⟨.getMut idx update, none, .getMut (s.getMut idx update).1⟩ : Called T O E)) := by
    rw [getMut]
    rcases h : s.store[idx.toNat]? with _ | (nextFree | value)
    · exact ⟨by simp [get, h], rfl⟩
    · exact ⟨by simp [get, h, Entry.asOccupied], rfl⟩
    · have hlt : idx.toNat < s.store.length := (List.getElem?_eq_some_iff.1 h).1
      exact ⟨by simp [get, h, Entry.asOccupied], get_set hlt _⟩
  exact {
    op_eq := rfl
    fresh := by rintro idx ⟨⟩
    reserved := reserveNext_free inv
    reply_eq := congrArg Reply.getMut hgetMut.1
    get_eq := hgetMut.2
    remove_free := by rintro i ⟨⟩ }

theorem callSpec_get (inv : Inv s) (idx : UInt16) :
    ∃ c s', call s (.get idx : Op T O E) = .ok (c, s') ∧ CallSpec s (.get idx) c s' := by
  refine ⟨⟨.get idx, none, .get (s.get idx)⟩, s, rfl, ?_⟩
  exact {
    op_eq := rfl
    fresh := by rintro idx ⟨⟩
    reserved := reserveNext_free inv
    reply_eq := rfl
    get_eq := rfl
    remove_free := by rintro i ⟨⟩ }

/-! ## Runs -/

/-- A step of a run is a call whose reply is dropped. -/
theorem step_eq (s : Slab T) (op : Op T O E) : step s op = call s op >>= fun r => .ok r.2 := by
  cases op with
  | insert f =>
    rw [step, call, closureArg, insert]
    cases s.reserveNext with
    | error e => rfl
    | ok r => simp only [ok_bind, bind_assoc, pure_eq_ok]
  | tryInsert f =>
    rw [step, call, closureArg, tryInsert]
    cases s.reserveNext with
    | error e => rfl
    | ok r => simp only [ok_bind, bind_assoc, pure_eq_ok]
  | remove idx => rfl
  | get idx => rfl
  | getMut idx update => rfl

/-- Every call returns, keeps the shape of the slab and is a call on the map. -/
theorem call_spec (inv : Inv s) (op : Op T O E) :
    ∃ c s', call s op = .ok (c, s') ∧ Inv s' ∧ s'.maxItems = s.maxItems ∧ CallSpec s op c s' := by
  have hspec : ∃ c s', call s op = .ok (c, s') ∧ CallSpec s op c s' := by
    cases op with
    | insert f => exact callSpec_insert inv f
    | tryInsert f => exact callSpec_tryInsert inv f
    | remove idx => exact callSpec_remove inv idx
    | get idx => exact callSpec_get inv idx
    | getMut idx update => exact callSpec_getMut inv idx update
  obtain ⟨c, s', hcall, spec⟩ := hspec
  obtain ⟨s₁, hstep, inv₁, hmax, -⟩ := step_spec inv op
  rw [step_eq, hcall, ok_bind] at hstep
  cases hstep
  exact ⟨c, s', hcall, inv₁, hmax, spec⟩

/-- A run applies the events of its calls. -/
theorem calls_spec (inv : Inv s) (ops : List (Op T O E)) :
    ∃ log s', calls ops s = .ok (log, s') ∧ Inv s' ∧ s'.maxItems = s.maxItems ∧
      log.map Called.op = ops ∧ s'.get = applyAll s.get (log.flatMap Called.events) := by
  induction ops generalizing s with
  | nil => exact ⟨[], s, rfl, inv, rfl, rfl, rfl⟩
  | cons op ops ih =>
    obtain ⟨c, s₁, hcall, inv₁, hmax₁, spec⟩ := call_spec inv op
    obtain ⟨log, s₂, hcalls, inv₂, hmax₂, hops, hget⟩ := ih inv₁
    refine ⟨c :: log, s₂, ?_, inv₂, hmax₂.trans hmax₁, ?_, ?_⟩
    · simp only [calls, hcall, ok_bind, hcalls]
    · rw [List.map_cons, hops, spec.op_eq]
    · rw [hget, spec.get_eq, List.flatMap_cons, applyAll_append]

/-- After any run a slab holds at every index what was stored there last, and its next call is a
call on this map, which changes no other index. -/
theorem refines_map (maxItems : UInt16) (ops : List (Op T O E)) :
    ∃ log s, calls ops (new maxItems) = .ok (log, s) ∧ log.map Called.op = ops ∧
      s.maxItems = maxItems ∧
      (∀ idx, s.get idx = lastStored (log.flatMap Called.events) idx) ∧
      ∀ op : Op T O E, ∃ c s', call s op = .ok (c, s') ∧ CallSpec s op c s' ∧
        ∀ idx, (∀ e ∈ c.events, e.key ≠ idx) → s'.get idx = s.get idx := by
  obtain ⟨log, s, hcalls, inv, hmax, hops, hget⟩ := calls_spec (inv_new maxItems) ops
  refine ⟨log, s, hcalls, hops, hmax, fun idx => ?_, fun op => ?_⟩
  · have hempty : get (new maxItems : Slab T) = fun _ => none := rfl
    rw [hget, hempty]
    exact contents_eq_lastStored _ _
  · obtain ⟨c, s', hcall, -, -, spec⟩ := call_spec inv op
    refine ⟨c, s', hcall, spec, fun idx hidx => ?_⟩
    rw [spec.get_eq]
    exact applyAll_of_ne hidx

end

end Slab

end Mcutt
