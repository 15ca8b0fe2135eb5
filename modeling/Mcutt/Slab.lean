import Mcutt.Bytes

/-!
# The slab

`slab.rs`, with a `Vec` as its store.  The store only ever grows at its end: `reserve_next` follows
`next_free` when it is set, but nothing sets it, since `remove` leaves the freed index in the entry
alone and `store` hands back what the entry held.  `Slab.Inv` states this shape, `insert_eq`,
`tryInsert_eq` and `remove_spec` say what each call does to a slab of this shape, and `run_spec`
counts what a run of calls leaves behind.
-/

namespace Mcutt

/-! ## Entries -/

inductive Entry (T : Type) where
  | free (nextFree : Option UInt16)
  | occupied (value : T)
  deriving DecidableEq, Repr

namespace Entry

variable {T : Type}

def isFree : Entry T → Bool
  | free _ => true
  | occupied _ => false

/-- `Entry::store`: the next free index, and the entry left behind. -/
def store [Target] (self : Entry T) (value : T) : Exec (Option UInt16 × Entry T) := do
  debugAssert self.isFree "BUG: storing in an already occupied entry"
  match self with
  | free nextFree => .ok (nextFree, occupied value)
  | occupied _ => .ok (none, occupied value)

def asOccupied : Entry T → Option T
  | free _ => none
  | occupied v => some v

end Entry

/-! ## The slab and its calls -/

/-- The capacity of the store is left out: it only decides when the `Vec` reallocates. -/
structure Slab (T : Type) where
  maxItems : UInt16
  nextFree : Option UInt16
  store : List (Entry T)
  deriving DecidableEq, Repr

namespace Slab

variable {T O E : Type}

def new (maxItems : UInt16) : Slab T := ⟨maxItems, none, []⟩

section

variable [Target]

def reserveNext (self : Slab T) : Exec (Option UInt16 × Slab T) :=
  match self.nextFree with
  | some nextFree => .ok (some nextFree, self)
  | none => do
    let len := self.store.length
    debugAssert (decide (len ≤ 65535)) "the length is bigger than u16::MAX"
    if 65535 < len then .ok (none, self)
    else
      let idx := UInt16.ofNat len
      if self.maxItems ≤ idx then .ok (none, self)
      else .ok (some idx, { self with store := self.store ++ [.free none] })

def insert (self : Slab T) (f : UInt16 → T × O) : Exec (Option O × Slab T) := do
  let (reserved, self) ← self.reserveNext
  match reserved with
  | none => .ok (none, self)
  | some idx =>
    let (value, out) := f idx
    match self.store[idx.toNat]? with
    | none => .ok (none, self)
    | some entry => do
      let (nextFree, entry) ← entry.store value
      .ok (some out, { self with nextFree, store := self.store.set idx.toNat entry })

def tryInsert (self : Slab T) (f : UInt16 → Except E (T × O)) :
    Exec (Except E (Option O) × Slab T) := do
  let (reserved, self) ← self.reserveNext
  match reserved with
  | none => .ok (.ok none, self)
  | some idx =>
    match f idx with
    | .error e => .ok (.error e, self)
    | .ok (value, out) =>
      match self.store[idx.toNat]? with
      | none => .ok (.ok none, self)
      | some entry => do
        let (nextFree, entry) ← entry.store value
        .ok (.ok (some out), { self with nextFree, store := self.store.set idx.toNat entry })

end

def remove (self : Slab T) (idx : UInt16) : Option T × Slab T :=
  match self.store[idx.toNat]? with
  | none => (none, self)
  | some (.free _) => (none, self)
  | some (.occupied value) =>
    (some value, { self with store := self.store.set idx.toNat (.free self.nextFree) })

def get (self : Slab T) (idx : UInt16) : Option T := self.store[idx.toNat]?.bind Entry.asOccupied

/-- `Slab::get_mut`, with what the caller does through the reference it is given. -/
def getMut (self : Slab T) (idx : UInt16) (update : T → T) : Option T × Slab T :=
  match self.store[idx.toNat]? with
  | some (.occupied value) =>
    (some value, { self with store := self.store.set idx.toNat (.occupied (update value)) })
  | _ => (none, self)

/-- The number of occupied entries. -/
def occupied (self : Slab T) : ℕ := self.store.countP fun e => !e.isFree

/-! ## Runs -/

inductive Op (T O E : Type) where
  | insert (f : UInt16 → T × O)
  | tryInsert (f : UInt16 → Except E (T × O))
  | remove (idx : UInt16)
  | get (idx : UInt16)
  | getMut (idx : UInt16) (update : T → T)

namespace Op

/-- A call that reserves an entry. -/
def reserves : Op T O E → Bool
  | insert _ => true
  | tryInsert _ => true
  | _ => false

/-- The closure of a `try_insert` call returns `Ok`. -/
def ReturnsOk : Op T O E → Prop
  | tryInsert f => ∀ idx, ∃ r, f idx = .ok r
  | _ => True

end Op

section

variable [Target]

def step (s : Slab T) : Op T O E → Exec (Slab T)
  | .insert f => return (← s.insert f).2
  | .tryInsert f => return (← s.tryInsert f).2
  | .remove idx => .ok (s.remove idx).2
  | .get _ => .ok s
  | .getMut idx update => .ok (s.getMut idx update).2

def run (ops : List (Op T O E)) (s : Slab T) : Exec (Slab T) := ops.foldlM step s

end

/-- How many of the calls reserve an entry. -/
def reservations (ops : List (Op T O E)) : ℕ := ops.countP Op.reserves

/-- No `remove` call names an index that was handed out before it. -/
def NeverFrees (maxItems : UInt16) (ops : List (Op T O E)) : Prop :=
  ∀ before idx after, ops = before ++ .remove idx :: after →
    min (reservations before) maxItems.toNat ≤ idx.toNat

/-! ## What each call does -/

/-- The shape of a reachable slab: the chain of free entries is empty. -/
structure Inv (s : Slab T) : Prop where
  nextFree_eq : s.nextFree = none
  length_le : s.store.length ≤ s.maxItems.toNat

theorem inv_new (maxItems : UInt16) : Inv (new maxItems : Slab T) := ⟨rfl, Nat.zero_le _⟩

section

variable [Target] {s : Slab T}

/-- An entry is reserved at the end of the store, if there is room for it. -/
theorem reserveNext_eq (inv : Inv s) :
    s.reserveNext = if s.store.length < s.maxItems.toNat then
      .ok (some (UInt16.ofNat s.store.length), { s with store := s.store ++ [.free none] })
    else .ok (none, s) := by
  have hmax := s.maxItems.toNat_lt
  have hlen := inv.length_le
  have hfits : decide (s.store.length ≤ 65535) = true := by
    simp only [decide_eq_true_eq]
    omega
  have hidx : s.maxItems ≤ UInt16.ofNat s.store.length ↔ ¬ s.store.length < s.maxItems.toNat := by
    rw [UInt16.le_iff_toNat_le, UInt16.toNat_ofNat']
    omega
  rw [reserveNext, inv.nextFree_eq]
  simp only [hfits, debugAssert_true, ok_bind, if_neg (by omega : ¬ 65535 < s.store.length), hidx]
  split_ifs <;> rfl

omit [Target] in
theorem toNat_length (h : s.store.length < s.maxItems.toNat) :
    (UInt16.ofNat s.store.length).toNat = s.store.length := by
  have := s.maxItems.toNat_lt
  rw [UInt16.toNat_ofNat']
  omega

theorem insert_eq (inv : Inv s) (f : UInt16 → T × O) :
    s.insert f = if s.store.length < s.maxItems.toNat then
      .ok (some (f (UInt16.ofNat s.store.length)).2,
        { s with store := s.store ++ [.occupied (f (UInt16.ofNat s.store.length)).1] })
    else .ok (none, s) := by
  rw [insert, reserveNext_eq inv]
  split_ifs with h
  · have hget : (s.store ++ [Entry.free none])[s.store.length]? = some (.free none) := by simp
    simp only [ok_bind, toNat_length h, hget, Entry.store, Entry.isFree, debugAssert_true]
    rw [List.set_append_right _ _ (le_refl _), Nat.sub_self, List.set_cons_zero,
      inv.nextFree_eq]
  · rfl

theorem tryInsert_eq (inv : Inv s) (f : UInt16 → Except E (T × O)) :
    s.tryInsert f = if s.store.length < s.maxItems.toNat then
      match f (UInt16.ofNat s.store.length) with
      | .error e => .ok (.error e, { s with store := s.store ++ [.free none] })
      | .ok (value, out) =>
        .ok (.ok (some out), { s with store := s.store ++ [.occupied value] })
    else .ok (.ok none, s) := by
  rw [tryInsert, reserveNext_eq inv]
  split_ifs with h
  · have hget : (s.store ++ [Entry.free none])[s.store.length]? = some (.free none) := by simp
    simp only [ok_bind]
    cases f (UInt16.ofNat s.store.length) with
    | error e => rfl
    | ok r =>
      simp only [toNat_length h, hget, Entry.store, Entry.isFree, debugAssert_true, ok_bind]
      rw [List.set_append_right _ _ (le_refl _), Nat.sub_self, List.set_cons_zero,
        inv.nextFree_eq]
  · rfl

end

/-! ## Which entries are free -/

/-- Which entries are free, in the order of their indexes. -/
def flags (s : Slab T) : List Bool := s.store.map Entry.isFree

/-- What a call does to the flags. -/
def flagsAfter (maxItems : UInt16) (flags : List Bool) : Op T O E → List Bool
  | .insert _ => if flags.length < maxItems.toNat then flags ++ [false] else flags
  | .tryInsert f =>
    if flags.length < maxItems.toNat then
      flags ++ [!(f (UInt16.ofNat flags.length)).isOk]
    else flags
  | .remove idx => flags.set idx.toNat true
  | .get _ => flags
  | .getMut _ _ => flags

theorem length_flags (s : Slab T) : s.flags.length = s.store.length := List.length_map _

theorem occupied_eq (s : Slab T) : s.occupied = s.flags.count false := by
  rw [occupied, flags, List.count, List.countP_map]
  congr 1
  funext e
  cases e <;> rfl

/-- Setting the flag an entry already has changes nothing. -/
theorem set_flags {s : Slab T} {idx : ℕ} {e : Entry T} (h : s.store[idx]? = some e) :
    s.flags.set idx e.isFree = s.flags := by
  apply List.ext_getElem?
  intro i
  rw [List.getElem?_set]
  split_ifs with hi hlt
  · subst hi
    simp [flags, h]
  · subst hi
    rw [List.getElem?_eq_none (by omega)]
  · rfl

theorem remove_spec (s : Slab T) (idx : UInt16) :
    ∃ store, (s.remove idx).2 = { s with store } ∧
      store.map Entry.isFree = s.flags.set idx.toNat true := by
  rw [remove]
  rcases h : s.store[idx.toNat]? with _ | (_ | value)
  · refine ⟨s.store, rfl, (List.set_eq_of_length_le ?_).symm⟩
    rw [List.length_map]
    exact List.getElem?_eq_none_iff.1 h
  · exact ⟨s.store, rfl, (set_flags h).symm⟩
  · exact ⟨_, rfl, by rw [List.map_set]; rfl⟩

theorem getMut_spec (s : Slab T) (idx : UInt16) (update : T → T) :
    ∃ store, (s.getMut idx update).2 = { s with store } ∧
      store.map Entry.isFree = s.flags := by
  rw [getMut]
  rcases h : s.store[idx.toNat]? with _ | (_ | value)
  · exact ⟨s.store, rfl, rfl⟩
  · exact ⟨s.store, rfl, rfl⟩
  · refine ⟨_, rfl, ?_⟩
    rw [List.map_set]
    exact set_flags (e := .occupied value) h

section

variable [Target] {s : Slab T}

/-- No call panics, the shape is kept, and the flags change as `flagsAfter` says. -/
theorem step_spec (inv : Inv s) (op : Op T O E) :
    ∃ s', step s op = .ok s' ∧ Inv s' ∧ s'.maxItems = s.maxItems ∧
      s'.flags = flagsAfter s.maxItems s.flags op := by
  have hlen := inv.length_le
  cases op with
  | insert f =>
    simp only [step, insert_eq inv, flagsAfter, length_flags]
    split_ifs with h
    · exact ⟨_, rfl, ⟨inv.nextFree_eq, by simpa using h⟩, rfl, by simp [flags, Entry.isFree]⟩
    · exact ⟨s, rfl, inv, rfl, rfl⟩
  | tryInsert f =>
    simp only [step, tryInsert_eq inv, flagsAfter, length_flags]
    split_ifs with h
    · cases f (UInt16.ofNat s.store.length) with
      | error e =>
        exact ⟨_, rfl, ⟨inv.nextFree_eq, by simpa using h⟩, rfl,
          by simp [flags, Entry.isFree, Except.isOk, Except.toBool]⟩
      | ok r =>
        exact ⟨_, rfl, ⟨inv.nextFree_eq, by simpa using h⟩, rfl,
          by simp [flags, Entry.isFree, Except.isOk, Except.toBool]⟩
    · exact ⟨s, rfl, inv, rfl, rfl⟩
  | remove idx =>
    obtain ⟨store, hs, hflags⟩ := s.remove_spec idx
    have hl := congrArg List.length hflags
    rw [List.length_map, List.length_set, length_flags] at hl
    refine ⟨{ s with store }, congrArg _ hs, ⟨inv.nextFree_eq, ?_⟩, rfl, hflags⟩
    exact le_trans (le_of_eq hl) hlen
  | get idx => exact ⟨s, rfl, inv, rfl, rfl⟩
  | getMut idx update =>
    obtain ⟨store, hs, hflags⟩ := s.getMut_spec idx update
    have hl := congrArg List.length hflags
    rw [List.length_map, length_flags] at hl
    refine ⟨{ s with store }, congrArg _ hs, ⟨inv.nextFree_eq, ?_⟩, rfl, hflags⟩
    exact le_trans (le_of_eq hl) hlen

/-- A whole run, from the empty slab. -/
theorem run_spec (maxItems : UInt16) (ops : List (Op T O E)) :
    ∃ s : Slab T, run ops (new maxItems) = .ok s ∧ Inv s ∧ s.maxItems = maxItems ∧
      s.flags = ops.foldl (flagsAfter maxItems) [] := by
  induction ops using List.reverseRecOn with
  | nil => exact ⟨new maxItems, rfl, inv_new maxItems, rfl, rfl⟩
  | append_singleton ops op ih =>
    obtain ⟨s, hrun, inv, hmax, hflags⟩ := ih
    obtain ⟨s', hstep, inv', hmax', hflags'⟩ := step_spec inv op
    refine ⟨s', ?_, inv', hmax'.trans hmax, ?_⟩
    · simp only [run, List.foldlM_append, List.foldlM_cons, List.foldlM_nil] at hrun ⊢
      rw [hrun, ok_bind, hstep, ok_bind]
      rfl
    · rw [hflags', hmax, hflags, List.foldl_append, List.foldl_cons, List.foldl_nil]

end

theorem length_flagsAfter (maxItems : UInt16) (ops : List (Op T O E)) :
    (ops.foldl (flagsAfter maxItems) []).length = min (reservations ops) maxItems.toNat := by
  induction ops using List.reverseRecOn with
  | nil => simp [reservations]
  | append_singleton ops op ih =>
    rw [List.foldl_append, List.foldl_cons, List.foldl_nil, reservations, List.countP_append]
    rw [reservations] at ih
    cases op with
    | insert f =>
      simp only [flagsAfter, List.countP_singleton, Op.reserves, if_true]
      split_ifs with h
      · rw [List.length_append, List.length_singleton]
        omega
      · omega
    | tryInsert f =>
      simp only [flagsAfter, List.countP_singleton, Op.reserves, if_true]
      split_ifs with h
      · rw [List.length_append, List.length_singleton]
        omega
      · omega
    | remove idx => simpa [flagsAfter, Op.reserves] using ih
    | get idx => simpa [flagsAfter, Op.reserves] using ih
    | getMut idx update => simpa [flagsAfter, Op.reserves] using ih

theorem neverFrees_concat {maxItems : UInt16} {ops : List (Op T O E)} {op : Op T O E} :
    NeverFrees maxItems (ops ++ [op]) ↔ NeverFrees maxItems ops ∧
      ∀ idx, op = .remove idx → min (reservations ops) maxItems.toNat ≤ idx.toNat := by
  constructor
  · intro h
    refine ⟨fun before idx after heq => h before idx (after ++ [op]) (by simp [heq]), ?_⟩
    rintro idx rfl
    exact h ops idx [] rfl
  · rintro ⟨h, hlast⟩ before idx after heq
    rcases List.eq_nil_or_concat' after with rfl | ⟨init, last, rfl⟩
    · obtain ⟨rfl, hop⟩ := List.append_inj' heq rfl
      exact hlast idx (List.cons.inj hop).1
    · rw [← List.cons_append, ← List.append_assoc] at heq
      exact h before idx init (List.append_inj' heq rfl).1

/-- As long as closures return `Ok`, an entry is free only because a `remove` call freed it. -/
theorem free_mem_flags (maxItems : UInt16) (ops : List (Op T O E))
    (hok : ∀ op ∈ ops, op.ReturnsOk) :
    true ∈ ops.foldl (flagsAfter maxItems) [] ↔ ¬ NeverFrees maxItems ops := by
  induction ops using List.reverseRecOn with
  | nil => simp [NeverFrees]
  | append_singleton ops op ih =>
    have ih := ih fun op hop => hok op (List.mem_append_left _ hop)
    have hlen := length_flagsAfter maxItems ops
    rw [List.foldl_append, List.foldl_cons, List.foldl_nil, neverFrees_concat]
    generalize ops.foldl (flagsAfter maxItems) [] = flags at ih hlen ⊢
    have keep : true ∈ flags ↔ ¬ (NeverFrees maxItems ops ∧ True) := by rw [ih, and_true]
    cases op with
    | insert f =>
      simp only [flagsAfter, reduceCtorEq, false_implies, implies_true]
      split_ifs
      · simpa using keep
      · exact keep
    | tryInsert f =>
      obtain ⟨r, hr⟩ := hok (.tryInsert f) (by simp) (UInt16.ofNat flags.length)
      simp only [flagsAfter, reduceCtorEq, false_implies, implies_true, hr]
      split_ifs
      · simpa [Except.isOk, Except.toBool] using keep
      · exact keep
    | remove idx =>
      simp only [flagsAfter, Op.remove.injEq, forall_eq']
      rw [← hlen, not_and_or, ← ih, not_le]
      by_cases hidx : idx.toNat < flags.length
      · exact iff_of_true (List.mem_set hidx true) (Or.inr hidx)
      · rw [List.set_eq_of_length_le (by omega)]
        simp [hidx]
    | get idx => simpa [flagsAfter] using ih
    | getMut idx update => simpa [flagsAfter] using ih

/-! ## Lost slots -/

section

variable [Target]

/-- Every closure returning `Ok`, a slab accepts a value exactly when fewer than `max_items`
entries are occupied, if and only if it has not filled up or nothing was ever freed. -/
theorem insert_iff_occupied_lt (maxItems : UInt16) (ops : List (Op T O E))
    (hok : ∀ op ∈ ops, op.ReturnsOk) (f : UInt16 → T × O) :
    ∃ s, run ops (new maxItems) = .ok s ∧
      (((∃ out s', s.insert f = .ok (some out, s')) ↔ s.occupied < maxItems.toNat) ↔
        (reservations ops < maxItems.toNat ∨ NeverFrees maxItems ops)) := by
  obtain ⟨s, hrun, inv, hmax, hflags⟩ := run_spec maxItems ops
  refine ⟨s, hrun, ?_⟩
  have hlen : s.store.length = min (reservations ops) maxItems.toNat := by
    rw [← length_flags, hflags, length_flagsAfter]
  have hinsert : (∃ out s', s.insert f = .ok (some out, s')) ↔
      reservations ops < maxItems.toNat := by
    rw [insert_eq inv, hmax, hlen]
    split_ifs with h
    · exact iff_of_true ⟨_, _, rfl⟩ (by omega)
    · exact iff_of_false (by simp) (by omega)
  have hle : s.occupied ≤ s.store.length := by
    rw [occupied_eq, ← length_flags]
    exact List.count_le_length
  have hfull : s.occupied = s.store.length ↔ NeverFrees maxItems ops := by
    rw [occupied_eq, ← length_flags, List.count_eq_length, ← not_iff_not,
      ← free_mem_flags maxItems ops hok, ← hflags]
    simp
  rw [hinsert, ← hfull]
  omega

end

theorem insert_iff_occupied_lt_two :
    letI := Target.debug
    let ops : List (Op ℕ Unit Empty) := [.insert fun _ => (5, ()), .tryInsert fun _ => .ok (6, ())]
    ∃ s, run ops (new 2) = .ok s ∧
      (((∃ out s', s.insert (fun _ => (7, ())) = .ok (some out, s')) ↔
          s.occupied < (2 : UInt16).toNat) ↔
        (reservations ops < (2 : UInt16).toNat ∨ NeverFrees 2 ops)) := by
  refine @insert_iff_occupied_lt ℕ Unit Empty Target.debug 2
    [.insert fun _ => (5, ()), .tryInsert fun _ => .ok (6, ())] ?_ fun _ => (7, ())
  intro op hop
  rcases List.mem_cons.1 hop with rfl | hop
  · trivial
  · rw [List.mem_singleton.1 hop]
    exact fun _ => ⟨_, rfl⟩

/-- A slab for one value, filled and emptied again, is full. -/
theorem emptied_slab_full :
    letI := Target.debug
    ∃ s : Slab ℕ,
      run ([.insert fun _ => (5, ()), .remove 0] : List (Op ℕ Unit Empty)) (new 1) = .ok s ∧
        ¬ ((∃ out s', s.insert (fun _ => (7, ())) = .ok (some out, s')) ↔
          s.occupied < (1 : UInt16).toNat) := by
  let := Target.debug
  refine ⟨⟨1, none, [.free none]⟩, rfl, ?_⟩
  rw [not_iff]
  refine iff_of_true ?_ (by decide)
  rintro ⟨out, s', h⟩
  rw [insert_eq ⟨rfl, by decide⟩] at h
  simp at h

end Slab

end Mcutt
