import Mcutt.Bytes

/-!
# Cursors over a list of items

`subscribe/iter.rs` and `unsubscribe/iter.rs` have the same cursor with another parser: a slice and
a position, moved past one item by every `read`.  For a parser that takes exactly the written form
of an item (`ItemCodec`), a cursor in front of a list of written items reads these items
(`collect_eq_ok`), and a list that was walked to its end is a list of written items
(`tryForEach_eq_ok`).
-/

namespace Mcutt

/-- `RawSubscribeCursor` and `RawUnsubscribeCursor`. -/
structure RawCursor where
  bytes : List UInt8
  pos : ℕ
  deriving DecidableEq, Repr

namespace RawCursor

variable {α : Type}

section

variable [Target]

/-- `read` of a cursor whose items are parsed by `parse`. -/
def read (parse : List UInt8 → Exec (α × List UInt8)) (self : RawCursor) :
    Exec (Option (Except Error α) × RawCursor) := do
  debugAssert (decide (self.pos ≤ self.bytes.length)) "self.pos <= self.bytes.len()"
  if self.bytes.length ≤ self.pos then .ok (none, self)
  else
    let bytes := self.bytes.drop self.pos
    match parse bytes with
    | .error (.panicked msg) => .error (.panicked msg)
    | .error (.err e) => .ok (some (.error e), self)
    | .ok (item, rest) => do
      debugAssert (decide (rest.length < bytes.length)) "rest.len() < bytes.len()"
      let pos ← arith usizeMax (self.pos + (bytes.length - rest.length))
      .ok (some (.ok item), { self with pos })

/-- The loop of `validate`: every item is checked, the first error ends it. -/
def tryForEach (parse : List UInt8 → Exec (α × List UInt8)) (check : α → Exec Unit) :
    ℕ → RawCursor → Exec Unit
  | 0, _ => .error (.panicked "out of fuel")
  | fuel + 1, self => do
    let (item, self) ← self.read parse
    match item with
    | none => .ok ()
    | some (.error e) => .error (.err e)
    | some (.ok item) => do
      check item
      tryForEach parse check fuel self

/-- The cursor that panics on an invalid packet, run to its end. -/
def collect (parse : List UInt8 → Exec (α × List UInt8)) : ℕ → RawCursor → Exec (List α)
  | 0, _ => .error (.panicked "out of fuel")
  | fuel + 1, self => do
    let (item, self) ← self.read parse
    match item with
    | none => .ok []
    | some (.error _) => .error (.panicked "must be a valid SUBSCRIBE packet")
    | some (.ok item) => do
      let items ← collect parse fuel self
      .ok (item :: items)

/-- `next` of the cursor that panics on an invalid packet. -/
def next (parse : List UInt8 → Exec (α × List UInt8)) (self : RawCursor) :
    Exec (Option α × RawCursor) := do
  let (item, self) ← self.read parse
  match item with
  | none => .ok (none, self)
  | some (.error _) => .error (.panicked "must be a valid SUBSCRIBE packet")
  | some (.ok item) => .ok (some item, self)

/-- What `n` calls of `next` return, and the cursor they leave. -/
def nexts (parse : List UInt8 → Exec (α × List UInt8)) :
    ℕ → RawCursor → Exec (List (Option α) × RawCursor)
  | 0, self => .ok ([], self)
  | n + 1, self => do
    let (item, self) ← self.next parse
    let (items, self) ← nexts parse n self
    .ok (item :: items, self)

end

/-- A parser that takes the written form of the valid items, which is never empty. -/
structure ItemCodec (parse : List UInt8 → Exec (α × List UInt8)) (wire : α → List UInt8)
    (Valid : α → Prop) : Prop where
  parse_eq_ok : ∀ {buf rest item}, parse buf = .ok (item, rest) ↔
    buf = wire item ++ rest ∧ Valid item
  wire_ne_nil : ∀ item, wire item ≠ []
  noPanic : ∀ buf, NoPanic (parse buf)

/-- The bytes the cursor has not read. -/
def rest (self : RawCursor) : List UInt8 := self.bytes.drop self.pos

/-- The position is inside the slice, which is one of memory. -/
structure InSlice (c : RawCursor) : Prop where
  pos_le : c.pos ≤ c.bytes.length
  length_lt : c.bytes.length < 2 ^ 32

/-- The cursor past the next `n` bytes. -/
def skip (self : RawCursor) (n : ℕ) : RawCursor := { self with pos := self.pos + n }

variable {parse : List UInt8 → Exec (α × List UInt8)} {wire : α → List UInt8} {Valid : α → Prop}
  {self : RawCursor}

theorem rest_skip (self : RawCursor) {a b : List UInt8} (h : self.rest = a ++ b) :
    (self.skip a.length).rest = b := by
  have hdrop : (self.skip a.length).rest = self.rest.drop a.length := by
    simp only [rest, skip, List.drop_drop]
  rw [hdrop, h, List.drop_left]

theorem InSlice.skip (inv : self.InSlice) {a b : List UInt8} (h : self.rest = a ++ b) :
    (self.skip a.length).InSlice := by
  have hlen := congrArg List.length h
  have hle := inv.pos_le
  rw [rest, List.length_drop, List.length_append] at hlen
  refine ⟨?_, inv.length_lt⟩
  simp only [RawCursor.skip]
  omega

variable [Target]

/-! ## One read -/

theorem read_end (inv : self.InSlice) (h : self.rest = []) :
    self.read parse = .ok (none, self) := by
  have hle : self.bytes.length ≤ self.pos := List.drop_eq_nil_iff.1 h
  simp only [read, decide_eq_true inv.pos_le, debugAssert_true, ok_bind, if_pos hle]

theorem read_item (codec : ItemCodec parse wire Valid) (inv : self.InSlice) {item : α}
    {b : List UInt8} (h : self.rest = wire item ++ b) (valid : Valid item) :
    self.read parse = .ok (some (.ok item), self.skip (wire item).length) := by
  have hpos := List.length_pos_iff.2 (codec.wire_ne_nil item)
  have hlen := congrArg List.length h
  rw [rest, List.length_drop, List.length_append] at hlen
  have hlt : ¬ self.bytes.length ≤ self.pos := by omega
  have hparse : parse (self.bytes.drop self.pos) = .ok (item, b) :=
    codec.parse_eq_ok.2 ⟨h, valid⟩
  have hsize : (self.bytes.drop self.pos).length - b.length = (wire item).length := by
    rw [List.length_drop]
    omega
  have hshort : decide (b.length < (self.bytes.drop self.pos).length) = true := by
    simp only [decide_eq_true_eq, List.length_drop]
    omega
  have hfits : self.pos + (wire item).length ≤ usizeMax := by
    have := inv.length_lt
    exact le_usizeMax (by omega)
  simp only [read, decide_eq_true inv.pos_le, debugAssert_true, ok_bind, if_neg hlt, hparse,
    hshort, hsize, arith_of_le hfits, skip]

/-- A cursor in its slice reads nothing, an error or an item. -/
theorem read_cases (codec : ItemCodec parse wire Valid) (inv : self.InSlice) :
    (self.rest = [] ∧ self.read parse = .ok (none, self)) ∨
    (∃ e, self.read parse = .ok (some (.error e), self)) ∨
    ∃ item b, self.rest = wire item ++ b ∧ Valid item ∧
      self.read parse = .ok (some (.ok item), self.skip (wire item).length) := by
  by_cases hend : self.rest = []
  · exact .inl ⟨hend, read_end inv hend⟩
  · have hlt : ¬ self.bytes.length ≤ self.pos := fun h => hend (List.drop_eq_nil_iff.2 h)
    cases hparse : parse (self.bytes.drop self.pos) with
    | ok r =>
      obtain ⟨item, b⟩ := r
      obtain ⟨hrest, valid⟩ := codec.parse_eq_ok.1 hparse
      exact .inr (.inr ⟨item, b, hrest, valid, read_item codec inv hrest valid⟩)
    | error f =>
      cases f with
      | panicked msg => exact absurd hparse (codec.noPanic _ msg)
      | err e =>
        refine .inr (.inl ⟨e, ?_⟩)
        simp only [read, decide_eq_true inv.pos_le, debugAssert_true, ok_bind, if_neg hlt, hparse]

/-! ## The loops -/

/-- A cursor in front of written items yields these items. -/
theorem collect_eq_ok (codec : ItemCodec parse wire Valid) {items : List α} (inv : self.InSlice)
    (h : self.rest = items.flatMap wire) (valid : ∀ item ∈ items, Valid item) {fuel : ℕ}
    (hfuel : items.length < fuel) : collect parse fuel self = .ok items := by
  induction items generalizing self fuel with
  | nil =>
    obtain ⟨fuel, rfl⟩ : ∃ k, fuel = k + 1 := ⟨fuel - 1, by omega⟩
    simp only [collect, read_end inv h, ok_bind]
  | cons item items ih =>
    obtain ⟨fuel, rfl⟩ : ∃ k, fuel = k + 1 := ⟨fuel - 1, by omega⟩
    rw [List.flatMap_cons] at h
    have hread := read_item codec inv h (valid item List.mem_cons_self)
    have hrest := ih (inv.skip h) (self.rest_skip h)
      (fun a ha => valid a (List.mem_cons_of_mem _ ha)) (Nat.lt_of_succ_lt_succ hfuel)
    simp only [collect, hread, ok_bind, hrest]

/-- Behind the last item `next` returns `None` and stays where it is. -/
theorem nexts_end (inv : self.InSlice) (h : self.rest = []) (n : ℕ) :
    nexts parse n self = .ok (List.replicate n none, self) := by
  induction n with
  | zero => rfl
  | succ n ih =>
    have hnext : self.next parse = .ok (none, self) := by
      rw [next, read_end inv h]
      rfl
    simp only [nexts, hnext, ok_bind, ih, List.replicate_succ]

/-- In front of written items the calls of `next` return these items and then `None`. -/
theorem nexts_items (codec : ItemCodec parse wire Valid) {items : List α} (inv : self.InSlice)
    (h : self.rest = items.flatMap wire) (valid : ∀ item ∈ items, Valid item) (n : ℕ) :
    nexts parse n self = .ok ((items.take n).map some ++ List.replicate (n - items.length) none,
      self.skip ((items.take n).flatMap wire).length) := by
  induction items generalizing self n with
  | nil =>
    rw [nexts_end inv h]
    simp [skip]
  | cons item items ih =>
    cases n with
    | zero => simp [nexts, skip]
    | succ n =>
      rw [List.flatMap_cons] at h
      have hnext : self.next parse = .ok (some item, self.skip (wire item).length) := by
        rw [next, read_item codec inv h (valid item List.mem_cons_self)]
        rfl
      have hrest := ih (inv.skip h) (self.rest_skip h)
        (fun a ha => valid a (List.mem_cons_of_mem _ ha)) n
      simp only [nexts, hnext, ok_bind, hrest]
      simp [skip, Nat.add_assoc]

/-- The check of a list of items accepts the written forms of valid items that pass it. -/
theorem tryForEach_eq_ok (codec : ItemCodec parse wire Valid) {check : α → Exec Unit}
    (inv : self.InSlice) {fuel : ℕ} (hfuel : self.rest.length < fuel) :
    tryForEach parse check fuel self = .ok () ↔ ∃ items : List α,
      self.rest = items.flatMap wire ∧ ∀ item ∈ items, Valid item ∧ check item = .ok () := by
  induction fuel generalizing self with
  | zero => omega
  | succ fuel ih =>
    rcases read_cases codec inv with ⟨hend, hread⟩ | ⟨e, hread⟩ | ⟨item, b, hrest, valid, hread⟩
    · simp only [tryForEach, hread, ok_bind]
      exact iff_of_true trivial ⟨[], hend, by simp⟩
    · simp only [tryForEach, hread, ok_bind]
      apply iff_of_false (by simp)
      rintro ⟨items, hitems, hvalid⟩
      cases items with
      | nil => rw [read_end inv hitems] at hread; simp at hread
      | cons item items =>
        have hitem := read_item codec inv hitems (hvalid item List.mem_cons_self).1
        rw [hitem] at hread
        simp at hread
    · have hpos := List.length_pos_iff.2 (codec.wire_ne_nil item)
      have hskip := self.rest_skip hrest
      have hless : (self.skip (wire item).length).rest.length < fuel := by
        rw [hskip]
        rw [hrest, List.length_append] at hfuel
        omega
      have ih := ih (inv.skip hrest) hless
      rw [hskip] at ih
      simp only [tryForEach, hread, ok_bind, bind_eq_ok]
      constructor
      · rintro ⟨⟨⟩, hcheck, hloop⟩
        obtain ⟨items, hitems, hvalid⟩ := ih.1 hloop
        refine ⟨item :: items, by rw [hrest, hitems, List.flatMap_cons], ?_⟩
        exact List.forall_mem_cons.2 ⟨⟨valid, hcheck⟩, hvalid⟩
      · rintro ⟨items, hitems, hvalid⟩
        cases items with
        | nil => rw [read_end inv hitems] at hread; simp at hread
        | cons first items =>
          have hfirst := read_item codec inv hitems (hvalid first List.mem_cons_self).1
          obtain rfl : first = item := by
            rw [hfirst] at hread
            simp only [Except.ok.injEq, Prod.mk.injEq, Option.some.injEq] at hread
            exact hread.1
          have htail : b = items.flatMap wire := by
            rw [hrest, List.flatMap_cons] at hitems
            exact List.append_cancel_left hitems
          obtain ⟨⟨-, hcheck⟩, hvalid⟩ := List.forall_mem_cons.1 hvalid
          exact ⟨(), hcheck, ih.2 ⟨items, htail, hvalid⟩⟩

omit [Target] in
/-- There are no more items than bytes. -/
theorem length_le_flatMap {β : Type} {wire : β → List UInt8} (hne : ∀ item, wire item ≠ [])
    (items : List β) : items.length ≤ (items.flatMap wire).length := by
  induction items with
  | nil => simp
  | cons item items ih =>
    have hpos := List.length_pos_iff.2 (hne item)
    rw [List.flatMap_cons, List.length_append, List.length_cons]
    omega

end RawCursor

end Mcutt
