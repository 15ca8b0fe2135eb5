import Mathlib.Tactic

/-!
# Readers as schedules

What a reader will do is a schedule: the pieces it delivers and the errors it reports, in order.
`read` serves one request from a schedule and `readExact` is the loop the standard library builds
on it (`readExact_succ`), which keeps what it has already taken when it fails.  No byte is lost or
invented by either: what was taken and the payload left make up the payload
(`payload_read`, `payload_readExact`).  `lead` is what can be taken before the first error that
ends the loop, and decides how `readExact` ends (`readExact_eq`).
-/

namespace Schedule

variable {α ε : Type}

/-- A piece of the stream, available at once, or an error of a read call. -/
inductive Event (α ε : Type) where
  | chunk (bs : List α)
  | fail (e : ε)
  deriving DecidableEq, Repr

/-- Everything the schedule delivers. -/
def payload : List (Event α ε) → List α
  | [] => []
  | .chunk bs :: s => bs ++ payload s
  | .fail _ :: s => payload s

/-- Every piece has something in it; an empty one would be taken for the end of the stream. -/
def NonemptyChunks (s : List (Event α ε)) : Prop := ∀ bs, .chunk bs ∈ s → bs ≠ []

/-- A request for at most `n` elements. -/
def read (n : ℕ) : List (Event α ε) → Except ε (List α) × List (Event α ε)
  | [] => (.ok [], [])
  | .fail e :: s => (.error e, s)
  | .chunk bs :: s =>
    if bs.length ≤ n then (.ok bs, s) else (.ok (bs.take n), .chunk (bs.drop n) :: s)

/-- A request for exactly `n` elements: what was taken, how the loop ended (`none` for the end of
the stream) and what is left.  Errors for which `retry` holds do not end the loop. -/
def readExact (retry : ε → Bool) :
    ℕ → List (Event α ε) → List α × Except (Option ε) Unit × List (Event α ε)
  | 0, s => ([], .ok (), s)
  | _ + 1, [] => ([], .error none, [])
  | n + 1, .fail e :: s => if retry e then readExact retry (n + 1) s else ([], .error (some e), s)
  | n + 1, .chunk bs :: s =>
    if bs = [] then ([], .error none, s)
    else if bs.length ≤ n + 1 then
      let (got, r, s) := readExact retry (n + 1 - bs.length) s
      (bs ++ got, r, s)
    else (bs.take (n + 1), .ok (), .chunk (bs.drop (n + 1)) :: s)

/-- The elements before the first error that ends `readExact`, or before the end. -/
def lead (retry : ε → Bool) : List (Event α ε) → List α
  | [] => []
  | .fail e :: s => if retry e then lead retry s else []
  | .chunk bs :: s => if bs = [] then [] else bs ++ lead retry s

@[simp]
theorem payload_nil : payload ([] : List (Event α ε)) = [] := rfl

@[simp]
theorem payload_chunk (bs : List α) (s : List (Event α ε)) :
    payload (.chunk bs :: s) = bs ++ payload s := rfl

@[simp]
theorem payload_fail (e : ε) (s : List (Event α ε)) : payload (.fail e :: s) = payload s := rfl

theorem NonemptyChunks.tail {x : Event α ε} {s : List (Event α ε)}
    (h : NonemptyChunks (x :: s)) : NonemptyChunks s :=
  fun bs hbs => h bs (List.mem_cons_of_mem _ hbs)

theorem NonemptyChunks.head {bs : List α} {s : List (Event α ε)}
    (h : NonemptyChunks (.chunk bs :: s)) : bs ≠ [] := h bs List.mem_cons_self

theorem NonemptyChunks.drop_chunk {bs : List α} {s : List (Event α ε)} {n : ℕ}
    (h : NonemptyChunks (.chunk bs :: s)) (hn : n < bs.length) :
    NonemptyChunks (.chunk (bs.drop n) :: s) := by
  intro cs hcs
  rcases List.mem_cons.1 hcs with heq | hcs
  · obtain rfl : cs = bs.drop n := by simpa using heq
    simpa using hn
  · exact h cs (List.mem_cons_of_mem _ hcs)

/-! ## One request -/

/-- What a request returns comes off the front of the payload. -/
theorem payload_read {n : ℕ} {s s' : List (Event α ε)} {bs : List α}
    (h : read n s = (.ok bs, s')) : payload s = bs ++ payload s' ∧ bs.length ≤ n := by
  cases s with
  | nil =>
    obtain ⟨rfl, rfl⟩ : [] = bs ∧ [] = s' := by simpa [read] using h
    simp
  | cons x s =>
    cases x with
    | fail e => simp [read] at h
    | chunk cs =>
      simp only [read] at h
      split_ifs at h with hn
      · obtain ⟨rfl, rfl⟩ : cs = bs ∧ s = s' := by simpa using h
        exact ⟨rfl, hn⟩
      · obtain ⟨rfl, rfl⟩ : cs.take n = bs ∧ .chunk (cs.drop n) :: s = s' := by simpa using h
        rw [payload_chunk, payload_chunk, ← List.append_assoc, List.take_append_drop]
        exact ⟨rfl, List.length_take_le _ _⟩

theorem payload_read_error {n : ℕ} {s s' : List (Event α ε)} {e : ε}
    (h : read n s = (.error e, s')) : s = .fail e :: s' := by
  cases s with
  | nil => simp [read] at h
  | cons x s =>
    cases x with
    | fail e' =>
      obtain ⟨rfl, rfl⟩ : e' = e ∧ s = s' := by simpa [read] using h
      rfl
    | chunk cs =>
      simp only [read] at h
      split_ifs at h <;> simp at h

/-- Nothing is returned only at the end of the stream. -/
theorem read_eq_nil {n : ℕ} {s s' : List (Event α ε)} (hs : NonemptyChunks s) (hn : 0 < n)
    (h : read n s = (.ok [], s')) : s = [] ∧ s' = [] := by
  cases s with
  | nil =>
    obtain rfl : [] = s' := by simpa [read] using h
    exact ⟨rfl, rfl⟩
  | cons x s =>
    cases x with
    | fail e => simp [read] at h
    | chunk cs =>
      have hne := hs.head
      have pos := List.length_pos_iff.2 hne
      simp only [read] at h
      split_ifs at h with hle
      · simp [hne] at h
      · have : cs.take n = [] := by simpa using congrArg Prod.fst h
        rcases List.take_eq_nil_iff.1 this with h0 | h0
        · omega
        · exact absurd h0 hne

/-! ## The loop -/

/-- The loop of the standard library, one request at a time. -/
theorem readExact_succ (retry : ε → Bool) (n : ℕ) (s : List (Event α ε)) :
    readExact retry (n + 1) s = match read (n + 1) s with
      | (.error e, s') => if retry e then readExact retry (n + 1) s' else ([], .error (some e), s')
      | (.ok bs, s') =>
        if bs = [] then ([], .error none, s')
        else
          let (got, r, s'') := readExact retry (n + 1 - bs.length) s'
          (bs ++ got, r, s'') := by
  cases s with
  | nil => simp [readExact, read]
  | cons x s =>
    cases x with
    | fail e => simp [readExact, read]
    | chunk cs =>
      simp only [readExact, read]
      by_cases hne : cs = []
      · subst hne
        simp
      · by_cases hle : cs.length ≤ n + 1
        · simp [hne, hle]
        · have htake : cs.take (n + 1) ≠ [] := by simp [List.take_eq_nil_iff, hne]
          have hlen : n + 1 - (cs.take (n + 1)).length = 0 := by
            rw [List.length_take]
            omega
          rw [if_neg hne, if_neg hle, if_neg hle]
          simp only [if_neg htake, hlen, readExact, List.append_nil]

theorem payload_readExact (retry : ε → Bool) (n : ℕ) (s : List (Event α ε)) :
    payload s = (readExact retry n s).1 ++ payload (readExact retry n s).2.2 := by
  induction s generalizing n with
  | nil => cases n <;> simp [readExact]
  | cons x s ih =>
    cases n with
    | zero => simp [readExact]
    | succ n =>
      cases x with
      | fail e =>
        simp only [readExact, payload_fail]
        split_ifs
        · exact ih _
        · rfl
      | chunk bs =>
        simp only [readExact]
        split_ifs with hne hle
        · simp [hne]
        · simp only [payload_chunk, List.append_assoc, ← ih]
        · simp only [payload_chunk, ← List.append_assoc, List.take_append_drop]

/-- The loop takes what it is asked for out of `lead`, and ends well if that is enough. -/
theorem readExact_eq (retry : ε → Bool) (n : ℕ) (s : List (Event α ε)) :
    (readExact retry n s).1 = (lead retry s).take n ∧
      ((readExact retry n s).2.1 = .ok () ↔ n ≤ (lead retry s).length) := by
  induction s generalizing n with
  | nil => cases n <;> simp [readExact, lead]
  | cons x s ih =>
    cases n with
    | zero => simp [readExact]
    | succ n =>
      cases x with
      | fail e =>
        simp only [readExact, lead]
        split_ifs
        · exact ih _
        · simp
      | chunk bs =>
        simp only [readExact, lead]
        split_ifs with hne hle
        · simp
        · obtain ⟨hgot, hok⟩ := ih (n + 1 - bs.length)
          refine ⟨?_, ?_⟩
          · rw [hgot, List.take_append, List.take_of_length_le hle]
          · rw [hok, List.length_append]
            omega
        · refine ⟨?_, ?_⟩
          · rw [List.take_append_of_le_length (by omega)]
          · simp only [List.length_append, true_iff]
            omega

theorem lead_prefix (retry : ε → Bool) (s : List (Event α ε)) :
    (lead retry s) <+: payload s := by
  induction s with
  | nil => exact List.prefix_rfl
  | cons x s ih =>
    cases x with
    | fail e =>
      simp only [lead, payload_fail]
      split_ifs
      · exact ih
      · exact List.nil_prefix
    | chunk bs =>
      simp only [lead, payload_chunk]
      split_ifs
      · exact List.nil_prefix
      · exact (List.prefix_append_right_inj bs).2 ih

/-- What a request is served with comes off the front of the lead. -/
theorem lead_read {retry : ε → Bool} {n : ℕ} {s s' : List (Event α ε)} {bs : List α}
    (hne : bs ≠ []) (h : read n s = (.ok bs, s')) : lead retry s = bs ++ lead retry s' := by
  cases s with
  | nil =>
    obtain ⟨rfl, -⟩ : [] = bs ∧ [] = s' := by simpa [read] using h
    exact absurd rfl hne
  | cons x s =>
    cases x with
    | fail e => simp [read] at h
    | chunk cs =>
      simp only [read] at h
      split_ifs at h with hle
      · obtain ⟨rfl, rfl⟩ : cs = bs ∧ s = s' := by simpa using h
        rw [lead, if_neg hne]
      · obtain ⟨rfl, rfl⟩ : cs.take n = bs ∧ .chunk (cs.drop n) :: s = s' := by simpa using h
        have hcs : cs ≠ [] := by
          rintro rfl
          exact hne List.take_nil
        have hdrop : cs.drop n ≠ [] := by
          rw [Ne, List.drop_eq_nil_iff]
          exact hle
        rw [lead, if_neg hcs, lead, if_neg hdrop, ← List.append_assoc, List.take_append_drop]

/-- A request that returns nothing, or fails with an error that is not tried again, finds nothing
to lead. -/
theorem lead_eq_nil_of_read {retry : ε → Bool} {n : ℕ} {s s' : List (Event α ε)}
    {r : Except ε (List α)} (hn : 0 < n) (h : read n s = (r, s'))
    (hr : r = .ok [] ∨ ∃ e, r = .error e ∧ retry e = false) : lead retry s = [] := by
  rcases hr with rfl | ⟨e, rfl, he⟩
  · cases s with
    | nil => rfl
    | cons x s =>
      cases x with
      | fail e => simp [read] at h
      | chunk cs =>
        have hcs : cs = [] := by
          simp only [read] at h
          split_ifs at h with hle
          · simpa using congrArg Prod.fst h
          · have htake : cs.take n = [] := by simpa using congrArg Prod.fst h
            exact (List.take_eq_nil_iff.1 htake).resolve_left (by omega)
        rw [lead, if_pos hcs]
  · rw [payload_read_error h, lead, if_neg (by simp [he])]

/-- Nothing is taken from a schedule that begins with an error or is over. -/
theorem readExact_of_lead_nil {retry : ε → Bool} {s : List (Event α ε)} (hs : NonemptyChunks s)
    (hlead : lead retry s = []) (n : ℕ) :
    (readExact retry (n + 1) s = ([], .error none, []) ∧ payload s = []) ∨
      ∃ e s', readExact retry (n + 1) s = ([], .error (some e), s') ∧ .fail e ∈ s ∧
        s'.length < s.length := by
  induction s with
  | nil => exact .inl ⟨rfl, rfl⟩
  | cons x s ih =>
    cases x with
    | fail e =>
      simp only [lead] at hlead
      simp only [readExact]
      split_ifs with hr
      · rw [if_pos hr] at hlead
        rcases ih hs.tail hlead with ⟨heq, hpay⟩ | ⟨e', s', heq, he', hlt⟩
        · exact .inl ⟨heq, hpay⟩
        · exact .inr ⟨e', s', heq, List.mem_cons_of_mem _ he', hlt.trans (by simp)⟩
      · exact .inr ⟨e, s, rfl, List.mem_cons_self, by simp⟩
    | chunk bs =>
      simp only [lead, if_neg hs.head, List.append_eq_nil_iff] at hlead
      exact absurd hlead.1 hs.head

/-- The loop gives up at an error, which is gone then. -/
theorem length_lt_of_readExact {retry : ε → Bool} {n : ℕ} {s s' : List (Event α ε)} {bs : List α}
    {e : ε} (h : readExact retry n s = (bs, .error (some e), s')) : s'.length < s.length := by
  induction s generalizing n bs with
  | nil => cases n <;> simp [readExact] at h
  | cons x s ih =>
    cases n with
    | zero => simp [readExact] at h
    | succ n =>
      cases x with
      | fail e' =>
        simp only [readExact] at h
        split_ifs at h
        · exact (ih h).trans (by simp)
        · obtain ⟨-, -, rfl⟩ : [] = bs ∧ e' = e ∧ s = s' := by simpa using h
          simp
      | chunk cs =>
        simp only [readExact] at h
        split_ifs at h
        · simp at h
        · have hrest : readExact retry (n + 1 - cs.length) s =
              ((readExact retry (n + 1 - cs.length) s).1, .error (some e), s') := by
            simp only [Prod.mk.injEq] at h
            exact Prod.ext rfl (Prod.ext h.2.1 h.2.2)
          exact (ih hrest).trans (by simp)
        · simp at h

/-! ## What is left of a schedule -/

/-- `s'` is what requests have left of `s`. -/
structure Ahead (s s' : List (Event α ε)) : Prop where
  nonempty : NonemptyChunks s → NonemptyChunks s'
  fails : ∀ e, .fail e ∈ s' → .fail e ∈ s
  length_le : s'.length ≤ s.length

theorem Ahead.refl (s : List (Event α ε)) : Ahead s s := ⟨fun h => h, fun _ h => h, le_rfl⟩

theorem Ahead.trans {s₁ s₂ s₃ : List (Event α ε)} (h₁ : Ahead s₁ s₂) (h₂ : Ahead s₂ s₃) :
    Ahead s₁ s₃ :=
  ⟨fun h => h₂.nonempty (h₁.nonempty h), fun e he => h₁.fails e (h₂.fails e he),
    h₂.length_le.trans h₁.length_le⟩

theorem Ahead.tail (x : Event α ε) (s : List (Event α ε)) : Ahead (x :: s) s :=
  ⟨NonemptyChunks.tail, fun _ h => List.mem_cons_of_mem _ h, by simp⟩

theorem Ahead.drop_chunk {bs : List α} {n : ℕ} (hn : n < bs.length) (s : List (Event α ε)) :
    Ahead (.chunk bs :: s) (.chunk (bs.drop n) :: s) :=
  ⟨fun h => h.drop_chunk hn, fun e he => by simpa using he, le_rfl⟩

theorem ahead_read (n : ℕ) (s : List (Event α ε)) : Ahead s (read n s).2 := by
  cases s with
  | nil => exact .refl _
  | cons x s =>
    cases x with
    | fail e => exact .tail _ _
    | chunk bs =>
      simp only [read]
      split_ifs with hn
      · exact .tail _ _
      · exact .drop_chunk (not_le.1 hn) s

theorem ahead_readExact (retry : ε → Bool) (n : ℕ) (s : List (Event α ε)) :
    Ahead s (readExact retry n s).2.2 := by
  induction s generalizing n with
  | nil => cases n <;> exact .refl _
  | cons x s ih =>
    cases n with
    | zero => exact .refl _
    | succ n =>
      cases x with
      | fail e =>
        simp only [readExact]
        split_ifs
        · exact (Ahead.tail _ _).trans (ih _)
        · exact .tail _ _
      | chunk bs =>
        simp only [readExact]
        split_ifs with hne hle
        · exact .tail _ _
        · exact (Ahead.tail _ _).trans (ih _)
        · exact .drop_chunk (not_le.1 hle) s

/-! ## More of the stream -/

/-- A request that is served is served alike if more follows. -/
theorem read_append {n : ℕ} {s s' : List (Event α ε)} {bs : List α} (hne : bs ≠ [])
    (h : read n s = (.ok bs, s')) (tail : List (Event α ε)) :
    read n (s ++ tail) = (.ok bs, s' ++ tail) := by
  cases s with
  | nil =>
    obtain ⟨rfl, -⟩ : [] = bs ∧ [] = s' := by simpa [read] using h
    exact absurd rfl hne
  | cons x s =>
    cases x with
    | fail e => simp [read] at h
    | chunk cs =>
      simp only [read, List.cons_append] at h ⊢
      split_ifs at h ⊢
      · obtain ⟨rfl, rfl⟩ : cs = bs ∧ s = s' := by simpa using h
        rfl
      · obtain ⟨rfl, rfl⟩ : cs.take n = bs ∧ .chunk (cs.drop n) :: s = s' := by simpa using h
        rfl

theorem readExact_append {retry : ε → Bool} {n : ℕ} {s s' : List (Event α ε)} {bs : List α}
    (h : readExact retry n s = (bs, .ok (), s')) (tail : List (Event α ε)) :
    readExact retry n (s ++ tail) = (bs, .ok (), s' ++ tail) := by
  induction s generalizing n bs with
  | nil =>
    cases n with
    | zero =>
      obtain ⟨rfl, rfl⟩ : [] = bs ∧ [] = s' := by simpa [readExact] using h
      rw [readExact.eq_1]
    | succ n => simp [readExact] at h
  | cons x s ih =>
    cases n with
    | zero =>
      obtain ⟨rfl, rfl⟩ : [] = bs ∧ x :: s = s' := by simpa [readExact] using h
      rw [readExact.eq_1]
    | succ n =>
      cases x with
      | fail e =>
        simp only [readExact, List.cons_append] at h ⊢
        split_ifs at h ⊢
        · exact ih h
        · simp at h
      | chunk cs =>
        simp only [readExact, List.cons_append] at h ⊢
        split_ifs at h ⊢
        · simp at h
        · obtain ⟨rfl, hrest⟩ := Prod.mk.inj h
          rw [ih (Prod.ext rfl hrest)]
        · obtain ⟨rfl, hrest⟩ := Prod.mk.inj h
          obtain ⟨-, rfl⟩ := Prod.mk.inj hrest
          rfl

end Schedule
