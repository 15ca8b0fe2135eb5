import Mcutt.Lib.Schedule

/-!
# Streams in chunks

A schedule without errors is a list of chunks.  Requests take elements off its front (`advance`),
and each one stops at the end of the current chunk at the latest.  A buffer of `size` places that
is filled request by request until it holds what is needed ends up with `window` elements: it stops
at the first chunk end that is far enough, or when it is full (`window_le_of_mem_ends`,
`window_cases`).
-/

namespace Chunks

variable {α ε : Type}

/-- No chunk is empty. -/
def Nonempty (cs : List (List α)) : Prop := ∀ c ∈ cs, c ≠ []

instance [DecidableEq α] (cs : List (List α)) : Decidable (Nonempty cs) :=
  inferInstanceAs (Decidable (∀ c ∈ cs, c ≠ []))

/-- The chunks without their first `n` elements. -/
def advance : ℕ → List (List α) → List (List α)
  | _, [] => []
  | n, c :: cs => if c.length ≤ n then advance (n - c.length) cs else c.drop n :: cs

/-- Where the chunks end, counted from the front of the stream. -/
def ends : List (List α) → List ℕ
  | [] => []
  | c :: cs => c.length :: (ends cs).map (c.length + ·)

/-- How many of `size` places are taken once at least `need` are, `k` of them at the start. -/
def window (size need : ℕ) : ℕ → List (List α) → ℕ
  | k, [] => k
  | k, c :: cs => if need ≤ k then k else window size need (min size (k + c.length)) cs

theorem Nonempty.tail {c : List α} {cs : List (List α)} (h : Nonempty (c :: cs)) : Nonempty cs :=
  fun d hd => h d (List.mem_cons_of_mem _ hd)

theorem Nonempty.length_pos {c : List α} {cs : List (List α)} (h : Nonempty (c :: cs)) :
    0 < c.length := List.length_pos_iff.2 (h c List.mem_cons_self)

/-! ## Taking elements off the front -/

theorem advance_zero {cs : List (List α)} (h : Nonempty cs) : advance 0 cs = cs := by
  cases cs with
  | nil => rfl
  | cons c cs =>
    have := h.length_pos
    rw [advance, if_neg (by omega), List.drop_zero]

theorem flatten_advance (n : ℕ) (cs : List (List α)) :
    (advance n cs).flatten = cs.flatten.drop n := by
  induction cs generalizing n with
  | nil => simp [advance]
  | cons c cs ih =>
    rw [advance, List.flatten_cons, List.drop_append]
    split_ifs with h
    · rw [ih, List.drop_eq_nil_of_le h, List.nil_append]
    · rw [List.flatten_cons, Nat.sub_eq_zero_of_le (by omega), List.drop_zero]

theorem Nonempty.advance {cs : List (List α)} (h : Nonempty cs) (n : ℕ) :
    Nonempty (advance n cs) := by
  induction cs generalizing n with
  | nil => exact h
  | cons c cs ih =>
    rw [Chunks.advance]
    split_ifs with hn
    · exact ih h.tail _
    · intro d hd
      rcases List.mem_cons.1 hd with rfl | hd
      · simpa using hn
      · exact h.tail d hd

theorem advance_advance (m n : ℕ) (cs : List (List α)) :
    advance m (advance n cs) = advance (n + m) cs := by
  induction cs generalizing m n with
  | nil => simp [advance]
  | cons c cs ih =>
    by_cases h : c.length ≤ n
    · rw [advance, if_pos h, ih, advance, if_pos (by omega)]
      congr 1
      omega
    · rw [advance, if_neg h, advance, advance, List.length_drop]
      by_cases hm : c.length ≤ n + m
      · rw [if_pos (by omega), if_pos hm]
        congr 1
        omega
      · rw [if_neg (by omega), if_neg hm, List.drop_drop]

/-- The ends of the chunks that are left are the ends behind the elements taken. -/
theorem mem_ends_advance {cs : List (List α)} (h : Nonempty cs) (n b : ℕ) :
    b ∈ ends (advance n cs) ↔ 0 < b ∧ n + b ∈ ends cs := by
  induction cs generalizing n b with
  | nil => simp [advance, ends]
  | cons c cs ih =>
    have hpos := h.length_pos
    have hends : ∀ x ∈ ends cs, 0 < x := fun x hx => by
      rw [← advance_zero h.tail, ih h.tail] at hx
      exact hx.1
    rw [advance]
    simp only [ends, List.mem_cons, List.mem_map]
    split_ifs with hn
    · rw [ih h.tail]
      apply and_congr_right
      intro hb
      constructor
      · exact fun hmem => .inr ⟨_, hmem, by omega⟩
      · rintro (heq | ⟨x, hx, heq⟩)
        · omega
        · rwa [show n - c.length + b = x by omega]
    · simp only [ends, List.mem_cons, List.mem_map, List.length_drop]
      constructor
      · rintro (rfl | ⟨x, hx, rfl⟩)
        · exact ⟨by omega, .inl (by omega)⟩
        · exact ⟨by omega, .inr ⟨x, hx, by omega⟩⟩
      · rintro ⟨hb, heq | ⟨x, hx, heq⟩⟩
        · exact .inl (by omega)
        · have := hends x hx
          exact .inr ⟨x, hx, by omega⟩

/-! ## Requests -/

/-- The chunks as a schedule. -/
def toSchedule (cs : List (List α)) : List (Schedule.Event α ε) := cs.map .chunk

@[simp]
theorem payload_toSchedule (cs : List (List α)) :
    Schedule.payload (toSchedule cs : List (Schedule.Event α ε)) = cs.flatten := by
  induction cs with
  | nil => rfl
  | cons c cs ih => exact congrArg (c ++ ·) ih

/-- The chunks in front of the first error. -/
def leading : List (Schedule.Event α ε) → List (List α)
  | .chunk bs :: s => bs :: leading s
  | _ => []

theorem Nonempty.leading {s : List (Schedule.Event α ε)} (h : Schedule.NonemptyChunks s) :
    Nonempty (leading s) := by
  induction s with
  | nil => simp [Chunks.leading, Nonempty]
  | cons x s ih =>
    cases x with
    | fail e => simp [Chunks.leading, Nonempty]
    | chunk bs => exact List.forall_mem_cons.2 ⟨h.head, ih h.tail⟩

/-- A schedule is the chunks in front of its first error, and nothing more if it has none. -/
theorem eq_leading_append (s : List (Schedule.Event α ε)) :
    ∃ tail, s = toSchedule (leading s) ++ tail ∧ (tail = [] ∨ ∃ e s', tail = .fail e :: s') := by
  induction s with
  | nil => exact ⟨[], rfl, .inl rfl⟩
  | cons x s ih =>
    cases x with
    | fail e => exact ⟨.fail e :: s, rfl, .inr ⟨e, s, rfl⟩⟩
    | chunk bs =>
      obtain ⟨tail, hs, htail⟩ := ih
      exact ⟨tail, congrArg (Schedule.Event.chunk bs :: ·) hs, htail⟩

/-- A request that is served comes off the leading chunks. -/
theorem flatten_leading_read {n : ℕ} {s s' : List (Schedule.Event α ε)} {bs : List α}
    (h : Schedule.read n s = (.ok bs, s')) :
    (leading s).flatten = bs ++ (leading s').flatten := by
  cases s with
  | nil =>
    obtain ⟨rfl, rfl⟩ : [] = bs ∧ [] = s' := by simpa [Schedule.read] using h
    rfl
  | cons x s =>
    cases x with
    | fail e => simp [Schedule.read] at h
    | chunk cs =>
      simp only [Schedule.read] at h
      split_ifs at h with hn
      · obtain ⟨rfl, rfl⟩ : cs = bs ∧ s = s' := by simpa using h
        rfl
      · obtain ⟨rfl, rfl⟩ : cs.take n = bs ∧ .chunk (cs.drop n) :: s = s' := by simpa using h
        simp only [leading, List.flatten_cons, ← List.append_assoc, List.take_append_drop]

/-- Without an error to ask again after, the leading chunks are what comes before the end. -/
theorem lead_eq_leading {retry : ε → Bool} {s : List (Schedule.Event α ε)}
    (hne : Schedule.NonemptyChunks s) (hs : ∀ e, .fail e ∈ s → retry e = false) :
    Schedule.lead retry s = (leading s).flatten := by
  induction s with
  | nil => rfl
  | cons x s ih =>
    cases x with
    | fail e => simp [Schedule.lead, leading, hs e List.mem_cons_self]
    | chunk bs =>
      simp only [Schedule.lead, leading, if_neg hne.head, List.flatten_cons]
      rw [ih hne.tail fun e he => hs e (List.mem_cons_of_mem _ he)]

/-- What a request takes off the front of the stream. -/
theorem take_head (n : ℕ) (c : List α) (cs : List (List α)) :
    c.take n = (c :: cs).flatten.take (min n c.length) := by
  rw [List.flatten_cons, List.take_append_of_le_length (Nat.min_le_right _ _)]
  exact List.take_eq_take_min

theorem read_toSchedule (n : ℕ) {c : List α} {cs : List (List α)} (h : Nonempty (c :: cs))
    (tail : List (Schedule.Event α ε)) :
    Schedule.read n (toSchedule (c :: cs) ++ tail) =
      (.ok (c.take n), toSchedule (advance (min n c.length) (c :: cs)) ++ tail) := by
  simp only [toSchedule, List.map_cons, List.cons_append, Schedule.read, advance]
  split_ifs with hn hmin hmin
  · rw [List.take_of_length_le hn, min_eq_right hn, Nat.sub_self, advance_zero h.tail]
  · omega
  · omega
  · rw [min_eq_left (by omega), List.map_cons, List.cons_append]

/-- A request for elements that are there is served, whatever the chunks. -/
theorem readExact_toSchedule (retry : ε → Bool) {n : ℕ} {cs : List (List α)} (h : Nonempty cs)
    (hn : n ≤ cs.flatten.length) :
    Schedule.readExact retry n (toSchedule cs) =
      (cs.flatten.take n, .ok (), toSchedule (advance n cs)) := by
  induction cs generalizing n with
  | nil =>
    obtain rfl : n = 0 := by simpa using hn
    rfl
  | cons c cs ih =>
    cases n with
    | zero => rw [advance_zero h, Schedule.readExact.eq_1, List.take_zero]
    | succ n =>
      rw [List.flatten_cons, List.length_append] at hn
      simp only [toSchedule, List.map_cons, Schedule.readExact, if_neg (h c List.mem_cons_self),
        advance, List.flatten_cons]
      split_ifs with hle
      · have hrest := ih h.tail (n := n + 1 - c.length) (by omega)
        simp only [toSchedule] at hrest
        rw [hrest, List.take_append, List.take_of_length_le hle]
      · rw [List.take_append_of_le_length (by omega), List.map_cons]

/-! ## Windows -/

theorem window_of_le {size need k : ℕ} (h : need ≤ k) (cs : List (List α)) :
    window size need k cs = k := by
  cases cs with
  | nil => rfl
  | cons c cs => rw [window, if_pos h]

section

variable {size need k : ℕ} {cs : List (List α)}

theorem le_window (hsize : need ≤ size) (hneed : need ≤ k + cs.flatten.length) :
    need ≤ window size need k cs := by
  induction cs generalizing k with
  | nil => simpa [window] using hneed
  | cons c cs ih =>
    rw [window]
    split_ifs with h
    · exact h
    · apply ih
      rw [List.flatten_cons, List.length_append] at hneed
      omega

theorem start_le_window (need : ℕ) (cs : List (List α)) (hk : k ≤ size) :
    k ≤ window size need k cs := by
  induction cs generalizing k with
  | nil => exact le_rfl
  | cons c cs ih =>
    rw [window]
    split_ifs with h
    · exact le_rfl
    · exact le_trans (by omega) (ih (Nat.min_le_left _ _))

theorem window_le_size (hk : k ≤ size) : window size need k cs ≤ size := by
  induction cs generalizing k with
  | nil => exact hk
  | cons c cs ih =>
    rw [window]
    split_ifs with h
    · exact hk
    · exact ih (Nat.min_le_left _ _)

theorem window_le_stream (size need k : ℕ) (cs : List (List α)) :
    window size need k cs ≤ k + cs.flatten.length := by
  induction cs generalizing k with
  | nil => simp [window]
  | cons c cs ih =>
    rw [window, List.flatten_cons, List.length_append]
    split_ifs with h
    · omega
    · refine (ih (min size (k + c.length))).trans ?_
      omega

/-- One request on the way. -/
theorem window_step {c : List α} (h : Nonempty (c :: cs)) (hk : k < need) (hsize : need ≤ size) :
    window size need k (c :: cs) = window size need (k + min (size - k) c.length)
      (advance (min (size - k) c.length) (c :: cs)) := by
  rw [window, if_neg (not_le.2 hk)]
  rcases le_total c.length (size - k) with hfit | hfull
  · rw [min_eq_right hfit, min_eq_right (by omega), advance, if_pos le_rfl, Nat.sub_self,
      advance_zero h.tail]
  · rw [min_eq_left hfull, min_eq_left (by omega), Nat.add_sub_cancel' (by omega),
      window_of_le hsize, window_of_le hsize]

/-- A chunk end that is far enough is not passed. -/
theorem window_le_of_mem_ends {b : ℕ} (hb : b ∈ ends cs) (hneed : need ≤ k + b) :
    window size need k cs ≤ k + b := by
  induction cs generalizing k b with
  | nil => simp [ends] at hb
  | cons c cs ih =>
    rw [window]
    split_ifs with h
    · omega
    · simp only [ends, List.mem_cons, List.mem_map] at hb
      rcases le_total (k + c.length) size with hfit | hfull
      · rw [min_eq_right hfit]
        rcases hb with rfl | ⟨x, hx, rfl⟩
        · rw [window_of_le hneed]
        · exact (ih hx (by omega)).trans (by omega)
      · refine (window_le_size (Nat.min_le_left _ _)).trans ?_
        rcases hb with rfl | ⟨x, hx, rfl⟩ <;> omega

/-- It stops at the end of a chunk, unless it was far enough before or is full. -/
theorem window_cases (size need k : ℕ) (cs : List (List α)) :
    window size need k cs = k ∨ size ≤ window size need k cs ∨
      ∃ b ∈ ends cs, window size need k cs = k + b := by
  induction cs generalizing k with
  | nil => exact .inl rfl
  | cons c cs ih =>
    rw [window]
    split_ifs with h
    · exact .inl rfl
    · simp only [ends, List.mem_cons, List.mem_map]
      rcases le_total (k + c.length) size with hfit | hfull
      · rw [min_eq_right hfit]
        rcases ih (k + c.length) with heq | hle | ⟨b, hb, heq⟩
        · exact .inr (.inr ⟨_, .inl rfl, heq⟩)
        · exact .inr (.inl hle)
        · exact .inr (.inr ⟨_, .inr ⟨b, hb, rfl⟩, by omega⟩)
      · exact .inr (.inl (start_le_window need cs (Nat.min_le_left _ _) |>.trans' (by omega)))

end

end Chunks
