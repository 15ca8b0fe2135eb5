import Mcutt.Sync.Read

/-!
# Rounds of `consume` and `read`

What a receiver does to its reader, call after call.  From chunks that make up whole frames the
rounds return these frames one by one, unless a frame shorter than the window is followed, before
the next chunk boundary, by bytes the window takes with it (`Reader.rounds_deliver_iff`).
-/

namespace Mcutt

open Machine

section

variable {R : Type} [Target] [Read R]

/-- One round. -/
def Reader.round : ReaderM R (List UInt8) := do
  consume
  read

/-- What `n` rounds return. -/
def Reader.rounds (n : ℕ) (r : Reader R) : List (Exec (List UInt8)) :=
  (log isPanic (fun _ => round) (List.replicate n ()) r).map Call.result

def View.round : ViewM R (List UInt8) := do
  consume
  read

def View.rounds (n : ℕ) (v : View R) : List (Exec (List UInt8)) :=
  (log isPanic (fun _ => round) (List.replicate n ()) v).map Call.result

theorem round_simulates : Simulates (Shows (R := R)) Shows Reader.round View.round :=
  consume_simulates.bind (fun _ _ h => h) fun _ => read_simulates

theorem Shows.rounds_eq {r : Reader R} {v : View R} (h : Shows r v) (n : ℕ) :
    r.rounds n = v.rounds n :=
  Simulates.results_eq (fun _ => round_simulates) _ h

omit [Read R] in
/-- A new reader holds nothing. -/
theorem shows_withCapacity {inner : R} {capacity : ℕ} {r : Reader R}
    (h : Reader.withCapacity inner capacity = some r) :
    Shows r ⟨capacity, [], none, inner⟩ := by
  unfold Reader.withCapacity at h
  split_ifs at h with hmin
  obtain rfl := Option.some.inj h
  refine ⟨⟨?_, le_rfl, Nat.zero_le _, by simp⟩, ?_⟩
  · simpa using hmin
  · simp [Reader.view, Reader.pending]

omit [Target] [Read R] in
theorem exists_withCapacity (inner : R) {capacity : ℕ} (h : Reader.MIN ≤ capacity) :
    ∃ r, Reader.withCapacity inner capacity = some r := ⟨_, if_neg (not_lt.2 h)⟩

end

/-! ## Frames in chunks -/

/-- Every frame shorter than the window has a chunk boundary after its header, at its end at the
latest. -/
def Separated (chunks frames : List (List UInt8)) : Prop :=
  ∀ before p after, frames = before ++ p :: after → p.length < Reader.MIN →
    ∃ b ∈ Chunks.ends chunks, before.flatten.length + FixedHeader.headerLength p ≤ b ∧
      b ≤ before.flatten.length + p.length

theorem separated_nil (chunks : List (List UInt8)) : Separated chunks [] := by
  rintro (_ | ⟨q, before⟩) p after h
  · cases h
  · cases h

theorem separated_cons {chunks frames : List (List UInt8)} {p : List UInt8}
    (hne : Chunks.Nonempty chunks) :
    Separated chunks (p :: frames) ↔
      (p.length < Reader.MIN → ∃ b ∈ Chunks.ends chunks, FixedHeader.headerLength p ≤ b ∧
        b ≤ p.length) ∧ Separated (Chunks.advance p.length chunks) frames := by
  constructor
  · intro h
    refine ⟨fun hp => by simpa using h [] p frames rfl hp, ?_⟩
    rintro before q after rfl hq
    obtain ⟨b, hb, hlow, hhigh⟩ := h (p :: before) q after rfl hq
    simp only [List.flatten_cons, List.length_append] at hlow hhigh
    have h2 : 2 ≤ FixedHeader.headerLength q := Nat.le_add_left 2 _
    refine ⟨b - p.length, (Chunks.mem_ends_advance hne _ _).2 ⟨by omega, ?_⟩, by omega, by omega⟩
    rwa [show p.length + (b - p.length) = b by omega]
  · rintro ⟨hhead, htail⟩ (_ | ⟨q, before⟩) p' after heq hp'
    · obtain ⟨rfl, rfl⟩ := List.cons.inj heq
      simpa using hhead hp'
    · obtain ⟨rfl, rfl⟩ := List.cons.inj heq
      obtain ⟨b, hb, hlow, hhigh⟩ := htail before p' after rfl hp'
      refine ⟨p.length + b, ((Chunks.mem_ends_advance hne _ _).1 hb).2, ?_, ?_⟩
      all_goals
        simp only [List.flatten_cons, List.length_append]
        omega

section

variable [Target]

/-- The window does not pass the end of a frame if a chunk ends between its header and its end, or
if the frame is as long as the window. -/
theorem window_le_iff {chunks : List (List UInt8)} {p : List UInt8}
    (hp : FixedHeader.nextFrame p = .ok (some p.length))
    (hle : p.length ≤ chunks.flatten.length) :
    Chunks.window Reader.MIN (FixedHeader.headerLength p) 0 chunks ≤ p.length ↔
      (p.length < Reader.MIN → ∃ b ∈ Chunks.ends chunks, FixedHeader.headerLength p ≤ b ∧
        b ≤ p.length) := by
  obtain ⟨hmin, hhead, -⟩ := FixedHeader.headerLength_le hp
  replace hmin : FixedHeader.headerLength p ≤ Reader.MIN := hmin
  constructor
  · intro hw hshort
    have h2 : 2 ≤ FixedHeader.headerLength p := Nat.le_add_left 2 _
    have hneed : FixedHeader.headerLength p ≤
        Chunks.window Reader.MIN (FixedHeader.headerLength p) 0 chunks :=
      Chunks.le_window hmin (by omega)
    rcases Chunks.window_cases Reader.MIN (FixedHeader.headerLength p) 0 chunks with
      h0 | hfull | ⟨b, hb, heq⟩
    · omega
    · omega
    · exact ⟨b, hb, by omega, by omega⟩
  · intro hends
    by_cases hshort : p.length < Reader.MIN
    · obtain ⟨b, hb, hlow, hhigh⟩ := hends hshort
      have hw : Chunks.window Reader.MIN (FixedHeader.headerLength p) 0 chunks ≤ 0 + b :=
        Chunks.window_le_of_mem_ends hb (by omega)
      omega
    · exact (Chunks.window_le_size (Nat.zero_le _)).trans (not_lt.1 hshort)

/-- The rounds return the frames exactly if the short ones are separated. -/
theorem View.rounds_eq_iff {frames chunks : List (List UInt8)} {capacity : ℕ} {v : View Input}
    (hv : View.consume v = .ok ⟨⟩ ⟨capacity, [], none, Chunks.toSchedule chunks⟩)
    (hne : Chunks.Nonempty chunks) (hstream : chunks.flatten = frames.flatten)
    (hframes : ∀ p ∈ frames, FixedHeader.nextFrame p = .ok (some p.length) ∧
      p.length ≤ capacity) :
    v.rounds frames.length = frames.map .ok ↔ Separated chunks frames := by
  induction frames generalizing v chunks with
  | nil => exact iff_of_true rfl (separated_nil chunks)
  | cons p frames ih =>
    obtain ⟨hp, hcap⟩ := hframes p List.mem_cons_self
    have hle : p.length ≤ chunks.flatten.length := by simp [hstream]
    have hread := @View.read_chunks _ ⟨capacity, [], none, Chunks.toSchedule chunks⟩ chunks p.length
      (p ++ frames.flatten) rfl hstream.symm rfl hne (FixedHeader.nextFrame_append hp _)
      (Nat.succ_pos _) hcap (by simp)
    rw [FixedHeader.headerLength_append hp] at hread
    simp only [List.length_nil, Nat.sub_zero] at hread
    have hround : View.round v = View.read ⟨capacity, [], none, Chunks.toSchedule chunks⟩ := by
      simp only [View.round, bind_apply, hv]
    rw [separated_cons hne, ← window_le_iff hp hle]
    simp only [View.rounds, List.length_cons, List.replicate_succ, log, List.map_cons, hround,
      hread, outcome_ok, final_ok, isPanic, Bool.false_eq_true, if_false, List.cons.injEq,
      Except.ok.injEq]
    by_cases hw : Chunks.window Reader.MIN (FixedHeader.headerLength p) 0 chunks ≤ p.length
    · have hconsume : View.consume (⟨capacity, p, some p.length,
          Chunks.toSchedule (Chunks.advance p.length chunks)⟩ : View Input) = .ok ⟨⟩ ⟨capacity, [],
            none, Chunks.toSchedule (Chunks.advance p.length chunks)⟩ := by
        simp [View.consume]
      have hrest' : (Chunks.advance p.length chunks).flatten = frames.flatten := by
        rw [Chunks.flatten_advance, hstream, List.flatten_cons, List.drop_left]
      rw [max_eq_left hw, List.take_left]
      exact and_congr (iff_of_true rfl hw) (ih hconsume (hne.advance _) hrest'
        fun q hq => hframes q (List.mem_cons_of_mem _ hq))
    · refine iff_of_false ?_ fun h => hw h.1
      rintro ⟨htake, -⟩
      have hstream' := Chunks.window_le_stream Reader.MIN (FixedHeader.headerLength p) 0 chunks
      have hlen := congrArg List.length htake
      rw [hstream, List.flatten_cons, Nat.zero_add] at hstream'
      rw [max_eq_right (by omega), List.length_take, min_eq_left hstream'] at hlen
      exact hw hlen.le

/-- A new reader returns the frames of its stream, one a round, exactly if every frame shorter than
the window ends at or after a chunk boundary behind its header. -/
theorem Reader.rounds_deliver_iff {frames chunks : List (List UInt8)} {capacity : ℕ} {r : Reader Input}
    (hr : Reader.withCapacity (Chunks.toSchedule chunks) capacity = some r)
    (hne : Chunks.Nonempty chunks) (hstream : chunks.flatten = frames.flatten)
    (hframes : ∀ p ∈ frames, FixedHeader.nextFrame p = .ok (some p.length) ∧
      p.length ≤ r.buf.length) :
    r.rounds frames.length = frames.map .ok ↔ Separated chunks frames := by
  have hshows := shows_withCapacity hr
  have hcap : r.buf.length = capacity := congrArg View.capacity hshows.2
  rw [hshows.rounds_eq]
  exact View.rounds_eq_iff rfl hne hstream (hcap ▸ hframes)

end

theorem rounds_deliver_iff_two :
    letI := Target.debug
    letI chunks : List (List UInt8) := [[0xD0, 0], [0x40, 5], [0, 1, 9, 9, 9]]
    letI r : Reader Input := ⟨[0, 0, 0, 0, 0, 0, 0], 0, none, 0, Chunks.toSchedule chunks⟩
    r.rounds 2 = [.ok [0xD0, 0], .ok [0x40, 5, 0, 1, 9, 9, 9]] ↔
      Separated chunks [[0xD0, 0], [0x40, 5, 0, 1, 9, 9, 9]] := by
  exact @Reader.rounds_deliver_iff Target.debug [[0xD0, 0], [0x40, 5, 0, 1, 9, 9, 9]] _ 7 _ rfl
    (by decide) rfl (by decide)

/-- Two PINGRESP that arrive at once are returned as one frame. -/
theorem coalesced_pings :
    letI := Target.debug
    ∃ r : Reader Input,
      Reader.withCapacity (Chunks.toSchedule [[0xD0, 0, 0xD0, 0]]) 8192 = some r ∧
      (∀ p ∈ [[0xD0, 0], [0xD0, 0]], FixedHeader.nextFrame p = .ok (some p.length) ∧
        p.length ≤ r.buf.length) ∧
      r.rounds 2 ≠ [.ok [0xD0, 0], .ok [0xD0, 0]] := by
  let := Target.debug
  obtain ⟨r, hr⟩ := exists_withCapacity (R := Input) (Chunks.toSchedule [[0xD0, 0, 0xD0, 0]])
    (by decide : Reader.MIN ≤ 8192)
  have hshows := shows_withCapacity hr
  have hcap : r.buf.length = 8192 := congrArg View.capacity hshows.2
  refine ⟨r, hr, ?_, ?_⟩
  · rw [hcap]
    decide
  · rw [hshows.rounds_eq]
    decide

end Mcutt
