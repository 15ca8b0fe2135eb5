import Mathlib.Tactic

/-!
# Cutting a stream into frames

A stream is a list, and `next` looks at its front and says how long the first frame is, that it
cannot say yet, or that no frame starts there.  A frame is `IsFrame` when `next` announces its
length whatever follows it; a concatenation of such frames is cut back into them
(`frames_flatten`).  A stream that is one stays one if a whole frame is added to it, and not if a
part of one is (`IsStream.append_iff`).
-/

namespace Framing

variable {α ε : Type}

/-- Cut frames off the front, at most `fuel` of them, as long as a whole one is there. -/
def cut (next : List α → Except ε (Option ℕ)) : ℕ → List α → Except ε (List (List α) × List α)
  | 0, b => .ok ([], b)
  | fuel + 1, b =>
    match next b with
    | .error e => .error e
    | .ok none => .ok ([], b)
    | .ok (some n) =>
      if n ≤ b.length then
        match cut next fuel (b.drop n) with
        | .error e => .error e
        | .ok (frames, rest) => .ok (b.take n :: frames, rest)
      else .ok ([], b)

/-- The frames at the front of a stream, and what is left. -/
def frames (next : List α → Except ε (Option ℕ)) (b : List α) :
    Except ε (List (List α) × List α) := cut next b.length b

/-- A frame is announced as such whatever follows it. -/
structure IsFrame (next : List α → Except ε (Option ℕ)) (p : List α) : Prop where
  nonempty : p ≠ []
  announced : ∀ rest, next (p ++ rest) = .ok (some p.length)

theorem length_le_flatten {next : List α → Except ε (Option ℕ)} {ps : List (List α)}
    (h : ∀ p ∈ ps, IsFrame next p) : ps.length ≤ ps.flatten.length := by
  induction ps with
  | nil => simp
  | cons p ps ih =>
    have ih := ih fun q hq => h q (List.mem_cons_of_mem _ hq)
    have pos := List.length_pos_iff.2 (h p List.mem_cons_self).nonempty
    rw [List.flatten_cons, List.length_append, List.length_cons]
    omega

theorem cut_flatten {next : List α → Except ε (Option ℕ)} (hnil : next [] = .ok none)
    {ps : List (List α)} (h : ∀ p ∈ ps, IsFrame next p) {fuel : ℕ} (hfuel : ps.length ≤ fuel) :
    cut next fuel ps.flatten = .ok (ps, []) := by
  induction ps generalizing fuel with
  | nil => cases fuel <;> simp [cut, hnil]
  | cons p ps ih =>
    obtain ⟨fuel, rfl⟩ : ∃ k, fuel = k + 1 := ⟨fuel - 1, by rw [List.length_cons] at hfuel; omega⟩
    have ih := ih (fun q hq => h q (List.mem_cons_of_mem _ hq)) (Nat.le_of_succ_le_succ hfuel)
    have hp := (h p List.mem_cons_self).announced ps.flatten
    have hle : p.length ≤ (p ++ ps.flatten).length := by simp
    simp only [List.flatten_cons, cut, hp, if_pos hle, List.drop_left, List.take_left, ih]

/-- A concatenation of frames is cut into exactly these frames. -/
theorem frames_flatten {next : List α → Except ε (Option ℕ)} (hnil : next [] = .ok none)
    {ps : List (List α)} (h : ∀ p ∈ ps, IsFrame next p) :
    frames next ps.flatten = .ok (ps, []) :=
  cut_flatten hnil h (length_le_flatten h)

/-! ## Streams of whole frames -/

/-- A concatenation of frames. -/
def IsStream (next : List α → Except ε (Option ℕ)) (b : List α) : Prop :=
  ∃ ps : List (List α), b = ps.flatten ∧ ∀ p ∈ ps, IsFrame next p

variable {next : List α → Except ε (Option ℕ)}

theorem isStream_nil : IsStream next [] := ⟨[], rfl, by simp⟩

/-- Only one frame starts at the front of a stream. -/
theorem IsFrame.append_inj {p q a b : List α} (hp : IsFrame next p) (hq : IsFrame next q)
    (h : p ++ a = q ++ b) : p = q ∧ a = b := by
  have hlen := hp.announced a
  rw [h, hq.announced b] at hlen
  exact List.append_inj h (Option.some.inj (Except.ok.inj hlen)).symm

theorem IsFrame.isStream_prefix_iff {p f : List α} (hp : IsFrame next p) (hf : f <+: p) :
    IsStream next f ↔ f = [] ∨ f = p := by
  constructor
  · rintro ⟨ps, rfl, hps⟩
    cases ps with
    | nil => exact .inl rfl
    | cons q ps =>
      obtain ⟨rest, hrest⟩ := hf
      rw [List.flatten_cons, List.append_assoc, ← List.append_nil p] at hrest
      obtain ⟨rfl, hnil⟩ := (hps q List.mem_cons_self).append_inj hp hrest
      rw [List.append_eq_nil_iff] at hnil
      rw [List.flatten_cons, hnil.1, List.append_nil]
      exact .inr rfl
  · rintro (rfl | rfl)
    · exact isStream_nil
    · exact ⟨[f], by simp, by simpa using hp⟩

theorem isStream_flatten_append {ps : List (List α)} (h : ∀ p ∈ ps, IsFrame next p)
    (f : List α) : IsStream next (ps.flatten ++ f) ↔ IsStream next f := by
  induction ps with
  | nil => rfl
  | cons p ps ih =>
    obtain ⟨hp, hps⟩ := List.forall_mem_cons.1 h
    rw [← ih hps, List.flatten_cons, List.append_assoc]
    constructor
    · rintro ⟨qs, heq, hqs⟩
      cases qs with
      | nil => exact absurd (List.append_eq_nil_iff.1 heq).1 hp.nonempty
      | cons q qs =>
        obtain ⟨-, hrest⟩ := hp.append_inj (hqs q List.mem_cons_self) heq
        exact ⟨qs, hrest, fun r hr => hqs r (List.mem_cons_of_mem _ hr)⟩
    · rintro ⟨qs, heq, hqs⟩
      exact ⟨p :: qs, by rw [heq, List.flatten_cons], List.forall_mem_cons.2 ⟨hp, hqs⟩⟩

/-- Adding the front of a frame keeps a stream of whole frames if nothing or all of it is added. -/
theorem IsStream.append_iff {b p f : List α} (hb : IsStream next b) (hp : IsFrame next p)
    (hf : f <+: p) : IsStream next (b ++ f) ↔ f = [] ∨ f = p := by
  obtain ⟨ps, rfl, hps⟩ := hb
  rw [isStream_flatten_append hps, hp.isStream_prefix_iff hf]

theorem IsStream.frames_eq {b : List α} (hnil : next [] = .ok none) (h : IsStream next b) :
    ∃ ps, frames next b = .ok (ps, []) := by
  obtain ⟨ps, rfl, hps⟩ := h
  exact ⟨ps, frames_flatten hnil hps⟩

end Framing
