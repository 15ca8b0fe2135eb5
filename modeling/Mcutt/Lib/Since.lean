import Mcutt.Lib.Machine

/-!
# What happened since

A flag that some calls of a run set and others clear says whether a call that sets it was made
since the last one that clears it (`flag_iff_since`).
-/

namespace Machine

variable {ι ε σ α : Type}

/-- There is a call that sets, and none behind it clears. -/
def Since (sets clears : Call ι ε σ α → Prop) (calls : List (Call ι ε σ α)) : Prop :=
  ∃ before c after, calls = before ++ c :: after ∧ sets c ∧ ∀ d ∈ after, ¬ clears d

/-- A call of a program. -/
def Call.of (step : ι → EStateM ε σ α) (i : ι) (s : σ) : Call ι ε σ α :=
  ⟨i, s, outcome (step i s), final (step i s)⟩

theorem eq_of_log {halts : Except ε α → Bool} {step : ι → EStateM ε σ α} {inputs : List ι} {s : σ}
    {c : Call ι ε σ α} (hc : c ∈ log halts step inputs s) : c = .of step c.input c.before := by
  obtain ⟨hresult, hafter⟩ := call_of_log hc
  rw [Call.of, ← hresult, ← hafter]

variable {sets clears : Call ι ε σ α → Prop} {calls : List (Call ι ε σ α)} {c : Call ι ε σ α}

theorem not_since_nil : ¬ Since sets clears [] := by
  rintro ⟨before, c, after, h, -⟩
  simp at h

theorem since_concat_iff :
    Since sets clears (calls ++ [c]) ↔ sets c ∨ (Since sets clears calls ∧ ¬ clears c) := by
  constructor
  · rintro ⟨before, d, after, h, hd, hafter⟩
    rcases after.eq_nil_or_concat with rfl | ⟨after, e, rfl⟩
    · obtain ⟨-, h⟩ := List.append_inj' h rfl
      obtain rfl : c = d := by simpa using h
      exact .inl hd
    · rw [List.concat_eq_append, ← List.cons_append, ← List.append_assoc] at h
      obtain ⟨rfl, h⟩ := List.append_inj' h rfl
      obtain rfl : c = e := by simpa using h
      refine .inr ⟨⟨before, d, after, rfl, hd, fun d hd => hafter d ?_⟩, hafter c ?_⟩
      · simp [hd]
      · simp
  · rintro (hc | ⟨⟨before, d, after, rfl, hd, hafter⟩, hc⟩)
    · exact ⟨calls, c, [], rfl, hc, by simp⟩
    · refine ⟨before, d, after ++ [c], by simp, hd, fun e he => ?_⟩
      rcases List.mem_append.1 he with he | he
      · exact hafter e he
      · obtain rfl := List.mem_singleton.1 he
        exact hc

/-- Behind a call that clears, a call that sets has been made. -/
theorem Since.exists_mem {pre mid : List (Call ι ε σ α)} (h : Since sets clears (pre ++ c :: mid))
    (hclears : clears c) (hsets : ¬ sets c) : ∃ d ∈ mid, sets d := by
  induction mid using List.reverseRecOn with
  | nil =>
    rcases since_concat_iff.1 h with hc | ⟨-, hc⟩
    · exact absurd hc hsets
    · exact absurd hclears hc
  | append_singleton mid d ih =>
    rw [← List.cons_append, ← List.append_assoc, since_concat_iff] at h
    rcases h with hd | ⟨h, -⟩
    · exact ⟨d, by simp, hd⟩
    · obtain ⟨e, he, hse⟩ := ih h
      exact ⟨e, List.mem_append_left _ he, hse⟩

/-- A flag that is clear at first, and that every call sets, clears or leaves as it is. -/
theorem flag_iff_since (flag : σ → Prop) {halts : Except ε α → Bool} {step : ι → EStateM ε σ α}
    (hstep : ∀ i s, flag (final (step i s)) ↔
      sets (.of step i s) ∨ (flag s ∧ ¬ clears (.of step i s)))
    {inputs : List ι} {s : σ} (hs : ¬ flag s) {pre post : List (Call ι ε σ α)}
    (hlog : log halts step inputs s = pre ++ c :: post) :
    flag c.before ↔ Since sets clears pre := by
  have general (inputs : List ι) : ∀ (s : σ) (made pre : List (Call ι ε σ α)),
      (flag s ↔ Since sets clears made) → log halts step inputs s = pre ++ c :: post →
      (flag c.before ↔ Since sets clears (made ++ pre)) := by
    induction inputs with
    | nil =>
      intro s made pre _ hlog
      simp [log] at hlog
    | cons i inputs ih =>
      intro s made pre hmade hlog
      rw [log] at hlog
      cases pre with
      | nil =>
        obtain ⟨rfl, -⟩ := List.cons.inj hlog
        rw [List.append_nil]
        exact hmade
      | cons d pre =>
        obtain ⟨rfl, hrest⟩ := List.cons.inj hlog
        split_ifs at hrest
        · simp at hrest
        · have hnext := ih _ (made ++ [.of step i s]) pre
            ((hstep i s).trans (by rw [since_concat_iff, hmade])) hrest
          rwa [List.append_assoc] at hnext
  exact general inputs s [] pre (iff_of_false hs not_since_nil) hlog

end Machine
