import Mathlib.Tactic

/-!
# Programs over a state, and their runs

A program changes a state and returns, or fails and keeps the state it had reached.  A run calls
one program after the other, whether the calls before it returned or failed, until one halts it.
The file has the two rules by which a run is reasoned about: an invariant of every call is an
invariant of the run (`invariant_of_log`), and a program that is simulated by another one has the
same log up to the relation of the states (`Simulates.log`).  `Simulates` is built from the parts
of a program by one rule for each way to combine them.
-/

namespace Machine

variable {ι ε σ τ α β : Type}

/-- How a program ended. -/
def outcome : EStateM.Result ε σ α → Except ε α
  | .ok a _ => .ok a
  | .error e _ => .error e

/-- The state a program left. -/
def final : EStateM.Result ε σ α → σ
  | .ok _ s => s
  | .error _ s => s

@[simp] theorem outcome_ok (a : α) (s : σ) : outcome (.ok a s : EStateM.Result ε σ α) = .ok a := rfl
@[simp] theorem outcome_error (e : ε) (s : σ) :
    outcome (.error e s : EStateM.Result ε σ α) = .error e := rfl
@[simp] theorem final_ok (a : α) (s : σ) : final (.ok a s : EStateM.Result ε σ α) = s := rfl
@[simp] theorem final_error (e : ε) (s : σ) : final (.error e s : EStateM.Result ε σ α) = s := rfl

theorem outcome_eq_ok {x : EStateM.Result ε σ α} {a : α} :
    outcome x = .ok a ↔ ∃ s, x = .ok a s := by
  cases x <;> simp [eq_comm]

/-! ## Running a program -/

@[simp]
theorem bind_apply (x : EStateM ε σ α) (f : α → EStateM ε σ β) (s : σ) :
    (x >>= f) s = match x s with
      | .ok a s' => f a s'
      | .error e s' => .error e s' := rfl

@[simp] theorem pure_apply (a : α) (s : σ) : (pure a : EStateM ε σ α) s = .ok a s := rfl
@[simp] theorem throw_apply (e : ε) (s : σ) : (throw e : EStateM ε σ α) s = .error e s := rfl
@[simp] theorem get_apply (s : σ) : (get : EStateM ε σ σ) s = .ok s s := rfl
@[simp] theorem set_apply (s s' : σ) : (set s' : EStateM ε σ PUnit) s = .ok ⟨⟩ s' := rfl
@[simp] theorem modify_apply (f : σ → σ) (s : σ) :
    (modify f : EStateM ε σ PUnit) s = .ok ⟨⟩ (f s) := rfl

/-! ## Rules -/

/-- From `P`, a program that returns ends in `Q` of what it returns, and one that fails in `E`. -/
def Triple (P : σ → Prop) (x : EStateM ε σ α) (Q : α → σ → Prop) (E : σ → Prop) : Prop :=
  ∀ s, P s → match x s with
    | .ok a s' => Q a s'
    | .error _ s' => E s'

namespace Triple

variable {P E : σ → Prop} {Q : α → σ → Prop} {x : EStateM ε σ α}

theorem pure {a : α} (h : ∀ s, P s → Q a s) : Triple P (pure a : EStateM ε σ α) Q E := h

theorem throw {e : ε} (h : ∀ s, P s → E s) : Triple P (throw e : EStateM ε σ α) Q E := h

theorem bind {S : β → σ → Prop} {f : α → EStateM ε σ β} (hx : Triple P x Q E)
    (hf : ∀ a, Triple (Q a) (f a) S E) : Triple P (x >>= f) S E := by
  intro s hs
  have hstep := hx s hs
  rw [bind_apply]
  cases heq : x s with
  | ok a s' =>
    rw [heq] at hstep
    exact hf a s' hstep
  | error e s' =>
    rw [heq] at hstep
    exact hstep

end Triple

/-! ## Simulation -/

/-- Two programs ended alike, in states related by `Q` if they returned and by `P` if they
failed. -/
inductive Agree (P Q : σ → τ → Prop) : EStateM.Result ε σ α → EStateM.Result ε τ α → Prop where
  | ok {s : σ} {t : τ} (a : α) (h : Q s t) : Agree P Q (.ok a s) (.ok a t)
  | error {s : σ} {t : τ} (e : ε) (h : P s t) : Agree P Q (.error e s) (.error e t)

theorem Agree.cases {P Q : σ → τ → Prop} {x : EStateM.Result ε σ α} {y : EStateM.Result ε τ α}
    (h : Agree P Q x y) : (∃ a s t, x = .ok a s ∧ y = .ok a t ∧ Q s t) ∨
      (∃ e s t, x = .error e s ∧ y = .error e t ∧ P s t) := by
  cases h with
  | ok a h => exact .inl ⟨a, _, _, rfl, rfl, h⟩
  | error e h => exact .inr ⟨e, _, _, rfl, rfl, h⟩

theorem Agree.weaken {P P' Q Q' : σ → τ → Prop} {x : EStateM.Result ε σ α}
    {y : EStateM.Result ε τ α} (h : Agree P Q x y) (hP : ∀ s t, P s t → P' s t)
    (hQ : ∀ s t, Q s t → Q' s t) : Agree P' Q' x y := by
  cases h with
  | ok a h => exact .ok a (hQ _ _ h)
  | error e h => exact .error e (hP _ _ h)

theorem Agree.refl {P Q : σ → σ → Prop} (hP : ∀ s, P s s) (hQ : ∀ s, Q s s)
    (x : EStateM.Result ε σ α) : Agree P Q x x := by
  cases x with
  | ok a s => exact .ok a (hQ s)
  | error e s => exact .error e (hP s)

theorem Agree.bind {P Q Q' : σ → τ → Prop} {x : EStateM ε σ α} {y : EStateM ε τ α}
    {f : α → EStateM ε σ β} {g : α → EStateM ε τ β} {s : σ} {t : τ} (hxy : Agree P Q (x s) (y t))
    (hfg : ∀ a s t, Q s t → Agree P Q' (f a s) (g a t)) :
    Agree P Q' ((x >>= f) s) ((y >>= g) t) := by
  rcases hxy.cases with ⟨a, s', t', hx, hy, hrel⟩ | ⟨e, s', t', hx, hy, hrel⟩
  · simp only [bind_apply, hx, hy]
    exact hfg a s' t' hrel
  · simp only [bind_apply, hx, hy]
    exact .error e hrel

theorem Agree.outcome_eq {P : σ → τ → Prop} {x : EStateM.Result ε σ α} {y : EStateM.Result ε τ α}
    (h : Agree P P x y) : outcome x = outcome y ∧ P (final x) (final y) := by
  cases h with
  | ok a h => exact ⟨rfl, h⟩
  | error e h => exact ⟨rfl, h⟩

/-- From states related by `P` the programs agree. -/
def Simulates (P Q : σ → τ → Prop) (x : EStateM ε σ α) (y : EStateM ε τ α) : Prop :=
  ∀ s t, P s t → Agree P Q (x s) (y t)

namespace Simulates

variable {P Q Q' : σ → τ → Prop} {x : EStateM ε σ α} {y : EStateM ε τ α}

theorem bind {f : α → EStateM ε σ β} {g : α → EStateM ε τ β} (hxy : Simulates P Q x y)
    (hQ : ∀ s t, Q s t → P s t) (hfg : ∀ a, Simulates Q Q' (f a) (g a)) :
    Simulates P Q' (x >>= f) (y >>= g) :=
  fun s t hst => (hxy s t hst).bind fun a s t h => (hfg a s t h).weaken hQ fun _ _ h => h

/-- A program that returns a function of what another returns. -/
theorem map (f : α → β) (hxy : Simulates P Q x y) :
    Simulates P Q (x >>= fun a => Pure.pure (f a)) (y >>= fun a => Pure.pure (f a)) :=
  fun s t hst => (hxy s t hst).bind fun a _ _ h => .ok (f a) h

theorem weaken (h : Simulates P Q x y) (hQ : ∀ s t, Q s t → Q' s t) : Simulates P Q' x y :=
  fun s t hst => (h s t hst).weaken (fun _ _ h => h) hQ

end Simulates

/-! ## Runs -/

/-- One call of a run. -/
structure Call (ι ε σ α : Type) where
  input : ι
  before : σ
  result : Except ε α
  after : σ

/-- Every call of a run, in order; a call whose result `halts` is the last one. -/
def log (halts : Except ε α → Bool) (step : ι → EStateM ε σ α) : List ι → σ → List (Call ι ε σ α)
  | [], _ => []
  | i :: inputs, s =>
    let r := step i s
    ⟨i, s, outcome r, final r⟩ ::
      (if halts (outcome r) then [] else log halts step inputs (final r))

variable {halts : Except ε α → Bool} {step : ι → EStateM ε σ α}

/-- A call that does not halt is followed by a call in the state it left. -/
theorem next_of_log {i j : ι} {inputs : List ι} {s : σ} (hi : halts (outcome (step i s)) = false) :
    ⟨j, final (step i s), outcome (step j (final (step i s))),
      final (step j (final (step i s)))⟩ ∈ log halts step (i :: j :: inputs) s := by
  rw [log, hi]
  exact List.mem_cons_of_mem _ List.mem_cons_self

/-- What holds at the start and is kept by every call that meets `P` holds before and after every
call of a run whose calls do. -/
theorem invariant_of_log {I : σ → Prop} {P : ι → σ → Prop}
    (keep : ∀ i s, I s → P i s → I (final (step i s))) {inputs : List ι} {s : σ} (h : I s)
    (hP : ∀ c ∈ log halts step inputs s, P c.input c.before) {c : Call ι ε σ α}
    (hc : c ∈ log halts step inputs s) : I c.before ∧ I c.after := by
  induction inputs generalizing s with
  | nil => simp [log] at hc
  | cons i inputs ih =>
    have hi : P i s := hP _ List.mem_cons_self
    rcases List.mem_cons.1 hc with rfl | hmem
    · exact ⟨h, keep i s h hi⟩
    · rw [log] at hP
      split_ifs at hmem hP
      · simp at hmem
      · exact ih (keep i s h hi) (fun d hd => hP d (List.mem_cons_of_mem _ hd)) hmem

/-- The calls before one are enough for what holds before it. -/
theorem invariant_before_of_log {I : σ → Prop} {P : ι → σ → Prop}
    (keep : ∀ i s, I s → P i s → I (final (step i s))) {inputs : List ι} {s : σ} (h : I s)
    {pre post : List (Call ι ε σ α)} {c : Call ι ε σ α}
    (hlog : log halts step inputs s = pre ++ c :: post) (hP : ∀ d ∈ pre, P d.input d.before) :
    I c.before := by
  induction inputs generalizing s pre with
  | nil => simp [log] at hlog
  | cons i inputs ih =>
    rw [log] at hlog
    cases pre with
    | nil =>
      obtain ⟨rfl, -⟩ := List.cons.inj hlog
      exact h
    | cons d pre =>
      obtain ⟨rfl, hrest⟩ := List.cons.inj hlog
      obtain ⟨hd, hpre⟩ := List.forall_mem_cons.1 hP
      split_ifs at hrest
      · simp at hrest
      · exact ih (keep i s h hd) hrest hpre

/-- Where `P` decides of every call whether `D` still holds after it, `D` holds before every call
of a run exactly if `P` holds of every call but the last. -/
theorem before_of_log_iff {I D : σ → Prop} {P : ι → σ → Prop}
    (keep : ∀ i s, I s → I (final (step i s)))
    (decides : ∀ i s, I s → D s → (D (final (step i s)) ↔ P i s)) {inputs : List ι} {s : σ}
    (hI : I s) (hD : D s) :
    (∀ c ∈ log halts step inputs s, D c.before) ↔
      ∀ c ∈ (log halts step inputs s).dropLast, P c.input c.before := by
  induction inputs generalizing s with
  | nil => simp [log]
  | cons i inputs ih =>
    have hstep := decides i s hI hD
    rw [log]
    split_ifs
    · simp [hD]
    · cases inputs with
      | nil => simp [log, hD]
      | cons j inputs =>
        have hne : log halts step (j :: inputs) (final (step i s)) ≠ [] := by simp [log]
        rw [List.forall_mem_cons, List.dropLast_cons_of_ne_nil hne, List.forall_mem_cons]
        by_cases hD' : D (final (step i s))
        · rw [ih (keep i s hI) hD']
          exact and_congr_left fun _ => iff_of_true hD (hstep.1 hD')
        · apply iff_of_false
          · rintro ⟨-, hrest⟩
            exact hD' (hrest _ List.mem_cons_self)
          · rintro ⟨hP, -⟩
            exact hD' (hstep.2 hP)

/-- The calls of a run are those of its script. -/
theorem input_of_log {inputs : List ι} {s : σ} {c : Call ι ε σ α}
    (hc : c ∈ log halts step inputs s) : c.input ∈ inputs := by
  induction inputs generalizing s with
  | nil => simp [log] at hc
  | cons i inputs ih =>
    rcases List.mem_cons.1 hc with rfl | hc
    · exact List.mem_cons_self
    · split_ifs at hc
      · simp at hc
      · exact List.mem_cons_of_mem _ (ih hc)

/-- A call of a run is a call of the program. -/
theorem call_of_log {inputs : List ι} {s : σ} {c : Call ι ε σ α}
    (hc : c ∈ log halts step inputs s) :
    c.result = outcome (step c.input c.before) ∧ c.after = final (step c.input c.before) := by
  induction inputs generalizing s with
  | nil => simp [log] at hc
  | cons i inputs ih =>
    rcases List.mem_cons.1 hc with rfl | hc
    · exact ⟨rfl, rfl⟩
    · split_ifs at hc
      · simp at hc
      · exact ih hc

/-- The calls behind one are a run from the state it left. -/
theorem suffix_of_log {inputs : List ι} {s : σ} {pre post : List (Call ι ε σ α)}
    {c : Call ι ε σ α} (hlog : log halts step inputs s = pre ++ c :: post) :
    ∃ rest, post = log halts step rest c.after := by
  induction inputs generalizing s pre with
  | nil => simp [log] at hlog
  | cons i inputs ih =>
    rw [log] at hlog
    cases pre with
    | nil =>
      obtain ⟨rfl, rfl⟩ := List.cons.inj hlog
      split_ifs
      · exact ⟨[], rfl⟩
      · exact ⟨inputs, rfl⟩
    | cons d pre =>
      obtain ⟨-, hrest⟩ := List.cons.inj hlog
      split_ifs at hrest
      · simp at hrest
      · exact ih hrest

/-- A program that is called again until it halts does halt, from a state in which the invariant
holds, if every call that does not halt keeps the invariant and makes the measure smaller. -/
theorem halts_of_log {x : EStateM ε σ α} {I P : σ → Prop} {μ : σ → ℕ}
    (keep : ∀ s, I s → P s → halts (outcome (x s)) = false →
      I (final (x s)) ∧ μ (final (x s)) < μ s) {fuel : ℕ} {s : σ} (hI : I s) (hfuel : μ s < fuel)
    (hP : ∀ c ∈ log halts (fun _ => x) (List.replicate fuel ()) s, P c.before) :
    ∃ c, (log halts (fun _ => x) (List.replicate fuel ()) s).getLast? = some c ∧
      halts c.result = true ∧ I c.before ∧ P c.before ∧ c.result = outcome (x c.before) ∧
      c.after = final (x c.before) := by
  induction fuel generalizing s with
  | zero => omega
  | succ fuel ih =>
    rw [List.replicate_succ, log] at hP ⊢
    have hs : P s := hP _ List.mem_cons_self
    cases hh : halts (outcome (x s)) with
    | true =>
      simp only [if_true, List.getLast?_singleton]
      exact ⟨_, rfl, hh, hI, hs, rfl, rfl⟩
    | false =>
      simp only [hh, Bool.false_eq_true, if_false] at hP ⊢
      obtain ⟨hI', hlt⟩ := keep s hI hs hh
      obtain ⟨c, hc, hrest⟩ := ih hI' (by omega) fun c hc => hP c (List.mem_cons_of_mem _ hc)
      exact ⟨c, by rw [List.getLast?_cons, hc]; rfl, hrest⟩

/-- A program and one that it is simulated by return the same in every run. -/
theorem Simulates.results_eq {P : σ → τ → Prop} {step' : ι → EStateM ε τ α}
    (h : ∀ i, Simulates P P (step i) (step' i)) (inputs : List ι) {s : σ} {t : τ} (hst : P s t) :
    (log halts step inputs s).map Call.result = (log halts step' inputs t).map Call.result := by
  induction inputs generalizing s t with
  | nil => rfl
  | cons i inputs ih =>
    obtain ⟨hout, hfinal⟩ := (h i s t hst).outcome_eq
    simp only [log, List.map_cons, hout]
    split_ifs
    · rfl
    · rw [ih hfinal]

end Machine
