import Mathlib.Tactic

/-!
# Threads on a shared state

Threads that take small steps on one shared state, in any order, and any number of which may start
at any time (`System.run`).  A property of a thread and the shared state holds in every run if the
thread keeps it and every other thread does (`System.Kept.run`).  Where every move is paid for, by
what it gains or by a potential, a run costs no more than what it gains and the potential at its
start (`System.charge_run`).
-/

namespace Threads

variable {κ σ τ ω : Type}

/-- What threads do: where a thread starts, and the step of the `i`-th one, with what its
environment answers. -/
structure System (κ σ τ ω : Type) where
  start : κ → τ
  step : ℕ → ω → τ → σ → τ × σ

structure Pool (σ τ : Type) where
  shared : σ
  threads : List τ

/-- A thread starts, or the `i`-th one takes a step. -/
inductive Move (κ ω : Type) where
  | spawn (k : κ)
  | step (i : ℕ) (answer : ω)

/-- The thread that starts. -/
def Move.spawned : Move κ ω → Option κ
  | .spawn k => some k
  | .step _ _ => none

namespace System

variable (S : System κ σ τ ω)

def move : Move κ ω → Pool σ τ → Pool σ τ
  | .spawn k, p => { p with threads := p.threads ++ [S.start k] }
  | .step i answer, p =>
    match p.threads[i]? with
    | none => p
    | some t => ⟨(S.step i answer t p.shared).2, p.threads.set i (S.step i answer t p.shared).1⟩

def run : List (Move κ ω) → Pool σ τ → Pool σ τ
  | [], p => p
  | t :: schedule, p => run schedule (S.move t p)

variable {S}

theorem move_step {i : ℕ} {t : τ} {p : Pool σ τ} (ht : p.threads[i]? = some t) (answer : ω) :
    S.move (.step i answer) p =
      ⟨(S.step i answer t p.shared).2, p.threads.set i (S.step i answer t p.shared).1⟩ := by
  simp only [move, ht]

theorem move_none {i : ℕ} {p : Pool σ τ} (ht : p.threads[i]? = none) (answer : ω) :
    S.move (.step i answer) p = p := by
  simp only [move, ht]

/-- A step of the thread between two parts of the pool. -/
theorem move_step_append (before after : List τ) (t : τ) (s : σ) (answer : ω) :
    S.move (.step before.length answer) ⟨s, before ++ t :: after⟩ =
      ⟨(S.step before.length answer t s).2,
        before ++ (S.step before.length answer t s).1 :: after⟩ := by
  have ht : (before ++ t :: after)[before.length]? = some t := by simp
  rw [move_step (p := ⟨s, before ++ t :: after⟩) ht]
  simp

theorem run_append (before after : List (Move κ ω)) (p : Pool σ τ) :
    S.run (before ++ after) p = S.run after (S.run before p) := by
  induction before generalizing p with
  | nil => rfl
  | cons t before ih => exact ih (S.move t p)

/-- `P` holds of every move of the run and the pool before it. -/
def Along (P : Move κ ω → Pool σ τ → Prop) (S : System κ σ τ ω) :
    List (Move κ ω) → Pool σ τ → Prop
  | [], _ => True
  | t :: schedule, p => P t p ∧ Along P S schedule (S.move t p)

theorem invariant_run {I : Pool σ τ → Prop} {P : Move κ ω → Pool σ τ → Prop}
    (keep : ∀ t p, I p → P t p → I (S.move t p)) {schedule : List (Move κ ω)} {p : Pool σ τ}
    (h : I p) (hP : Along P S schedule p) : I (S.run schedule p) := by
  induction schedule generalizing p with
  | nil => exact h
  | cons t schedule ih => exact ih (keep t p h hP.1) hP.2

/-- What a thread keeps from where it started says which threads there are. -/
theorem map_threads_run {f : τ → κ} (start : ∀ k, f (S.start k) = k)
    (step : ∀ i answer t s, f (S.step i answer t s).1 = f t) (schedule : List (Move κ ω))
    (p : Pool σ τ) :
    (S.run schedule p).threads.map f = p.threads.map f ++ schedule.filterMap Move.spawned := by
  induction schedule generalizing p with
  | nil => exact (List.append_nil _).symm
  | cons t schedule ih =>
    rw [run, ih]
    cases t with
    | spawn k => simp [move, start, Move.spawned]
    | step i answer =>
      rw [List.filterMap_cons_none rfl]
      congr 1
      cases hi : p.threads[i]? with
      | none => rw [move_none hi]
      | some t =>
        obtain ⟨hlt, ht⟩ := List.getElem?_eq_some_iff.1 hi
        have hlt : i < (p.threads.map f).length := by rwa [List.length_map]
        have hf : f t = (p.threads.map f)[i] := by rw [List.getElem_map, ht]
        simp only [move_step hi, List.map_set, step, hf, List.set_getElem_self]

/-- What no thread is when it starts it became with one of its own steps. -/
theorem step_of_run {P : τ → Prop} (start : ∀ k, ¬ P (S.start k)) (schedule : List (Move κ ω))
    {p : Pool σ τ} (hp : ∀ t ∈ p.threads, ¬ P t) {i : ℕ} {t : τ}
    (ht : (S.run schedule p).threads[i]? = some t) (hP : P t) :
    ∃ before answer after u, schedule = before ++ .step i answer :: after ∧
      (S.run before p).threads[i]? = some u ∧ ¬ P u ∧
      P (S.step i answer u (S.run before p).shared).1 := by
  induction schedule using List.reverseRecOn generalizing t with
  | nil => exact absurd hP (hp t (List.mem_of_getElem? ht))
  | append_singleton schedule m ih =>
    rw [run_append] at ht
    by_cases hold : ∃ u, (S.run schedule p).threads[i]? = some u ∧ P u
    · obtain ⟨u, hu, hPu⟩ := hold
      obtain ⟨before, answer, after, v, rfl, hv⟩ := ih hu hPu
      exact ⟨before, answer, after ++ [m], v, by simp, hv⟩
    · have ht : (S.move m (S.run schedule p)).threads[i]? = some t := ht
      cases m with
      | spawn k =>
        have ht : ((S.run schedule p).threads ++ [S.start k])[i]? = some t := ht
        by_cases hlt : i < (S.run schedule p).threads.length
        · rw [List.getElem?_append_left hlt] at ht
          exact absurd ⟨t, ht, hP⟩ hold
        · rw [List.getElem?_append_right (not_lt.1 hlt)] at ht
          obtain rfl := List.mem_singleton.1 (List.mem_of_getElem? ht)
          exact absurd hP (start k)
      | step j answer =>
        cases hj : (S.run schedule p).threads[j]? with
        | none =>
          rw [move_none hj] at ht
          exact absurd ⟨t, ht, hP⟩ hold
        | some u =>
          rw [move_step hj] at ht
          have ht : ((S.run schedule p).threads.set j _)[i]? = some t := ht
          by_cases hij : i = j
          · subst hij
            have hlt := (List.getElem?_eq_some_iff.1 hj).1
            rw [List.getElem?_set_self hlt, Option.some.injEq] at ht
            exact ⟨schedule, answer, [], u, rfl, hj, fun hPu => hold ⟨u, hj, hPu⟩, ht ▸ hP⟩
          · rw [List.getElem?_set_ne (Ne.symm hij)] at ht
            exact absurd ⟨t, ht, hP⟩ hold

/-! ## What threads keep -/

/-- What holds of the thread with a number and the shared state, and of the shared state and a
number that no thread has, whatever the threads do. -/
structure Kept (S : System κ σ τ ω) (I : ℕ → τ → σ → Prop) (Fresh : ℕ → σ → Prop) : Prop where
  start : ∀ i k s, Fresh i s → I i (S.start k) s
  own : ∀ i answer t s, I i t s → I i (S.step i answer t s).1 (S.step i answer t s).2
  other : ∀ i j answer t u s, i ≠ j → I i t s → I i t (S.step j answer u s).2
  fresh : ∀ i j answer u s, i ≠ j → Fresh i s → Fresh i (S.step j answer u s).2

/-- It holds of every thread of the pool. -/
structure Holds (I : ℕ → τ → σ → Prop) (Fresh : ℕ → σ → Prop) (p : Pool σ τ) : Prop where
  thread : ∀ i t, p.threads[i]? = some t → I i t p.shared
  fresh : ∀ i, p.threads.length ≤ i → Fresh i p.shared

variable {I : ℕ → τ → σ → Prop} {Fresh : ℕ → σ → Prop}

theorem holds_empty {s : σ} (h : ∀ i, Fresh i s) : Holds I Fresh ⟨s, []⟩ :=
  ⟨by simp, fun i _ => h i⟩

theorem Kept.spawn (kept : S.Kept I Fresh) {p : Pool σ τ} (h : Holds I Fresh p) (k : κ) :
    Holds I Fresh (S.move (.spawn k) p) := by
  refine ⟨fun i t hi => ?_, fun i hi => h.fresh i ?_⟩
  · have hi : (p.threads ++ [S.start k])[i]? = some t := hi
    by_cases hlt : i < p.threads.length
    · rw [List.getElem?_append_left hlt] at hi
      exact h.thread i t hi
    · rw [List.getElem?_append_right (not_lt.1 hlt)] at hi
      have hmem := List.mem_of_getElem? hi
      rw [List.mem_singleton] at hmem
      rw [hmem]
      exact kept.start i k _ (h.fresh i (not_lt.1 hlt))
  · have hlen : (p.threads ++ [S.start k]).length ≤ i := hi
    rw [List.length_append] at hlen
    omega

theorem Kept.step (kept : S.Kept I Fresh) {p : Pool σ τ} (h : Holds I Fresh p) (j : ℕ)
    (answer : ω) : Holds I Fresh (S.move (.step j answer) p) := by
  cases hj : p.threads[j]? with
  | none =>
    rw [move_none hj]
    exact h
  | some u =>
    have hjlt : j < p.threads.length := (List.getElem?_eq_some_iff.1 hj).1
    rw [move_step hj]
    refine ⟨fun i t hi => ?_, fun i hi => ?_⟩
    · have hi : (p.threads.set j (S.step j answer u p.shared).1)[i]? = some t := hi
      by_cases hij : i = j
      · subst hij
        rw [List.getElem?_set_self hjlt, Option.some.injEq] at hi
        rw [← hi]
        exact kept.own i answer u _ (h.thread i u hj)
      · rw [List.getElem?_set_ne (Ne.symm hij)] at hi
        exact kept.other i j answer t u _ hij (h.thread i t hi)
    · have hi : (p.threads.set j (S.step j answer u p.shared).1).length ≤ i := hi
      rw [List.length_set] at hi
      exact kept.fresh i j answer u _ (by omega) (h.fresh i hi)

theorem Kept.move (kept : S.Kept I Fresh) {p : Pool σ τ} (h : Holds I Fresh p) (t : Move κ ω) :
    Holds I Fresh (S.move t p) := by
  cases t with
  | spawn k => exact kept.spawn h k
  | step j answer => exact kept.step h j answer

theorem Kept.run (kept : S.Kept I Fresh) (schedule : List (Move κ ω)) {p : Pool σ τ}
    (h : Holds I Fresh p) : Holds I Fresh (S.run schedule p) := by
  induction schedule generalizing p with
  | nil => exact h
  | cons t schedule ih => exact ih (kept.move h t)

/-! ## Charging -/

/-- The sum of what the steps of a run count. -/
def tally (S : System κ σ τ ω) (count : ℕ → ω → τ → σ → ℕ) :
    List (Move κ ω) → Pool σ τ → ℕ
  | [], _ => 0
  | .spawn k :: schedule, p => tally S count schedule (S.move (.spawn k) p)
  | .step i answer :: schedule, p =>
    (p.threads[i]?.elim 0 fun t => count i answer t p.shared) +
      tally S count schedule (S.move (.step i answer) p)

theorem tally_step_append (count : ℕ → ω → τ → σ → ℕ) (before after : List τ) (t : τ) (s : σ)
    (answer : ω) (schedule : List (Move κ ω)) :
    tally S count (.step before.length answer :: schedule) ⟨s, before ++ t :: after⟩ =
      count before.length answer t s + tally S count schedule
        (S.move (.step before.length answer) ⟨s, before ++ t :: after⟩) := by
  simp [tally]

/-- The potential of the shared state, and that of each thread. -/
def potential (ψ : σ → ℕ) (φ : τ → ℕ) (p : Pool σ τ) : ℕ := ψ p.shared + (p.threads.map φ).sum

theorem sum_map_set {φ : τ → ℕ} {ts : List τ} {i : ℕ} {t : τ} (h : ts[i]? = some t) (u : τ) :
    ((ts.set i u).map φ).sum + φ t = (ts.map φ).sum + φ u := by
  induction ts generalizing i with
  | nil => simp at h
  | cons v ts ih =>
    cases i with
    | zero =>
      obtain rfl : v = t := by simpa using h
      simp only [List.set_cons_zero, List.map_cons, List.sum_cons]
      omega
    | succ i =>
      have ih := ih (i := i) (by simpa using h)
      simp only [List.set_cons_succ, List.map_cons, List.sum_cons]
      omega

/-- If each step is paid by what it gains or by the potential, and threads start with none, then
what a run costs is paid by what it gains and by the potential it starts with. -/
theorem charge_run {ψ : σ → ℕ} {φ : τ → ℕ} {cost gain : ℕ → ω → τ → σ → ℕ}
    (start : ∀ k, φ (S.start k) = 0)
    (pays : ∀ i answer t s, ψ (S.step i answer t s).2 + φ (S.step i answer t s).1 +
      cost i answer t s ≤ ψ s + φ t + gain i answer t s)
    (schedule : List (Move κ ω)) (p : Pool σ τ) :
    potential ψ φ (S.run schedule p) + tally S cost schedule p ≤
      potential ψ φ p + tally S gain schedule p := by
  induction schedule generalizing p with
  | nil => exact le_rfl
  | cons t schedule ih =>
    have hrest := ih (S.move t p)
    cases t with
    | spawn k =>
      have hstart : potential ψ φ (S.move (.spawn k) p) = potential ψ φ p := by
        simp [potential, move, start]
      rw [hstart] at hrest
      exact hrest
    | step i answer =>
      simp only [run, tally]
      cases hi : p.threads[i]? with
      | none =>
        rw [move_none hi] at hrest ⊢
        simpa using hrest
      | some t =>
        have hsum := sum_map_set (φ := φ) hi (S.step i answer t p.shared).1
        have hpays := pays i answer t p.shared
        rw [move_step hi] at hrest ⊢
        simp only [potential, Option.elim_some] at hrest hpays ⊢
        omega

end System

end Threads
