import Mcutt.Lib.Framing
import Mcutt.Lib.Since

/-!
# Asking for the frames of a stream

An inbox stands in a stream, behind the frame it delivered last and may still hold.  It is asked for
the next frame or for the one it holds, and a request may be left unanswered.  The frames it
delivers anew are those the stream is cut into, none left out and none twice (`Inbox.cut_fresh`).
A program whose states are related to those of an abstract machine is followed by it along every run
(`tracks_of_log`).
-/

namespace Framing

variable {α ε : Type}

/-- What an inbox is asked for. -/
inductive Ask where
  | next
  | held
  deriving DecidableEq, Repr

/-- The frame that was delivered last, unless it was dropped, and the stream behind it. -/
structure Inbox (α : Type) where
  held : Option (List α)
  behind : List α
  deriving DecidableEq, Repr

namespace Inbox

def stream (s : Inbox α) : List α := s.held.getD [] ++ s.behind

def drop (ask : Ask) (s : Inbox α) : Inbox α :=
  match ask with
  | .next => { s with held := none }
  | .held => s

variable (next : List α → Except ε (Option ℕ))

/-- Hold the frame in front if none is held. -/
def fetch (s : Inbox α) : Inbox α :=
  match s.held with
  | some _ => s
  | none =>
    match next s.behind with
    | .ok (some n) =>
      if n ≤ s.behind.length then ⟨some (s.behind.take n), s.behind.drop n⟩ else s
    | _ => s

/-- A request, and whether it was answered. -/
def step (e : Ask × Bool) (s : Inbox α) : Inbox α :=
  if e.2 then (s.drop e.1).fetch next else s.drop e.1

def run (events : List (Ask × Bool)) (s : Inbox α) : Inbox α :=
  events.foldl (fun s e => s.step next e) s

/-- The frame that a request delivers and that was not held. -/
def delivers (e : Ask × Bool) (s : Inbox α) : Option (List α) :=
  if (s.drop e.1).held.isNone then (s.step next e).held else none

/-- The frames that are delivered anew. -/
def fresh : List (Ask × Bool) → Inbox α → List (List α)
  | [], _ => []
  | e :: events, s => (s.delivers next e).toList ++ fresh events (s.step next e)

variable {next} {s : Inbox α}

theorem drop_behind (ask : Ask) (s : Inbox α) : (s.drop ask).behind = s.behind := by
  cases ask <;> rfl

theorem fetch_of_held {f : List α} (h : s.held = some f) : s.fetch next = s := by
  unfold fetch
  rw [h]

theorem fetch_of_none (h : s.held = none) {n : ℕ} (hn : next s.behind = .ok (some n))
    (hle : n ≤ s.behind.length) :
    s.fetch next = ⟨some (s.behind.take n), s.behind.drop n⟩ := by
  unfold fetch
  rw [h, hn]
  simp only
  exact if_pos hle

/-- A frame is fetched from the front, or nothing happens. -/
theorem fetch_cases (s : Inbox α) : s.fetch next = s ∨ (s.held = none ∧ ∃ n,
    next s.behind = .ok (some n) ∧ n ≤ s.behind.length ∧
      s.fetch next = ⟨some (s.behind.take n), s.behind.drop n⟩) := by
  cases hheld : s.held with
  | some f => exact .inl (fetch_of_held hheld)
  | none =>
    rcases hnext : next s.behind with e | _ | n
    · exact .inl (by unfold fetch; rw [hheld, hnext])
    · exact .inl (by unfold fetch; rw [hheld, hnext])
    · by_cases hle : n ≤ s.behind.length
      · exact .inr ⟨rfl, n, rfl, hle, fetch_of_none hheld hnext hle⟩
      · refine .inl ?_
        unfold fetch
        rw [hheld, hnext]
        exact if_neg hle

/-- A frame that is delivered is in front of what was behind. -/
theorem delivers_cases (e : Ask × Bool) (s : Inbox α) :
    (s.delivers next e = none ∧ (s.step next e).behind = s.behind) ∨
      ∃ n, next s.behind = .ok (some n) ∧ n ≤ s.behind.length ∧
        s.delivers next e = some (s.behind.take n) ∧
        (s.step next e).behind = s.behind.drop n := by
  obtain ⟨ask, answered⟩ := e
  unfold delivers step
  cases answered with
  | false =>
    refine .inl ⟨?_, drop_behind ask s⟩
    cases hheld : (s.drop ask).held <;> simp [hheld]
  | true =>
    simp only [if_true]
    rcases @fetch_cases _ _ next (s.drop ask) with heq | ⟨hheld, n, hn, hle, heq⟩
    · refine .inl ⟨?_, by rw [heq, drop_behind]⟩
      rw [heq]
      cases (s.drop ask).held <;> simp
    · rw [drop_behind] at hn hle heq
      refine .inr ⟨n, hn, hle, ?_, by rw [heq]⟩
      rw [hheld, heq]
      rfl

/-- The frames that are delivered anew are those the stream is cut into. -/
theorem cut_fresh (events : List (Ask × Bool)) (s : Inbox α) :
    cut next (s.fresh next events).length s.behind =
      .ok (s.fresh next events, (s.run next events).behind) := by
  induction events generalizing s with
  | nil => rfl
  | cons e events ih =>
    have hnext := ih (s.step next e)
    show cut next (s.fresh next (e :: events)).length s.behind =
      .ok (s.fresh next (e :: events), ((s.step next e).run next events).behind)
    rw [fresh]
    rcases @delivers_cases _ _ next e s with ⟨hnone, hbehind⟩ | ⟨n, hn, hle, hsome, hbehind⟩
    · rw [hnone, ← hbehind]
      exact hnext
    · rw [hbehind] at hnext
      rw [hsome]
      simp only [Option.toList_some, List.singleton_append, List.length_cons, cut, hn, if_pos hle,
        hnext]

theorem run_append (events more : List (Ask × Bool)) (s : Inbox α) :
    s.run next (events ++ more) = (s.run next events).run next more := List.foldl_append

theorem fresh_append (events more : List (Ask × Bool)) (s : Inbox α) :
    s.fresh next (events ++ more) =
      s.fresh next events ++ (s.run next events).fresh next more := by
  induction events generalizing s with
  | nil => rfl
  | cons e events ih =>
    rw [List.cons_append, fresh, fresh, ih, List.append_assoc]
    rfl

/-- A frame that is held is the last one that was delivered anew. -/
theorem held_run {f : List α} {events : List (Ask × Bool)} (hs : s.held = none)
    (h : (s.run next events).held = some f) : (s.fresh next events).getLast? = some f := by
  induction events using List.reverseRecOn with
  | nil => exact absurd (hs.symm.trans h) (by simp)
  | append_singleton events e ih =>
    rw [run_append] at h
    rw [fresh_append]
    generalize s.run next events = t at h ih ⊢
    change (t.step next e).held = some f at h
    show (s.fresh next events ++ ((t.delivers next e).toList ++ [])).getLast? = some f
    unfold delivers
    cases hheld : (t.drop e.1).held with
    | none => simp [h]
    | some g =>
      have hstep : (t.step next e).held = some g := by
        unfold step
        split_ifs
        · rw [fetch_of_held hheld, hheld]
        · exact hheld
      have ht : t.held = some g := by
        cases hask : e.1 with
        | next =>
          rw [hask] at hheld
          cases hheld
        | held => rwa [hask] at hheld
      rw [hstep] at h
      simpa using ih (ht.trans h)

end Inbox

end Framing

namespace Machine

/-! ## Following a run -/

variable {ι ε σ τ α : Type}

/-- An abstract state that every call of a run changes by `next`, with `G` of it before every
call. -/
def Tracks (next : Call ι ε σ α → τ → τ) (G : τ → Call ι ε σ α → Prop) :
    τ → List (Call ι ε σ α) → Prop
  | _, [] => True
  | t, c :: calls => G t c ∧ Tracks next G (next c t) calls

variable {halts : Except ε α → Bool} {step : ι → EStateM ε σ α} {next : Call ι ε σ α → τ → τ}
  {G : τ → Call ι ε σ α → Prop}

/-- A relation that every call keeps holds along the run. -/
theorem tracks_of_log {R : τ → σ → Prop} {P : Call ι ε σ α → Prop}
    (keep : ∀ t i s, R t s → P (.of step i s) → G t (.of step i s) ∧
      (halts (outcome (step i s)) = false → R (next (.of step i s) t) (final (step i s))))
    {inputs : List ι} {s : σ} {t : τ} (hR : R t s) (hP : ∀ c ∈ log halts step inputs s, P c) :
    Tracks next G t (log halts step inputs s) := by
  induction inputs generalizing s t with
  | nil => exact trivial
  | cons i inputs ih =>
    rw [log] at hP ⊢
    obtain ⟨hcall, hrest⟩ := List.forall_mem_cons.1 hP
    obtain ⟨hG, hnext⟩ := keep t i s hR hcall
    refine ⟨hG, ?_⟩
    cases hhalts : halts (outcome (step i s)) with
    | true => exact trivial
    | false =>
      simp only [hhalts, Bool.false_eq_true, if_false] at hrest ⊢
      exact ih (hnext hhalts) hrest

theorem Tracks.before {t : τ} {pre post : List (Call ι ε σ α)} {c : Call ι ε σ α}
    (h : Tracks next G t (pre ++ c :: post)) : G (pre.foldl (fun t c => next c t) t) c := by
  induction pre generalizing t with
  | nil => exact h.1
  | cons d pre ih => exact ih h.2

end Machine
