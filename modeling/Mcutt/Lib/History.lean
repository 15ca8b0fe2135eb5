import Mathlib.Tactic

/-!
# What was stored last

A history of a keyed store is the list of what was stored and erased, oldest first.  Its
`contents` are built up event by event; `lastStored` looks the key up in the history from its end.
The two are the same (`contents_eq_lastStored`), so a store that applies its events one by one
holds at every key what was stored there last.
-/

namespace History

variable {K V : Type}

inductive Event (K V : Type) where
  | stored (key : K) (value : V)
  | erased (key : K)
  deriving DecidableEq, Repr

namespace Event

def key : Event K V → K
  | stored k _ => k
  | erased k => k

/-- What the event leaves at its key. -/
def value : Event K V → Option V
  | stored _ v => some v
  | erased _ => none

end Event

variable [DecidableEq K]

/-- The store after an event. -/
def apply (m : K → Option V) (e : Event K V) : K → Option V := Function.update m e.key e.value

/-- The store after a list of events. -/
def applyAll (m : K → Option V) (es : List (Event K V)) : K → Option V := es.foldl apply m

/-- The store that a history leaves. -/
def contents (es : List (Event K V)) : K → Option V := applyAll (fun _ => none) es

/-- The value that was stored at the key last, if it was not erased since. -/
def lastStored (es : List (Event K V)) (k : K) : Option V :=
  (es.reverse.find? fun e => e.key = k).bind Event.value

@[simp]
theorem applyAll_nil (m : K → Option V) : applyAll m [] = m := rfl

theorem applyAll_append (m : K → Option V) (es fs : List (Event K V)) :
    applyAll m (es ++ fs) = applyAll (applyAll m es) fs := List.foldl_append

theorem applyAll_singleton (m : K → Option V) (e : Event K V) :
    applyAll m [e] = Function.update m e.key e.value := rfl

/-- An event changes nothing at another key. -/
theorem applyAll_of_ne {m : K → Option V} {es : List (Event K V)} {k : K}
    (h : ∀ e ∈ es, e.key ≠ k) : applyAll m es k = m k := by
  induction es generalizing m with
  | nil => rfl
  | cons e es ih =>
    have hrest := ih (m := apply m e) fun f hf => h f (List.mem_cons_of_mem _ hf)
    refine hrest.trans (Function.update_of_ne ?_ _ _)
    exact (h e List.mem_cons_self).symm

theorem contents_eq_lastStored (es : List (Event K V)) (k : K) :
    contents es k = lastStored es k := by
  induction es using List.reverseRecOn with
  | nil => rfl
  | append_singleton es e ih =>
    rw [contents, applyAll_append, applyAll_singleton, lastStored, List.reverse_append,
      List.reverse_singleton, List.singleton_append, List.find?_cons]
    by_cases h : e.key = k
    · subst h
      rw [Function.update_self]
      simp
    · rw [Function.update_of_ne (Ne.symm h)]
      show contents es k = _
      rw [ih, lastStored, decide_eq_false h]

end History
