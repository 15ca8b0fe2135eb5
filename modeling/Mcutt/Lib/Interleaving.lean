import Mathlib.Tactic

/-!
# Two callers that write to one stream

What two callers append to a stream is a list of chunks, each the left or the right caller's, in
an order that keeps the order of each caller (`Trace`).  If one of them is done before the other
has appended anything, the stream is the concatenation of what they wrote (`LeftFirst.stream_eq`,
`RightFirst.stream_eq`).  Callers that both begin with a chunk of one letter can in general be
interleaved such that the stream is neither concatenation (`exists_mixed`).
-/

namespace Interleaving

variable {α : Type}

/-- The chunks of two callers in the order they reach the stream. -/
abbrev Trace (α : Type) := List (List α ⊕ List α)

namespace Trace

def lefts (tr : Trace α) : List (List α) := tr.filterMap Sum.getLeft?

def rights (tr : Trace α) : List (List α) := tr.filterMap Sum.getRight?

/-- What the stream has received. -/
def stream (tr : Trace α) : List α := tr.flatMap (Sum.elim id id)

/-- The trace is an interleaving of the two sequences of chunks. -/
structure Merges (tr : Trace α) (xs ys : List (List α)) : Prop where
  lefts_eq : tr.lefts = xs
  rights_eq : tr.rights = ys

/-- The right caller appends nothing before the left caller is done. -/
def LeftFirst (tr : Trace α) : Prop :=
  ∃ before after, tr = before ++ after ∧ (∀ c ∈ before.rights, c = []) ∧ ∀ c ∈ after.lefts, c = []

/-- The left caller appends nothing before the right caller is done. -/
def RightFirst (tr : Trace α) : Prop :=
  ∃ before after, tr = before ++ after ∧ (∀ c ∈ before.lefts, c = []) ∧ ∀ c ∈ after.rights, c = []

variable {tr : Trace α}

@[simp] theorem lefts_inl (c : List α) (tr : Trace α) : lefts (.inl c :: tr) = c :: lefts tr := rfl
@[simp] theorem lefts_inr (c : List α) (tr : Trace α) : lefts (.inr c :: tr) = lefts tr := rfl
@[simp] theorem rights_inl (c : List α) (tr : Trace α) : rights (.inl c :: tr) = rights tr := rfl
@[simp] theorem rights_inr (c : List α) (tr : Trace α) :
    rights (.inr c :: tr) = c :: rights tr := rfl

theorem lefts_append (tr tr' : Trace α) : (tr ++ tr').lefts = tr.lefts ++ tr'.lefts :=
  List.filterMap_append

theorem rights_append (tr tr' : Trace α) : (tr ++ tr').rights = tr.rights ++ tr'.rights :=
  List.filterMap_append

@[simp] theorem lefts_map_inl (xs : List (List α)) : lefts (xs.map .inl) = xs := by
  rw [lefts, List.filterMap_map]
  exact List.filterMap_some

@[simp] theorem lefts_map_inr (ys : List (List α)) : lefts (ys.map .inr) = [] := by simp [lefts]
@[simp] theorem rights_map_inl (xs : List (List α)) : rights (xs.map .inl) = [] := by simp [rights]

@[simp] theorem rights_map_inr (ys : List (List α)) : rights (ys.map .inr) = ys := by
  rw [rights, List.filterMap_map]
  exact List.filterMap_some

theorem stream_append (tr tr' : Trace α) : (tr ++ tr').stream = tr.stream ++ tr'.stream :=
  List.flatMap_append

theorem flatten_of_nil {xs : List (List α)} (h : ∀ c ∈ xs, c = []) : xs.flatten = [] :=
  List.flatten_eq_nil_iff.2 h

theorem stream_of_rights (h : ∀ c ∈ tr.rights, c = []) : tr.stream = tr.lefts.flatten := by
  induction tr with
  | nil => rfl
  | cons c tr ih =>
    cases c with
    | inl c =>
      show c ++ stream tr = c ++ (lefts tr).flatten
      rw [ih h]
    | inr c =>
      obtain ⟨rfl, htr⟩ := List.forall_mem_cons.1 (show ∀ d ∈ c :: rights tr, d = [] from h)
      exact ih htr

theorem stream_of_lefts (h : ∀ c ∈ tr.lefts, c = []) : tr.stream = tr.rights.flatten := by
  induction tr with
  | nil => rfl
  | cons c tr ih =>
    cases c with
    | inl c =>
      obtain ⟨rfl, htr⟩ := List.forall_mem_cons.1 (show ∀ d ∈ c :: lefts tr, d = [] from h)
      exact ih htr
    | inr c =>
      show c ++ stream tr = c ++ (rights tr).flatten
      rw [ih h]

theorem LeftFirst.stream_eq {xs ys : List (List α)} (h : tr.LeftFirst) (merges : tr.Merges xs ys) :
    tr.stream = xs.flatten ++ ys.flatten := by
  obtain ⟨before, after, rfl, hbefore, hafter⟩ := h
  obtain ⟨rfl, rfl⟩ := merges
  rw [stream_append, stream_of_rights hbefore, stream_of_lefts hafter]
  rw [lefts_append, rights_append, List.flatten_append, List.flatten_append,
    flatten_of_nil hbefore, flatten_of_nil hafter, List.append_nil, List.nil_append]

theorem RightFirst.stream_eq {xs ys : List (List α)} (h : tr.RightFirst)
    (merges : tr.Merges xs ys) : tr.stream = ys.flatten ++ xs.flatten := by
  obtain ⟨before, after, rfl, hbefore, hafter⟩ := h
  obtain ⟨rfl, rfl⟩ := merges
  rw [stream_append, stream_of_lefts hbefore, stream_of_rights hafter]
  rw [lefts_append, rights_append, List.flatten_append, List.flatten_append,
    flatten_of_nil hbefore, flatten_of_nil hafter, List.append_nil, List.nil_append]

end Trace

/-! ## Words that commute -/

/-- A word that commutes with a letter is a power of it. -/
theorem eq_replicate_of_commute {a : α} {r : List α} (h : a :: r = r ++ [a]) :
    r = List.replicate r.length a := by
  induction r with
  | nil => rfl
  | cons c r ih =>
    obtain ⟨rfl, htail⟩ := List.cons.inj h
    rw [List.length_cons, List.replicate_succ, ← ih htail]

/-- Two words that change places around a letter, whichever goes first, begin alike. -/
theorem getElem?_of_commute {a : α} {r s : List α} (hrs : a :: r ++ s = s ++ a :: r)
    (hsr : a :: s ++ r = r ++ a :: s) (i : ℕ) (hr : i < r.length) (hs : i < s.length) :
    r[i]? = some a ∧ s[i]? = some a := by
  induction i with
  | zero =>
    have h₁ := congrArg (fun l => l[0]?) hrs
    have h₂ := congrArg (fun l => l[0]?) hsr
    simp only [List.cons_append, List.getElem?_cons_zero, List.getElem?_append_left hs,
      List.getElem?_append_left hr] at h₁ h₂
    exact ⟨h₂.symm, h₁.symm⟩
  | succ i ih =>
    have hi := ih (by omega) (by omega)
    have h₁ := congrArg (fun l => l[i + 1]?) hrs
    have h₂ := congrArg (fun l => l[i + 1]?) hsr
    simp only [List.cons_append, List.getElem?_cons_succ, List.getElem?_append_left hs,
      List.getElem?_append_left hr, List.getElem?_append_left (show i < r.length by omega),
      List.getElem?_append_left (show i < s.length by omega)] at h₁ h₂
    exact ⟨h₂.symm.trans hi.2, h₁.symm.trans hi.1⟩

/-- The shorter of two such words is a power of the letter. -/
theorem eq_replicate_of_commute_both {a : α} {r s : List α} (hrs : a :: r ++ s = s ++ a :: r)
    (hsr : a :: s ++ r = r ++ a :: s) (hle : r.length ≤ s.length) :
    r = List.replicate r.length a := by
  apply List.ext_getElem?
  intro i
  by_cases hi : i < r.length
  · rw [(getElem?_of_commute hrs hsr i hi (by omega)).1, List.getElem?_replicate, if_pos hi]
  · rw [List.getElem?_eq_none (by omega), List.getElem?_replicate, if_neg hi]

/-! ## Mixing -/

/-- Two callers that begin with a chunk of one letter can be interleaved such that the stream is
neither concatenation, unless what follows is a power of the other's letter. -/
theorem exists_mixed {a b : α} {xs ys : List (List α)}
    (hx : ∀ n, xs.flatten ≠ List.replicate n b) (hy : ∀ n, ys.flatten ≠ List.replicate n a) :
    ∃ tr : Trace α, tr.Merges ([a] :: xs) ([b] :: ys) ∧
      tr.stream ≠ (a :: xs.flatten) ++ b :: ys.flatten ∧
      tr.stream ≠ (b :: ys.flatten) ++ a :: xs.flatten := by
  let leftBegins : Trace α := .inl [a] :: .inr [b] :: (xs.map .inl ++ ys.map .inr)
  let rightBegins : Trace α := .inr [b] :: .inl [a] :: (ys.map .inr ++ xs.map .inl)
  have mergesLeft : leftBegins.Merges ([a] :: xs) ([b] :: ys) :=
    ⟨by simp [leftBegins, Trace.lefts_append], by simp [leftBegins, Trace.rights_append]⟩
  have mergesRight : rightBegins.Merges ([a] :: xs) ([b] :: ys) :=
    ⟨by simp [rightBegins, Trace.lefts_append], by simp [rightBegins, Trace.rights_append]⟩
  have streamLeft : leftBegins.stream = a :: b :: (xs.flatten ++ ys.flatten) := by
    simp [leftBegins, Trace.stream, List.flatMap_map, List.flatMap_id']
  have streamRight : rightBegins.stream = b :: a :: (ys.flatten ++ xs.flatten) := by
    simp [rightBegins, Trace.stream, List.flatMap_map, List.flatMap_id']
  by_contra hnone
  have one_of (tr : Trace α) (merges : tr.Merges ([a] :: xs) ([b] :: ys)) :
      tr.stream = a :: xs.flatten ++ b :: ys.flatten ∨
        tr.stream = b :: ys.flatten ++ a :: xs.flatten := by
    by_contra h
    exact hnone ⟨tr, merges, not_or.1 h⟩
  have hleft := one_of leftBegins mergesLeft
  have hright := one_of rightBegins mergesRight
  rw [streamLeft] at hleft
  rw [streamRight] at hright
  -- the other concatenation would make what follows a power of a letter
  have hleft : a :: b :: (xs.flatten ++ ys.flatten) = b :: ys.flatten ++ a :: xs.flatten := by
    refine hleft.resolve_left fun h => hx _ (eq_replicate_of_commute ?_)
    have h : b :: xs.flatten ++ ys.flatten = xs.flatten ++ [b] ++ ys.flatten := by simpa using h
    exact List.append_cancel_right h
  have hright : b :: a :: (ys.flatten ++ xs.flatten) = a :: xs.flatten ++ b :: ys.flatten := by
    refine hright.resolve_right fun h => hy _ (eq_replicate_of_commute ?_)
    have h : a :: ys.flatten ++ xs.flatten = ys.flatten ++ [a] ++ xs.flatten := by simpa using h
    exact List.append_cancel_right h
  obtain ⟨rfl, hrs⟩ := List.cons.inj hleft
  obtain ⟨-, hsr⟩ := List.cons.inj hright
  rcases Nat.le_total xs.flatten.length ys.flatten.length with hle | hle
  · exact hx _ (eq_replicate_of_commute_both hrs hsr hle)
  · exact hy _ (eq_replicate_of_commute_both hsr hrs hle)

end Interleaving
