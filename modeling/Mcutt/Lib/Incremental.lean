import Mathlib.Tactic

/-!
# Parsers that wait for more

A parser takes a value from the front of its input and returns the rest.  It is incremental if it
looks at nothing behind the value, and if every answer but an error that asks for more is final:
more input changes neither the value nor the error.  Then what is cut short is waited for
(`Incremental.waits`).  Incremental parsers are closed under everything a parser is put together
from.
-/

namespace Parsing

variable {α β γ δ ε : Type}

/-- An answer to input that has `more` behind it. -/
def extend (more : List α) (r : Except ε (β × List α)) : Except ε (β × List α) :=
  match r with
  | .ok (x, rest) => .ok (x, rest ++ more)
  | .error e => .error e

@[simp] theorem extend_ok (more : List α) (x : β) (rest : List α) :
    extend more (.ok (x, rest) : Except ε (β × List α)) = .ok (x, rest ++ more) := rfl
@[simp] theorem extend_error (more : List α) (e : ε) :
    extend more (.error e : Except ε (β × List α)) = .error e := rfl

/-- A parser that looks at the front of its input, where `short` are the errors that ask for more. -/
structure Incremental (short : ε → Prop) (p : List α → Except ε (β × List α)) : Prop where
  settled : ∀ b, (∃ e, p b = .error e ∧ short e) ∨ ∀ more, p (b ++ more) = extend more (p b)
  front : ∀ b x rest, p b = .ok (x, rest) →
    ∃ c, b = c ++ rest ∧ ∀ rest', p (c ++ rest') = .ok (x, rest')

variable {short : ε → Prop} {p : List α → Except ε (β × List α)}

/-! ## What is accepted -/

/-- What is accepted stays accepted when more arrives. -/
theorem Incremental.append (h : Incremental short p) {b rest : List α} {x : β}
    (hb : p b = .ok (x, rest)) (more : List α) : p (b ++ more) = .ok (x, rest ++ more) := by
  obtain ⟨c, rfl, hc⟩ := h.front b x rest hb
  rw [List.append_assoc]
  exact hc (rest ++ more)

/-- What is cut short is waited for. -/
theorem Incremental.waits (h : Incremental short p) {c f : List α} {x : β}
    (hc : p c = .ok (x, [])) (hf : f <+: c) (hne : f ≠ c) : ∃ e, p f = .error e ∧ short e := by
  obtain ⟨more, rfl⟩ := hf
  refine (h.settled f).resolve_right fun hfinal => ?_
  have heq := hfinal more
  rw [hc] at heq
  cases hp : p f with
  | error e =>
    rw [hp] at heq
    cases heq
  | ok r =>
    obtain ⟨y, rest⟩ := r
    rw [hp, extend_ok] at heq
    have hnil := (Prod.mk.inj (Except.ok.inj heq)).2
    rw [eq_comm, List.append_eq_nil_iff] at hnil
    rw [hnil.2, List.append_nil] at hne
    exact hne rfl

/-! ## How parsers are put together -/

theorem Incremental.congr {q : List α → Except ε (β × List α)} (h : Incremental short p)
    (heq : ∀ b, q b = p b) : Incremental short q := by
  obtain rfl : q = p := funext heq
  exact h

/-- A check that takes nothing, and a parser. -/
theorem incremental_guard (x : Except ε β) {q : β → List α → Except ε (γ × List α)}
    (hq : ∀ a, Incremental short (q a)) : Incremental short fun b => x >>= fun a => q a b := by
  cases x with
  | error e => exact ⟨fun b => .inr fun more => rfl, fun b a rest h => by cases h⟩
  | ok a => exact hq a

theorem incremental_pure (a : β) :
    Incremental short fun b : List α => (Except.ok (a, b) : Except ε (β × List α)) := by
  refine ⟨fun b => .inr fun more => rfl, fun b a' rest h => ?_⟩
  obtain ⟨rfl, rfl⟩ := Prod.mk.inj (Except.ok.inj h)
  exact ⟨[], rfl, fun rest' => rfl⟩

theorem Incremental.bind {k : β × List α → Except ε (γ × List α)} (hp : Incremental short p)
    (hk : ∀ a, Incremental short fun rest => k (a, rest)) :
    Incremental short fun b => p b >>= k := by
  constructor
  · intro b
    rcases hp.settled b with ⟨e, he, hshort⟩ | hfinal
    · exact .inl ⟨e, by rw [he]; rfl, hshort⟩
    · cases hb : p b with
      | error e =>
        refine .inr fun more => ?_
        rw [hfinal more, hb]
        rfl
      | ok r =>
        obtain ⟨a, rest⟩ := r
        rcases (hk a).settled rest with ⟨e, he, hshort⟩ | hrest
        · exact .inl ⟨e, he, hshort⟩
        · refine .inr fun more => ?_
          rw [hfinal more, hb]
          exact hrest more
  · intro b x rest h
    cases hb : p b with
    | error e =>
      rw [hb] at h
      cases h
    | ok r =>
      obtain ⟨a, mid⟩ := r
      rw [hb] at h
      obtain ⟨c, rfl, hc⟩ := hp.front b a mid hb
      obtain ⟨d, rfl, hd⟩ := (hk a).front mid x rest h
      refine ⟨c ++ d, (List.append_assoc _ _ _).symm, fun rest' => ?_⟩
      show p (c ++ d ++ rest') >>= _ = _
      rw [List.append_assoc, hc]
      exact hd rest'

/-- A parser that takes one element. -/
theorem incremental_cons {e₀ : ε} (h₀ : short e₀) {q : α → List α → Except ε (β × List α)}
    (hq : ∀ a, Incremental short (q a))
    (hp : ∀ b, p b = match b with
      | [] => .error e₀
      | a :: tail => q a tail) : Incremental short p := by
  constructor
  · rintro (_ | ⟨a, tail⟩)
    · exact .inl ⟨e₀, hp [], h₀⟩
    · rcases (hq a).settled tail with ⟨e, he, hshort⟩ | hfinal
      · exact .inl ⟨e, (hp _).trans he, hshort⟩
      · refine .inr fun more => ?_
        rw [hp, hp]
        exact hfinal more
  · rintro (_ | ⟨a, tail⟩) x rest h
    · rw [hp] at h
      cases h
    · rw [hp] at h
      obtain ⟨c, rfl, hc⟩ := (hq a).front tail x rest h
      refine ⟨a :: c, rfl, fun rest' => ?_⟩
      rw [hp]
      exact hc rest'

/-- A parser that takes something, behind the element it takes first. -/
theorem Incremental.tail (hp : Incremental short p) (hnil : ∃ e, p [] = .error e) (a : α) :
    Incremental short fun tail => p (a :: tail) := by
  refine ⟨fun tail => hp.settled (a :: tail), fun tail x rest h => ?_⟩
  obtain ⟨c, heq, hc⟩ := hp.front _ x rest h
  cases c with
  | nil =>
    obtain ⟨e, he⟩ := hnil
    have hempty := hc []
    rw [List.append_nil, he] at hempty
    cases hempty
  | cons b c =>
    obtain ⟨rfl, rfl⟩ := List.cons.inj heq
    exact ⟨c, rfl, hc⟩

/-- A parser that takes `n` elements. -/
theorem incremental_take {e₀ : ε} (h₀ : short e₀) (n : ℕ) :
    Incremental short fun b : List α =>
      if n ≤ b.length then Except.ok (b.take n, b.drop n) else .error e₀ := by
  constructor
  · intro b
    by_cases hle : n ≤ b.length
    · refine .inr fun more => ?_
      have hmore : n ≤ (b ++ more).length := hle.trans (by simp)
      simp only [if_pos hle, if_pos hmore, extend_ok, List.take_append_of_le_length hle,
        List.drop_append_of_le_length hle]
    · exact .inl ⟨e₀, if_neg hle, h₀⟩
  · intro b x rest h
    split_ifs at h with hle
    obtain ⟨rfl, rfl⟩ := Prod.mk.inj (Except.ok.inj h)
    refine ⟨b.take n, (List.take_append_drop n b).symm, fun rest' => ?_⟩
    have hlen : (b.take n).length = n := List.length_take_of_le hle
    have hle' : n ≤ (b.take n ++ rest').length := by
      rw [List.length_append]
      omega
    rw [if_pos hle', List.take_left' hlen, List.drop_left' hlen]

end Parsing
