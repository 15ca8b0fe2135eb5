import Mcutt.Strings

/-!
# Topic filters

`has_valid_wildcard` of `common/topic.rs` looks at the bytes next to every `+` and `#`.  What it
decides is a grammar of levels (`hasValidWildcard_eq_true_iff`): between slashes, a level is free
of wildcards, or a single `+`, or, as the last one, a single `#`.  In between stands one walk over
the characters (`Placed`), which is the same on bytes since the three characters are ASCII.  The
same holds with any search for the two wildcards in the place of the crate's
(`hasValidWildcardBy_eq_true_iff`).
-/

namespace Mcutt

/-! ## The grammar -/

/-- The levels of a topic filter. -/
def ValidLevels : List (List Char) → Prop
  | [] => True
  | level :: levels =>
    (('+' ∉ level ∧ '#' ∉ level) ∨ level = ['+'] ∨ (level = ['#'] ∧ levels = [])) ∧
      ValidLevels levels

/-- A topic filter with its wildcards in place. -/
def ValidFilter (topic : String) : Prop := ValidLevels (topic.toList.splitOn '/')

/-- The grammar, level by level. -/
theorem validLevels_iff_getElem? (levels : List (List Char)) :
    ValidLevels levels ↔ ∀ i level, levels[i]? = some level →
      ('+' ∉ level ∧ '#' ∉ level) ∨ level = ['+'] ∨
        (level = ['#'] ∧ i + 1 = levels.length) := by
  induction levels with
  | nil => simp [ValidLevels]
  | cons first levels ih =>
    rw [ValidLevels, ih]
    constructor
    · rintro ⟨hfirst, hlevels⟩ i level hi
      cases i with
      | zero =>
        obtain rfl : first = level := by simpa using hi
        simpa using hfirst
      | succ i => simpa using hlevels i level (by simpa using hi)
    · intro h
      refine ⟨by simpa using h 0 first rfl, fun i level hi => ?_⟩
      simpa using h (i + 1) level (by simpa using hi)

/-! ## One walk -/

section

variable {α : Type} (sep plus hash : α)

/-- Every wildcard stands alone between separators, `hash` only at the end; `start` says that the
list begins behind a separator. -/
def Placed : Prop → List α → Prop
  | _, [] => True
  | start, a :: as =>
    (a = plus → start ∧ ∀ b ∈ as.head?, b = sep) ∧ (a = hash → start ∧ as = []) ∧
      Placed (a = sep) as

variable {sep plus hash}

/-- The walk, by the neighbours of every wildcard. -/
theorem placed_iff_getElem? (hne : plus ≠ hash) {start : Prop} {as : List α} :
    Placed sep plus hash start as ↔ ∀ i a, as[i]? = some a → (a = plus ∨ a = hash) →
      (match i with
        | 0 => start
        | j + 1 => as[j]? = some sep) ∧ ∀ b, as[i + 1]? = some b → b = sep ∧ a = plus := by
  induction as generalizing start with
  | nil => simp [Placed]
  | cons c as ih =>
    simp only [Placed, ih]
    constructor
    · rintro ⟨hplus, hhash, hrest⟩ i a hi ha
      cases i with
      | zero =>
        obtain rfl : c = a := by simpa using hi
        rcases ha with rfl | rfl
        · obtain ⟨hstart, hnext⟩ := hplus rfl
          exact ⟨hstart, fun b hb => ⟨hnext b (by simpa [List.head?_eq_getElem?] using hb), rfl⟩⟩
        · obtain ⟨hstart, rfl⟩ := hhash rfl
          exact ⟨hstart, fun b hb => by simp at hb⟩
      | succ i =>
        obtain ⟨hprev, hnext⟩ := hrest i a (by simpa using hi) ha
        refine ⟨?_, fun b hb => hnext b (by simpa using hb)⟩
        cases i with
        | zero => simpa using hprev
        | succ j => simpa using hprev
    · intro h
      refine ⟨?_, ?_, ?_⟩
      · rintro rfl
        obtain ⟨hstart, hnext⟩ := h 0 c rfl (.inl rfl)
        exact ⟨hstart, fun b hb => (hnext b (by simpa [List.head?_eq_getElem?] using hb)).1⟩
      · rintro rfl
        obtain ⟨hstart, hnext⟩ := h 0 c rfl (.inr rfl)
        refine ⟨hstart, ?_⟩
        cases as with
        | nil => rfl
        | cons b as => exact absurd (hnext b rfl).2.symm hne
      · intro i a hi ha
        obtain ⟨hprev, hnext⟩ := h (i + 1) a (by simpa using hi) ha
        refine ⟨?_, fun b hb => hnext b (by simpa using hb)⟩
        cases i with
        | zero => simpa using hprev
        | succ j => simpa using hprev

/-- Nothing is asked of a stretch without the three elements. -/
theorem placed_append_of_ordinary {start : Prop} {as bs : List α} (hne : as ≠ [])
    (h : ∀ a ∈ as, a ≠ sep ∧ a ≠ plus ∧ a ≠ hash) :
    Placed sep plus hash start (as ++ bs) ↔ Placed sep plus hash False bs := by
  induction as generalizing start with
  | nil => exact absurd rfl hne
  | cons a as ih =>
    obtain ⟨⟨hsep, hplus, hhash⟩, has⟩ := List.forall_mem_cons.1 h
    simp only [List.cons_append, Placed, hsep, hplus, hhash, false_implies, true_and]
    cases as with
    | nil => rfl
    | cons a' as => exact ih (by simp) has

end

/-! ## Bytes and characters -/

theorem utf8EncodeChar_ascii {c : Char} (h : c.toNat < 128) :
    String.utf8EncodeChar c = [UInt8.ofNat c.toNat] := by
  have hval : c.val.toNat = c.toNat := rfl
  rw [String.utf8EncodeChar, hval, if_pos (by omega)]

/-- What begins with a slash does so in bytes. -/
theorem head_flatMap_iff (cs : List Char) :
    (∀ b ∈ (cs.flatMap String.utf8EncodeChar).head?, b = 47) ↔ ∀ c ∈ cs.head?, c = '/' := by
  cases cs with
  | nil => simp
  | cons c cs =>
    have hmem : 47 ∈ String.utf8EncodeChar c ↔ c = '/' :=
      mem_utf8EncodeChar_iff (d := '/') (by decide)
    have hslash : String.utf8EncodeChar '/' = [47] := rfl
    obtain ⟨b, bs, hbs⟩ := List.exists_cons_of_ne_nil (String.utf8EncodeChar_ne_nil (c := c))
    have hhead : b = 47 ↔ c = '/' := by
      constructor
      · rintro rfl
        exact hmem.1 (hbs ▸ List.mem_cons_self)
      · rintro rfl
        exact (List.cons.inj (hbs.symm.trans hslash)).1
    simpa [hbs] using hhead

/-- No other character has one of the three bytes. -/
theorem utf8EncodeChar_ordinary {c : Char} (hsep : c ≠ '/') (hplus : c ≠ '+') (hhash : c ≠ '#') :
    ∀ b ∈ String.utf8EncodeChar c, b ≠ 47 ∧ b ≠ 43 ∧ b ≠ 35 := by
  have hsep' : 47 ∈ String.utf8EncodeChar c ↔ c = '/' :=
    mem_utf8EncodeChar_iff (d := '/') (by decide)
  have hplus' : 43 ∈ String.utf8EncodeChar c ↔ c = '+' :=
    mem_utf8EncodeChar_iff (d := '+') (by decide)
  have hhash' : 35 ∈ String.utf8EncodeChar c ↔ c = '#' :=
    mem_utf8EncodeChar_iff (d := '#') (by decide)
  intro b hb
  refine ⟨?_, ?_, ?_⟩
  · rintro rfl
    exact hsep (hsep'.1 hb)
  · rintro rfl
    exact hplus (hplus'.1 hb)
  · rintro rfl
    exact hhash (hhash'.1 hb)

/-- The walk over the bytes of some characters is the walk over the characters. -/
theorem placed_flatMap_iff (start : Prop) (cs : List Char) :
    Placed 47 43 35 start (cs.flatMap String.utf8EncodeChar) ↔ Placed '/' '+' '#' start cs := by
  induction cs generalizing start with
  | nil => rfl
  | cons c cs ih =>
    rw [List.flatMap_cons]
    by_cases hc : c = '/' ∨ c = '+' ∨ c = '#'
    · have hempty : cs.flatMap String.utf8EncodeChar = [] ↔ cs = [] := by
        cases cs <;> simp [String.utf8EncodeChar_ne_nil]
      have hascii : c.toNat < 128 := by rcases hc with rfl | rfl | rfl <;> decide
      obtain ⟨hsep, hplus, hhash⟩ : (UInt8.ofNat c.toNat = 47 ↔ c = '/') ∧
          (UInt8.ofNat c.toNat = 43 ↔ c = '+') ∧ (UInt8.ofNat c.toNat = 35 ↔ c = '#') := by
        rcases hc with rfl | rfl | rfl <;> decide
      simp only [utf8EncodeChar_ascii hascii, List.singleton_append, Placed, hsep, hplus, hhash,
        head_flatMap_iff, hempty, ih]
    · obtain ⟨hsep, hplus, hhash⟩ := by simpa only [not_or] using hc
      refine (placed_append_of_ordinary String.utf8EncodeChar_ne_nil
        (utf8EncodeChar_ordinary hsep hplus hhash)).trans ?_
      refine (ih False).trans ?_
      simp only [Placed, hsep, hplus, hhash, false_implies, true_and]

theorem hasValidWildcard_iff_placed (topic : String) :
    hasValidWildcard topic = true ↔ Placed 47 43 35 True (strBytes topic) := by
  generalize hbytes : strBytes topic = bytes
  have next (i : ℕ) (a : UInt8) (hi : bytes[i]? = some a) :
      (bytes[i + 1]?.all fun c => c == 47 && bytes[i]? == some 43) = true ↔
        ∀ b, bytes[i + 1]? = some b → b = 47 ∧ a = 43 := by
    rw [hi]
    cases bytes[i + 1]? <;> simp
  have prev (i : ℕ) : i < bytes.length → ((match i with
        | 0 => true
        | idx + 1 => bytes[idx]?.all (· == 47)) = true ↔
      match i with
        | 0 => True
        | j + 1 => bytes[j]? = some 47) := by
    intro hlt
    cases i with
    | zero => simp
    | succ j => simp [List.getElem?_eq_getElem (by omega : j < bytes.length)]
  rw [placed_iff_getElem? (by decide)]
  simp only [hasValidWildcard, hasValidWildcardBy, hbytes, memchr2Iter, List.all_eq_true, List.mem_filter,
    List.mem_range, Bool.or_eq_true, beq_iff_eq, Bool.and_eq_true]
  constructor
  · intro h i a hi ha
    have hlt := (List.getElem?_eq_some_iff.1 hi).1
    obtain ⟨hprev, hnext⟩ := h i ⟨hlt, by simpa [hi] using ha⟩
    exact ⟨(prev i hlt).1 hprev, (next i a hi).1 (by simpa using hnext)⟩
  · rintro h i ⟨hlt, hwild⟩
    have hi := List.getElem?_eq_getElem hlt
    obtain ⟨hprev, hnext⟩ := h i _ hi (by simpa [hi] using hwild)
    refine ⟨(prev i hlt).2 hprev, ?_⟩
    simpa using (next i _ hi).2 hnext

/-! ## Levels -/

/-- Where the first level ends. -/
theorem splitOn_eq_cons {cs level : List Char} {levels : List (List Char)}
    (h : cs.splitOn '/' = level :: levels) :
    ((∀ c ∈ cs.head?, c = '/') ↔ level = []) ∧ (cs = [] ↔ level = [] ∧ levels = []) := by
  cases cs with
  | nil =>
    obtain ⟨rfl, rfl⟩ : [] = level ∧ [] = levels := by simpa using h
    simp
  | cons c cs =>
    obtain ⟨first, rest, hsplit⟩ := List.exists_cons_of_ne_nil (List.splitOn_ne_nil '/' cs)
    rw [List.splitOn_cons_eq_if_modifyHead, hsplit] at h
    by_cases hsep : c = '/'
    · subst hsep
      obtain ⟨rfl, rfl⟩ : [] = level ∧ first :: rest = levels := by simpa using h
      simp
    · obtain ⟨rfl, rfl⟩ : c :: first = level ∧ rest = levels := by simpa [hsep] using h
      simp [hsep]

/-- The walk in front of a level, and behind the front of one. -/
theorem placed_iff_validLevels (cs level : List Char) (levels : List (List Char))
    (h : cs.splitOn '/' = level :: levels) :
    (Placed '/' '+' '#' True cs ↔ ValidLevels (level :: levels)) ∧
      (Placed '/' '+' '#' False cs ↔
        ('+' ∉ level ∧ '#' ∉ level) ∧ ValidLevels levels) := by
  induction cs generalizing level levels with
  | nil =>
    obtain ⟨rfl, rfl⟩ : [] = level ∧ [] = levels := by simpa using h
    simp [Placed, ValidLevels]
  | cons c cs ih =>
    obtain ⟨first, rest, hsplit⟩ := List.exists_cons_of_ne_nil (List.splitOn_ne_nil '/' cs)
    obtain ⟨front, inside⟩ := ih first rest hsplit
    rw [List.splitOn_cons_eq_if_modifyHead, hsplit] at h
    by_cases hsep : c = '/'
    · subst hsep
      obtain ⟨rfl, rfl⟩ : [] = level ∧ first :: rest = levels := by simpa using h
      simp [Placed, front, ValidLevels]
    · obtain ⟨rfl, rfl⟩ : c :: first = level ∧ rest = levels := by simpa [hsep] using h
      obtain ⟨hnext, hend⟩ := splitOn_eq_cons hsplit
      have hinside : Placed '/' '+' '#' (c = '/') cs ↔
          ('+' ∉ first ∧ '#' ∉ first) ∧ ValidLevels rest := by
        rw [eq_false hsep]
        exact inside
      by_cases hplus : c = '+'
      · subst hplus
        simp only [Placed, ValidLevels, hnext, hinside]
        by_cases hfirst : first = []
        · simp [hfirst]
        · simp [hfirst]
      · by_cases hhash : c = '#'
        · subst hhash
          simp only [Placed, ValidLevels, hend, hinside]
          by_cases hfirst : first = []
          · by_cases hrest : rest = []
            · simp [hfirst, hrest, ValidLevels]
            · simp [hfirst, hrest]
          · simp [hfirst]
        · have hplus' : '+' ≠ c := Ne.symm hplus
          have hhash' : '#' ≠ c := Ne.symm hhash
          simp [Placed, ValidLevels, hinside, hplus, hhash, hplus', hhash']

/-- The check decides the grammar. -/
theorem hasValidWildcard_eq_true_iff (topic : String) :
    hasValidWildcard topic = true ↔ ValidFilter topic := by
  obtain ⟨level, levels, h⟩ := List.exists_cons_of_ne_nil (List.splitOn_ne_nil '/' topic.toList)
  rw [hasValidWildcard_iff_placed, strBytes_eq_flatMap, placed_flatMap_iff, ValidFilter, h]
  exact (placed_iff_validLevels _ _ _ h).1

/-! ## Any search for the wildcards -/

/-- The positions of either needle, in any order. -/
def YieldsPositions (iter : UInt8 → UInt8 → List UInt8 → List ℕ) : Prop :=
  ∀ needle1 needle2 haystack i, i ∈ iter needle1 needle2 haystack ↔
    haystack[i]? = some needle1 ∨ haystack[i]? = some needle2

theorem yieldsPositions_memchr2Iter : YieldsPositions memchr2Iter := by
  intro needle1 needle2 haystack i
  simp only [memchr2Iter, List.mem_filter, List.mem_range, Bool.or_eq_true, beq_iff_eq]
  refine ⟨fun h => h.2, fun h => ⟨?_, h⟩⟩
  by_contra hlt
  rw [List.getElem?_eq_none (not_lt.1 hlt)] at h
  simp at h

/-- Only which positions are yielded matters. -/
theorem hasValidWildcardBy_congr {iter iter' : UInt8 → UInt8 → List UInt8 → List ℕ}
    (h : YieldsPositions iter) (h' : YieldsPositions iter') (topic : String) :
    hasValidWildcardBy iter topic = hasValidWildcardBy iter' topic := by
  have hmem (i : ℕ) : i ∈ iter 43 35 (strBytes topic) ↔ i ∈ iter' 43 35 (strBytes topic) :=
    (h _ _ _ i).trans (h' _ _ _ i).symm
  apply Bool.eq_iff_iff.2
  simp only [hasValidWildcardBy, List.all_eq_true, hmem]

/-- The check decides the grammar of topic filters, whatever finds the wildcards. -/
theorem hasValidWildcardBy_eq_true_iff {iter : UInt8 → UInt8 → List UInt8 → List ℕ}
    (hiter : YieldsPositions iter) (topic : String) :
    hasValidWildcardBy iter topic = true ↔
      ∀ i level, (topic.toList.splitOn '/')[i]? = some level →
        ('+' ∉ level ∧ '#' ∉ level) ∨ level = ['+'] ∨
          (level = ['#'] ∧ i + 1 = (topic.toList.splitOn '/').length) := by
  rw [hasValidWildcardBy_congr hiter yieldsPositions_memchr2Iter, ← hasValidWildcard,
    hasValidWildcard_eq_true_iff, ValidFilter, validLevels_iff_getElem?]

theorem hasValidWildcardBy_levels : hasValidWildcardBy memchr2Iter "a/+/#" = true := by
  apply (hasValidWildcardBy_eq_true_iff yieldsPositions_memchr2Iter "a/+/#").2
  have hsplit : "a/+/#".toList.splitOn '/' = [['a'], ['+'], ['#']] := by decide
  rw [hsplit]
  exact (validLevels_iff_getElem? _).1 (by simp [ValidLevels])

end Mcutt
