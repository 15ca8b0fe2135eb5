import Mcutt.Lib.Chunks
import Mcutt.Sync.View

/-!
# What a call of `read` does

Every request and every frame ends in one of a few ways (`View.Filled`, `View.Framed`), and the
search for a header ends before its fuel does (`View.nextFrameLoop_fuel`).  From an inner reader
whose behaviour is known, the search moves bytes to the buffer and loses none, whether it finds a
header or fails (`View.nextFrameLoop_searched`).  When the inner reader delivers chunks and never
fails, what `read` returns depends on the stream and on where its chunks end
(`View.read_chunks`).
-/

namespace Mcutt

open Machine

namespace View

/-- The errors of `fill_head` and `read_frame` that come from the inner reader. -/
def ioFault (kind : IoErrorKind) : Fault := .err ⟨.stdIo kind, "while reading"⟩

/-! ## One request -/

section

variable {R : Type} [Read R]

/-- How a request for the header ends. -/
inductive Filled (v : View R) : EStateM.Result Fault (View R) Unit → Prop where
  | grown {bytes : List UInt8} {inner : R}
      (request : Read.read (Reader.MIN - v.pending.length) v.inner = (.ok bytes, inner))
      (ne : bytes ≠ []) : Filled v (.ok ⟨⟩ { v with pending := v.pending ++ bytes, inner })
  | ended {inner : R}
      (request : Read.read (Reader.MIN - v.pending.length) v.inner = (.ok [], inner)) :
      Filled v (.error (ioFault .unexpectedEof) { v with inner })
  | failed {kind : IoErrorKind} {inner : R}
      (request : Read.read (Reader.MIN - v.pending.length) v.inner = (.error kind, inner)) :
      Filled v (.error (ioFault kind) { v with inner })

theorem fillHead_filled (v : View R) : Filled v (fillHead v) := by
  simp only [fillHead, bind_apply, get_apply]
  rcases hread : Read.read (Reader.MIN - v.pending.length) v.inner with ⟨kind | bytes, inner⟩
  · exact .failed hread
  · by_cases hnil : bytes = []
    · subst hnil
      simp only [bind_apply, set_apply, List.append_nil, if_true]
      exact .ended hread
    · simp only [bind_apply, set_apply, if_neg hnil, pure_apply]
      exact .grown hread hnil

/-- A request that is served is answered with something. -/
theorem fillHead_eq_ok {v v' : View R} (h : fillHead v = .ok ⟨⟩ v') :
    ∃ bytes, bytes ≠ [] ∧
      Read.read (Reader.MIN - v.pending.length) v.inner = (.ok bytes, v'.inner) ∧
      v' = { v with pending := v.pending ++ bytes, inner := v'.inner } := by
  have hfilled := fillHead_filled v
  rw [h] at hfilled
  cases hfilled with
  | grown request ne => exact ⟨_, ne, request, rfl⟩

/-- A request that fails leaves the pending bytes alone. -/
theorem fillHead_eq_error {v v' : View R} {e : Fault} (h : fillHead v = .error e v') :
    ∃ answer, Read.read (Reader.MIN - v.pending.length) v.inner = (answer, v'.inner) ∧
      (answer = .ok [] ∨ ∃ kind, answer = .error kind) ∧ v' = { v with inner := v'.inner } := by
  have hfilled := fillHead_filled v
  rw [h] at hfilled
  cases hfilled with
  | ended request => exact ⟨_, request, .inl rfl, rfl⟩
  | failed request => exact ⟨_, request, .inr ⟨_, rfl⟩, rfl⟩

/-- How `read_frame` ends: it refuses the frame, has it, completes it, or is interrupted and loses
what it had taken. -/
inductive Framed (v : View R) (n : ℕ) : EStateM.Result Fault (View R) (List UInt8) → Prop where
  | refused (big : v.capacity < n) :
      Framed v n (.error (.err ⟨.outOfRange, "payload is too big"⟩) v)
  | there (fits : n ≤ v.capacity) (whole : n ≤ v.pending.length) : Framed v n (.ok v.pending v)
  | completed {got : List UInt8} {inner : R} (fits : n ≤ v.capacity)
      (short : v.pending.length < n)
      (request : Read.readExact (n - v.pending.length) v.inner = (got, .ok ⟨⟩, inner)) :
      Framed v n (.ok (v.pending ++ got) { v with pending := v.pending ++ got, inner })
  | interrupted {got : List UInt8} {kind : IoErrorKind} {inner : R} (fits : n ≤ v.capacity)
      (short : v.pending.length < n)
      (request : Read.readExact (n - v.pending.length) v.inner = (got, .error kind, inner)) :
      Framed v n (.error (ioFault kind) { v with inner })

theorem readFrame_framed (n : ℕ) (v : View R) : Framed v n (readFrame n v) := by
  simp only [readFrame, fillFrame, bind_apply, get_apply]
  by_cases hbig : v.capacity < n
  · simp only [if_pos hbig]
    exact .refused hbig
  · simp only [if_neg hbig, bind_apply, get_apply]
    by_cases hshort : v.pending.length < n
    · simp only [if_pos hshort]
      rcases hread : Read.readExact (n - v.pending.length) v.inner with ⟨got, kind | ⟨⟩, inner⟩
      · exact .interrupted (not_lt.1 hbig) hshort hread
      · exact .completed (not_lt.1 hbig) hshort hread
    · simp only [if_neg hshort]
      exact .there (not_lt.1 hbig) (not_lt.1 hshort)

theorem readFrame_frame (n : ℕ) (v : View R) : (final (readFrame n v)).frame = v.frame := by
  have hframed := readFrame_framed n v
  generalize readFrame n v = r at hframed ⊢
  cases hframed <;> rfl

end

variable [Target]

/-! ## The fuel of the search -/

section

variable {R : Type} [Read R]

theorem nextFrameLoop_succ (fuel : ℕ) (v : View R) :
    nextFrameLoop (fuel + 1) v = match FixedHeader.nextFrame v.pending with
      | .error e => .error e v
      | .ok (some n) => .ok n { v with frame := some n }
      | .ok none => (fillHead >>= fun _ => nextFrameLoop fuel) v := by
  simp only [nextFrameLoop, bind_apply, get_apply]
  rcases FixedHeader.nextFrame v.pending with e | _ | n <;> rfl

/-- More fuel than the window has free places changes nothing. -/
theorem nextFrameLoop_fuel {fuel : ℕ} {v : View R} (h : Reader.MIN ≤ v.pending.length + fuel)
    (more : ℕ) : nextFrameLoop (fuel + 1 + more) v = nextFrameLoop (fuel + 1) v := by
  induction fuel using Nat.strong_induction_on generalizing v with
  | _ fuel ih =>
    rw [show fuel + 1 + more = fuel + more + 1 by omega, nextFrameLoop_succ, nextFrameLoop_succ]
    rcases hn : FixedHeader.nextFrame v.pending with e | _ | n
    · rfl
    · have hlen : v.pending.length < Reader.MIN := FixedHeader.length_lt_of_nextFrame_none hn
      obtain ⟨fuel, rfl⟩ : ∃ m, fuel = m + 1 := ⟨fuel - 1, by omega⟩
      simp only [bind_apply]
      cases hfill : fillHead v with
      | error e v' => rfl
      | ok a v' =>
        obtain ⟨bytes, hne, -, hv'⟩ := fillHead_eq_ok hfill
        have hpos := List.length_pos_iff.2 hne
        apply ih fuel (by omega)
        rw [hv', List.length_append]
        omega
    · rfl

/-- The search, free of its fuel. -/
theorem nextFrameLoop_eq (v : View R) :
    nextFrameLoop (Reader.MIN + 1) v = match FixedHeader.nextFrame v.pending with
      | .error e => .error e v
      | .ok (some n) => .ok n { v with frame := some n }
      | .ok none => (fillHead >>= fun _ => nextFrameLoop (Reader.MIN + 1)) v := by
  rw [← nextFrameLoop_succ, nextFrameLoop_fuel (by omega) 1]

/-- How a search ends whose last look at the pending bytes is in `v`. -/
inductive Sought (v : View R) : EStateM.Result Fault (View R) ℕ → Prop where
  | found {n : ℕ} (announced : FixedHeader.nextFrame v.pending = .ok (some n)) :
      Sought v (.ok n { v with frame := some n })
  | malformed {e : Fault} (error : FixedHeader.nextFrame v.pending = .error e) :
      Sought v (.error e v)
  | stopped {e : Fault} {v' : View R} (short : FixedHeader.nextFrame v.pending = .ok none)
      (fill : fillHead v = .error e v') : Sought v (.error e v')

/-- What every request of the search keeps still holds when it ends. -/
theorem nextFrameLoop_sought {J : View R → Prop}
    (keep : ∀ v v', J v → v.pending.length < Reader.MIN → fillHead v = .ok ⟨⟩ v' → J v')
    {fuel : ℕ} {v : View R} (hJ : J v) (hfuel : Reader.MIN ≤ v.pending.length + fuel) :
    ∃ v₀, J v₀ ∧ Sought v₀ (nextFrameLoop (fuel + 1) v) := by
  induction fuel using Nat.strong_induction_on generalizing v with
  | _ fuel ih =>
    rw [nextFrameLoop_succ]
    rcases hn : FixedHeader.nextFrame v.pending with e | _ | n
    · exact ⟨v, hJ, .malformed hn⟩
    · have hlen : v.pending.length < Reader.MIN := FixedHeader.length_lt_of_nextFrame_none hn
      obtain ⟨fuel, rfl⟩ : ∃ m, fuel = m + 1 := ⟨fuel - 1, by omega⟩
      simp only [bind_apply]
      cases hfill : fillHead v with
      | error e v' => exact ⟨v, hJ, .stopped hn hfill⟩
      | ok a v' =>
        obtain ⟨bytes, hne, -, hv'⟩ := fillHead_eq_ok hfill
        have hpos := List.length_pos_iff.2 hne
        apply ih fuel (by omega) (keep v v' hJ hlen hfill)
        rw [hv', List.length_append]
        omega
    · exact ⟨v, hJ, .found hn⟩

/-! ## The frame in front -/

theorem currentFrame_of_some {v : View R} {n : ℕ} (hf : v.frame = some n) :
    currentFrame v = .ok n v := by
  simp only [currentFrame, bind_apply, get_apply, hf, pure_apply]

/-- Without a known frame a header is looked for, unless a full window trips the assertion. -/
theorem currentFrame_of_none {v : View R} (hf : v.frame = none) :
    currentFrame v = nextFrameLoop (Reader.MIN + 1) v ∨ Reader.MIN ≤ v.pending.length ∧
      ∃ msg, currentFrame v = .error (.panicked msg) v := by
  simp only [currentFrame, nextFrame, bind_apply, get_apply, hf, debugAssert]
  split_ifs with hd
  · simp only [Bool.and_eq_true, Bool.not_eq_true', decide_eq_false_iff_not] at hd
    exact .inr ⟨not_lt.1 hd.2, _, rfl⟩
  · exact .inl rfl

theorem currentFrame_of_short {v : View R} (hf : v.frame = none)
    (hlen : v.pending.length < Reader.MIN) :
    currentFrame v = nextFrameLoop (Reader.MIN + 1) v :=
  (currentFrame_of_none hf).resolve_right fun h => absurd h.1 (not_le.2 hlen)

/-- The frame that is found is known from then on. -/
theorem frame_of_currentFrame {v v' : View R} {n : ℕ} (h : currentFrame v = .ok n v') :
    v'.frame = some n := by
  cases hf : v.frame with
  | some m =>
    rw [currentFrame_of_some hf] at h
    cases h
    exact hf
  | none =>
    rcases currentFrame_of_none hf with heq | ⟨-, msg, heq⟩
    · obtain ⟨v₀, -, hend⟩ := nextFrameLoop_sought (J := fun _ => True)
        (fun _ _ _ _ _ => trivial) trivial (Nat.le_add_left Reader.MIN v.pending.length)
      rw [← heq, h] at hend
      cases hend
      rfl
    · rw [heq] at h
      cases h

end

/-! ## Searching a header in a schedule -/

/-- What was read and not consumed, and what the inner reader has yet to deliver. -/
def rest (v : View Input) : List UInt8 := v.pending ++ Schedule.payload v.inner

/-- What was read and not consumed, and what the inner reader delivers before its next error. -/
def available (v : View Input) : List UInt8 := v.pending ++ (Chunks.leading v.inner).flatten

/-- What was read and not consumed, and what `read_exact` gets before it fails. -/
def reach (v : View Input) : List UInt8 := v.pending ++ Schedule.lead isInterrupted v.inner

/-- What a call leaves that loses nothing. -/
structure Progress (v v' : View Input) : Prop where
  capacity : v'.capacity = v.capacity
  pending : v.pending <+: v'.pending
  rest : v'.rest = v.rest
  inner : Schedule.Ahead v.inner v'.inner

omit [Target] in
theorem Progress.refl (v : View Input) : Progress v v := ⟨rfl, List.prefix_rfl, rfl, .refl _⟩

omit [Target] in
theorem Progress.trans {v₁ v₂ v₃ : View Input} (h₁ : Progress v₁ v₂) (h₂ : Progress v₂ v₃) :
    Progress v₁ v₃ :=
  ⟨h₂.capacity.trans h₁.capacity, h₁.pending.trans h₂.pending, h₂.rest.trans h₁.rest,
    h₁.inner.trans h₂.inner⟩

omit [Target] in
theorem fillHead_cases {v : View Input} (hne : Schedule.NonemptyChunks v.inner)
    (hlen : v.pending.length < Reader.MIN) :
    (∃ v', fillHead v = .ok ⟨⟩ v' ∧ Progress v v' ∧ v'.frame = v.frame ∧
        v'.available = v.available ∧ v'.reach = v.reach ∧
        v.pending.length < v'.pending.length ∧ v'.pending.length ≤ Reader.MIN) ∨
      (fillHead v = .error (ioFault .unexpectedEof) v ∧ v.inner = []) ∨
      ∃ kind inner, fillHead v = .error (ioFault kind) { v with inner } ∧
        v.inner = .fail kind :: inner := by
  have hfilled := fillHead_filled v
  generalize fillHead v = r at hfilled ⊢
  cases hfilled with
  | @grown bytes inner request ne =>
    have hread : Schedule.read (Reader.MIN - v.pending.length) v.inner = (.ok bytes, inner) :=
      request
    obtain ⟨hpay, hle⟩ := Schedule.payload_read hread
    have hpos := List.length_pos_iff.2 ne
    have hahead := Schedule.ahead_read (Reader.MIN - v.pending.length) v.inner
    rw [hread] at hahead
    refine .inl ⟨_, rfl, ⟨rfl, List.prefix_append _ _, ?_, hahead⟩, rfl, ?_, ?_, ?_, ?_⟩
    · simp only [rest, hpay, List.append_assoc]
    · simp only [available, Chunks.flatten_leading_read hread, List.append_assoc]
    · simp only [reach, Schedule.lead_read ne hread, List.append_assoc]
    · simpa using hpos
    · simp only [List.length_append]
      omega
  | ended request =>
    have hpos : 0 < Reader.MIN - v.pending.length := Nat.sub_pos_of_lt hlen
    obtain ⟨hinner, rfl⟩ := Schedule.read_eq_nil hne hpos request
    refine .inr (.inl ⟨?_, hinner⟩)
    rw [← hinner]
  | @failed kind inner request =>
    exact .inr (.inr ⟨kind, inner, rfl, Schedule.payload_read_error request⟩)

/-- How a search for a header ends. -/
inductive Searched (v : View Input) : EStateM.Result Fault (View Input) ℕ → Prop where
  | found {v' : View Input} {n : ℕ} (progress : Progress v v') (frame : v'.frame = some n)
      (available : v'.available = v.available)
      (announced : FixedHeader.nextFrame v'.pending = .ok (some n))
      (length_le : v'.pending.length ≤ max Reader.MIN v.pending.length)
      (reach : v'.reach = v.reach) : Searched v (.ok n v')
  | malformed {v' : View Input} {e : Fault} (progress : Progress v v') (frame : v'.frame = v.frame)
      (error : FixedHeader.nextFrame v'.pending = .error e) : Searched v (.error e v')
  | ended {v' : View Input} (progress : Progress v v') (frame : v'.frame = v.frame)
      (short : FixedHeader.nextFrame v'.pending = .ok none) (inner : v'.inner = []) :
      Searched v (.error (ioFault .unexpectedEof) v')
  | failed {v' : View Input} {kind : IoErrorKind} (progress : Progress v v')
      (frame : v'.frame = v.frame) (short : FixedHeader.nextFrame v'.pending = .ok none)
      (mem : .fail kind ∈ v.inner) (length_lt : v'.inner.length < v.inner.length) :
      Searched v (.error (ioFault kind) v')

/-- What the requests of a search keep of the state it started in. -/
structure Sofar (v v' : View Input) : Prop where
  progress : Progress v v'
  frame : v'.frame = v.frame
  available : v'.available = v.available
  reach : v'.reach = v.reach
  length_le : v'.pending.length ≤ max Reader.MIN v.pending.length

omit [Target] in
theorem Sofar.fillHead {v v' v'' : View Input} (hne : Schedule.NonemptyChunks v.inner)
    (h : Sofar v v') (hlen : v'.pending.length < Reader.MIN)
    (hfill : View.fillHead v' = .ok ⟨⟩ v'') : Sofar v v'' := by
  rcases fillHead_cases (h.progress.inner.nonempty hne) hlen with
    ⟨v₂, heq, hprog, hframe, hav, hreach, -, hle⟩ | ⟨heq, -⟩ | ⟨kind, inner, heq, -⟩
  · rw [heq] at hfill
    obtain rfl : v₂ = v'' := by simpa using hfill
    exact ⟨h.progress.trans hprog, hframe.trans h.frame, hav.trans h.available,
      hreach.trans h.reach, by omega⟩
  · rw [heq] at hfill
    cases hfill
  · rw [heq] at hfill
    cases hfill

theorem nextFrameLoop_searched {fuel : ℕ} {v : View Input}
    (hne : Schedule.NonemptyChunks v.inner) (hfuel : Reader.MIN ≤ v.pending.length + fuel) :
    Searched v (nextFrameLoop (fuel + 1) v) := by
  obtain ⟨v₀, hsofar, hend⟩ := nextFrameLoop_sought (fun _ _ h => h.fillHead hne)
    (⟨.refl v, rfl, rfl, rfl, le_max_right _ _⟩ : Sofar v v) hfuel
  obtain ⟨hprog, hframe, hav, hreach, hle⟩ := hsofar
  generalize nextFrameLoop (fuel + 1) v = r at hend ⊢
  cases hend with
  | @found n announced =>
    have hknown : Progress v { v₀ with frame := some n } :=
      ⟨hprog.capacity, hprog.pending, hprog.rest, hprog.inner⟩
    exact .found hknown rfl hav announced hle hreach
  | malformed error => exact .malformed hprog hframe error
  | stopped short fill =>
    have hlen : v₀.pending.length < Reader.MIN := FixedHeader.length_lt_of_nextFrame_none short
    rcases fillHead_cases (hprog.inner.nonempty hne) hlen with
      ⟨v', heq, -⟩ | ⟨heq, hinner⟩ | ⟨kind, inner, heq, hinner⟩
    · rw [heq] at fill
      cases fill
    · obtain ⟨rfl, rfl⟩ : ioFault .unexpectedEof = _ ∧ v₀ = _ := by simpa [heq] using fill
      exact .ended hprog hframe short hinner
    · obtain ⟨rfl, rfl⟩ : ioFault kind = _ ∧ { v₀ with inner } = _ := by simpa [heq] using fill
      have hstep : Progress v₀ { v₀ with inner } :=
        ⟨rfl, List.prefix_rfl, by simp [rest, hinner], hinner ▸ .tail _ _⟩
      have hlt : inner.length < v₀.inner.length := by simp [hinner]
      exact .failed (hprog.trans hstep) hframe short
        (hprog.inner.fails _ (hinner ▸ List.mem_cons_self)) (hlt.trans_le hprog.inner.length_le)

/-! ## The invariant of the fields -/

/-- A known frame is the one in front, and behind it there is at most what the window had; without
a known frame there is less than a window, unless the stream is malformed. -/
structure Inv (v : View Input) : Prop where
  known : ∀ n ∈ v.frame, FixedHeader.nextFrame v.pending = .ok (some n) ∧
    v.pending.length ≤ max Reader.MIN n
  drained : v.frame = none → v.pending.length < Reader.MIN ∨
    ∃ e, FixedHeader.nextFrame v.pending = .error e

theorem inv_new (capacity : ℕ) (inner : Input) : Inv ⟨capacity, [], none, inner⟩ :=
  ⟨by rintro _ ⟨⟩, fun _ => .inl (Nat.succ_pos _)⟩

/-- Behind a known frame there is less than a window. -/
theorem Inv.length_drop_lt {v : View Input} (inv : Inv v) {n : ℕ} (hf : v.frame = some n) :
    (v.pending.drop n).length < Reader.MIN := by
  obtain ⟨hn, hlen⟩ := inv.known n hf
  obtain ⟨-, hle, -⟩ := FixedHeader.headerLength_le hn
  have h2 : 2 ≤ FixedHeader.headerLength v.pending := Nat.le_add_left 2 _
  simp only [List.length_drop, Reader.MIN, RemainingLength.maxBytes] at hlen ⊢
  omega

theorem Inv.consume {v : View Input} (inv : Inv v) : Inv (final (consume v)) := by
  obtain ⟨capacity, pending, frame, inner⟩ := v
  cases frame with
  | none => exact inv
  | some n => exact ⟨by rintro _ ⟨⟩, fun _ => .inl (inv.length_drop_lt rfl)⟩

/-- Only a malformed header that is already there stops the search before it starts. -/
theorem currentFrame_cases {v : View Input} (hne : Schedule.NonemptyChunks v.inner) (inv : Inv v) :
    Searched v (currentFrame v) ∨ v.frame = none ∧ ∃ e msg,
      FixedHeader.nextFrame v.pending = .error e ∧ currentFrame v = .error (.panicked msg) v := by
  cases hf : v.frame with
  | some n =>
    rw [currentFrame_of_some hf]
    exact .inl (.found (.refl v) hf rfl (inv.known n hf).1 (le_max_right _ _) rfl)
  | none =>
    have hloop : Searched v (nextFrameLoop (Reader.MIN + 1) v) :=
      nextFrameLoop_searched hne (by omega)
    rcases currentFrame_of_none hf with heq | ⟨hd, msg, heq⟩
    · rw [heq]
      exact .inl hloop
    · obtain ⟨e, he⟩ := (inv.drained hf).resolve_left (not_lt.2 hd)
      exact .inr ⟨rfl, e, msg, he, heq⟩

/-- What the requests of a search do to the pending bytes. -/
structure Grown {R : Type} (v v' : View R) : Prop where
  frame : v'.frame = v.frame
  pending : v.pending <+: v'.pending
  length_le : v'.pending.length ≤ max Reader.MIN v.pending.length

omit [Target] in
theorem Grown.fillHead {R : Type} [Read R] {v v' v'' : View R} (h : Grown v v')
    (hlen : v'.pending.length < Reader.MIN) (hfill : View.fillHead v' = .ok ⟨⟩ v'') :
    Grown v v'' := by
  obtain ⟨bytes, -, hread, heq⟩ := fillHead_eq_ok hfill
  have hle := Read.read_length _ _ _ _ hread
  rw [heq]
  refine ⟨h.frame, h.pending.trans (List.prefix_append _ _), ?_⟩
  simp only [List.length_append]
  omega

theorem Inv.currentFrame {v : View Input} (inv : Inv v) : Inv (final (currentFrame v)) := by
  cases hf : v.frame with
  | some n =>
    rw [currentFrame_of_some hf]
    exact inv
  | none =>
    rcases currentFrame_of_none hf with heq | ⟨-, msg, heq⟩
    · obtain ⟨v₀, grown, hend⟩ := nextFrameLoop_sought (fun _ _ h => h.fillHead)
        (⟨rfl, List.prefix_rfl, le_max_right _ _⟩ : Grown v v)
        (Nat.le_add_left Reader.MIN v.pending.length)
      rw [heq]
      generalize nextFrameLoop (Reader.MIN + 1) v = r at hend ⊢
      cases hend with
      | @found n announced =>
        refine ⟨fun m hm => ?_, by rintro ⟨⟩⟩
        obtain rfl : n = m := by simpa using hm
        refine ⟨announced, ?_⟩
        rcases inv.drained hf with hlt | ⟨e, he⟩
        · exact grown.length_le.trans (by omega)
        · obtain ⟨more, hmore⟩ := grown.pending
          have := FixedHeader.nextFrame_error_append he more
          rw [hmore, announced] at this
          cases this
      | malformed error =>
        exact ⟨fun n hn => by simp [grown.frame, hf] at hn, fun _ => .inr ⟨_, error⟩⟩
      | stopped short fill =>
        have hlt := FixedHeader.length_lt_of_nextFrame_none short
        obtain ⟨-, -, -, heq⟩ := fillHead_eq_error fill
        rw [final_error, heq]
        exact ⟨fun n hn => by simp [grown.frame, hf] at hn, fun _ => .inl hlt⟩
    · rw [heq]
      exact inv

omit [Target] in
/-- `read_frame` refuses the frame, completes it, or is interrupted and loses what it had taken. -/
theorem readFrame_cases (v : View Input) (n : ℕ) :
    (v.capacity < n ∧
        readFrame n v = .error (.err ⟨.outOfRange, "payload is too big"⟩) v) ∨
      (n ≤ v.capacity ∧ ∃ v', readFrame n v = .ok v'.pending v' ∧ Progress v v' ∧
        v'.frame = v.frame ∧ v'.pending.length = max n v.pending.length ∧
        n ≤ v.pending.length + (Schedule.lead isInterrupted v.inner).length) ∨
      (n ≤ v.capacity ∧ v.pending.length < n ∧ ∃ got kind inner,
        Read.readExact (n - v.pending.length) v.inner = (got, .error kind, inner) ∧
        readFrame n v = .error (ioFault kind) { v with inner }) := by
  have hframed := readFrame_framed n v
  generalize readFrame n v = r at hframed ⊢
  cases hframed with
  | refused big => exact .inl ⟨big, rfl⟩
  | there fits whole =>
    exact .inr (.inl ⟨fits, v, rfl, .refl v, rfl, (max_eq_right whole).symm, by omega⟩)
  | @completed got inner fits short request =>
    have hgot : got.length = n - v.pending.length := by
      have := Read.readExact_ok (n - v.pending.length) v.inner
      rw [request] at this
      exact this rfl
    have hahead := Schedule.ahead_readExact isInterrupted (n - v.pending.length) v.inner
    have hpay := Schedule.payload_readExact isInterrupted (n - v.pending.length) v.inner
    have hlead := (Schedule.readExact_eq isInterrupted (n - v.pending.length) v.inner).2
    rw [readExact_input, Prod.mk.injEq, Prod.mk.injEq, exactResult_eq_ok, hlead] at request
    obtain ⟨rfl, hlead, rfl⟩ := request
    refine .inr (.inl ⟨fits, { v with pending := v.pending ++ _, inner := _ }, rfl,
      ⟨rfl, List.prefix_append _ _, ?_, hahead⟩, rfl, ?_, by omega⟩)
    · simp only [rest, hpay, List.append_assoc]
    · simp only [List.length_append, hgot]
      omega
  | @interrupted got kind inner fits short request =>
    exact .inr (.inr ⟨fits, short, got, kind, inner, request, rfl⟩)

omit [Target] in
theorem reach_prefix (v : View Input) : v.reach <+: v.rest :=
  (List.prefix_append_right_inj _).2 (Schedule.lead_prefix _ _)

omit [Target] in
/-- `read_frame` returns the frame and what was read behind it, if the frame fits and is in
reach. -/
theorem readFrame_eq_ok_iff {v : View Input} {n : ℕ} {slice : List UInt8} :
    (∃ v', readFrame n v = .ok slice v') ↔ n ≤ v.capacity ∧ n ≤ v.reach.length ∧
      slice = v.reach.take (max n v.pending.length) := by
  have hlength : v.reach.length = v.pending.length + (Schedule.lead isInterrupted v.inner).length :=
    List.length_append
  rcases readFrame_cases v n with ⟨hbig, heq⟩ | ⟨hcap, v', heq, hprog, -, hlen, hle⟩ |
    ⟨hcap, hlt, got, kind, inner, hread, heq⟩
  · simp [heq, not_le.2 hbig]
  · have hpending : v'.pending = v.reach.take (max n v.pending.length) := by
      obtain ⟨more, hmore⟩ := v.reach_prefix
      have htake : (v.reach ++ more).take (max n v.pending.length) =
          v.reach.take (max n v.pending.length) := List.take_append_of_le_length (by omega)
      rw [← htake, hmore, ← hlen, ← hprog.rest, rest, List.take_left]
    rw [heq, ← hpending]
    simp [hcap, hlength, hle, eq_comm]
  · apply iff_of_false (by simp [heq])
    rintro ⟨-, hle, -⟩
    obtain ⟨-, hok⟩ := Schedule.readExact_eq isInterrupted (n - v.pending.length) v.inner
    rw [readExact_input, Prod.mk.injEq, Prod.mk.injEq] at hread
    rw [exactResult_eq_ok.2 (hok.2 (by omega))] at hread
    cases hread.2.1

theorem Inv.readFrame {v : View Input} {n : ℕ} (inv : Inv v) (hf : v.frame = some n) :
    Inv (final (readFrame n v)) := by
  obtain ⟨hn, hlen⟩ := inv.known n hf
  rcases readFrame_cases v n with ⟨-, heq⟩ | ⟨-, v', heq, hprog, hframe, hlen', -⟩ |
    ⟨-, -, got, kind, inner, -, heq⟩
  · rw [heq]
    exact inv
  · rw [heq]
    refine ⟨fun m hm => ?_, fun h => by simp [hframe, hf] at h⟩
    obtain rfl : n = m := by simpa [hframe, hf] using hm
    obtain ⟨more, hmore⟩ := hprog.pending
    refine ⟨?_, ?_⟩
    · rw [final_ok, ← hmore]
      exact FixedHeader.nextFrame_append hn more
    · rw [final_ok, hlen']
      omega
  · rw [heq]
    exact ⟨inv.known, inv.drained⟩

theorem Inv.read {v : View Input} (inv : Inv v) : Inv (final (read v)) := by
  have hinv := inv.currentFrame
  simp only [View.read, bind_apply]
  cases hcur : View.currentFrame v with
  | error e v' =>
    rw [hcur] at hinv
    exact hinv
  | ok n v' =>
    rw [hcur] at hinv
    exact Inv.readFrame hinv (frame_of_currentFrame hcur)

/-- How a call of `read` ends. -/
inductive ReadEnd (v : View Input) : EStateM.Result Fault (View Input) (List UInt8) → Prop where
  | delivered {v' : View Input} {n : ℕ} (progress : Progress v v') (frame : v'.frame = some n)
      (announced : FixedHeader.nextFrame v'.pending = .ok (some n)) (fits : n ≤ v'.capacity)
      (whole : n ≤ v'.pending.length) : ReadEnd v (.ok v'.pending v')
  | refused {v' : View Input} {n : ℕ} (progress : Progress v v') (frame : v'.frame = some n)
      (announced : FixedHeader.nextFrame v'.pending = .ok (some n)) (big : v'.capacity < n) :
      ReadEnd v (.error (.err ⟨.outOfRange, "payload is too big"⟩) v')
  | interrupted {v' : View Input} {n : ℕ} {got : List UInt8} {kind : IoErrorKind} {inner : Input}
      (progress : Progress v v') (frame : v'.frame = some n)
      (available : v'.available = v.available)
      (announced : FixedHeader.nextFrame v'.pending = .ok (some n)) (fits : n ≤ v'.capacity)
      (missing : v'.pending.length < n)
      (exact : Read.readExact (n - v'.pending.length) v'.inner = (got, .error kind, inner)) :
      ReadEnd v (.error (ioFault kind) { v' with inner })
  | malformed {v' : View Input} {e : Fault} (progress : Progress v v') (frame : v'.frame = v.frame)
      (error : FixedHeader.nextFrame v'.pending = .error e) : ReadEnd v (.error e v')
  | ended {v' : View Input} (progress : Progress v v') (frame : v'.frame = v.frame)
      (short : FixedHeader.nextFrame v'.pending = .ok none) (inner : v'.inner = []) :
      ReadEnd v (.error (ioFault .unexpectedEof) v')
  | failed {v' : View Input} {kind : IoErrorKind} (progress : Progress v v')
      (frame : v'.frame = v.frame) (short : FixedHeader.nextFrame v'.pending = .ok none)
      (mem : .fail kind ∈ v.inner) (length_lt : v'.inner.length < v.inner.length) :
      ReadEnd v (.error (ioFault kind) v')
  | undrained {e : Fault} {msg : String} (error : FixedHeader.nextFrame v.pending = .error e) :
      ReadEnd v (.error (.panicked msg) v)

theorem read_ends {v : View Input} (hne : Schedule.NonemptyChunks v.inner) (inv : Inv v) :
    ReadEnd v (read v) := by
  simp only [read, bind_apply]
  rcases currentFrame_cases hne inv with hs | ⟨-, e, msg, he, heq⟩
  · cases hcur : currentFrame v with
    | error e v' =>
      rw [hcur] at hs
      cases hs with
      | malformed progress frame error => exact .malformed progress frame error
      | ended progress frame short inner => exact .ended progress frame short inner
      | failed progress frame short mem length_lt =>
        exact .failed progress frame short mem length_lt
    | ok n v' =>
      rw [hcur] at hs
      cases hs with
      | found progress frame available announced =>
        simp only
        rcases readFrame_cases v' n with ⟨hbig, heq⟩ | ⟨hcap, v₂, heq, hprog, hframe, hlen, -⟩ |
          ⟨hcap, hlt, got, kind, inner, hread, heq⟩
        · rw [heq]
          exact .refused progress frame announced hbig
        · rw [heq]
          obtain ⟨more, hmore⟩ := hprog.pending
          refine .delivered (progress.trans hprog) (hframe.trans frame) ?_
            (hprog.capacity ▸ hcap) (by omega)
          rw [← hmore]
          exact FixedHeader.nextFrame_append announced more
        · rw [heq]
          exact .interrupted progress frame available announced hcap hlt hread
  · rw [heq]
    exact .undrained he

/-- No call changes what has been delivered before it, or the buffer. -/
theorem ReadEnd.ahead {v : View Input} {r : EStateM.Result Fault (View Input) (List UInt8)}
    (h : ReadEnd v r) : Schedule.Ahead v.inner (final r).inner ∧
      (final r).capacity = v.capacity := by
  cases h with
  | @interrupted v' n got kind inner progress _ _ _ _ _ exact =>
    have hahead := Schedule.ahead_readExact isInterrupted (n - v'.pending.length) v'.inner
    obtain ⟨r, hexact, -⟩ := readExact_input_error exact
    rw [hexact] at hahead
    exact ⟨progress.inner.trans hahead, progress.capacity⟩
  | delivered progress | refused progress | malformed progress | ended progress | failed progress =>
    exact ⟨progress.inner, progress.capacity⟩
  | undrained => exact ⟨.refl _, rfl⟩

/-- A call that leaves no known frame behind has found none and lost nothing. -/
theorem ReadEnd.kept {v : View Input} {r : EStateM.Result Fault (View Input) (List UInt8)}
    (h : ReadEnd v r) (hframe : (final r).frame = none) :
    v.frame = none ∧ (final r).rest = v.rest := by
  cases h with
  | delivered _ frame | refused _ frame | interrupted _ frame =>
    have : (some _ : Option ℕ) = none := frame.symm.trans hframe
    cases this
  | malformed progress frame | ended progress frame | failed progress frame =>
    exact ⟨frame.symm.trans hframe, progress.rest⟩
  | undrained => exact ⟨hframe, rfl⟩

/-- A call that returns leaves the frame it returned behind. -/
theorem ReadEnd.frame_of_ok {v v' : View Input} {slice : List UInt8}
    (h : ReadEnd v (.ok slice v')) :
    slice = v'.pending ∧ ∃ n, v'.frame = some n ∧ n ≤ v'.pending.length := by
  cases h with
  | delivered progress frame announced fits whole => exact ⟨rfl, _, frame, whole⟩

/-! ## Reading from chunks -/

section

variable {v : View Input} {cs : List (List UInt8)} {tail : Input}

omit [Target] in
/-- One request of the search. -/
theorem fillHead_chunks {c : List UInt8} {k : ℕ}
    (hinner : v.inner = Chunks.toSchedule (c :: cs) ++ tail) (hne : Chunks.Nonempty (c :: cs))
    (hlen : v.pending.length < Reader.MIN)
    (hk : k = min (Reader.MIN - v.pending.length) c.length) :
    ∃ v', fillHead v = .ok ⟨⟩ v' ∧ v'.capacity = v.capacity ∧
      v'.pending ++ (Chunks.advance k (c :: cs)).flatten = v.pending ++ (c :: cs).flatten ∧
      v'.pending.length = v.pending.length + k ∧
      v'.inner = Chunks.toSchedule (Chunks.advance k (c :: cs)) ++ tail := by
  have hhead := Chunks.take_head (Reader.MIN - v.pending.length) c cs
  have hnil : c.take (Reader.MIN - v.pending.length) ≠ [] := by
    rw [Ne, List.take_eq_nil_iff, not_or]
    exact ⟨by omega, List.length_pos_iff.1 hne.length_pos⟩
  refine ⟨{ v with
    pending := v.pending ++ c.take (Reader.MIN - v.pending.length)
    inner := Chunks.toSchedule (Chunks.advance k (c :: cs)) ++ tail }, ?_, rfl, ?_, ?_, rfl⟩
  · simp only [fillHead, bind_apply, get_apply, hinner, Read.read, Chunks.read_toSchedule _ hne,
      ← hk, set_apply, if_neg hnil, pure_apply]
  · simp only [Chunks.flatten_advance, hhead, ← hk, List.append_assoc, List.take_append_drop]
  · rw [List.length_append, List.length_take, hk]

/-- The search takes what the window takes until the header is complete. -/
theorem nextFrameLoop_chunks {n : ℕ} {stream : List UInt8}
    (hstream : stream = v.pending ++ cs.flatten) (hinner : v.inner = Chunks.toSchedule cs ++ tail)
    (hne : Chunks.Nonempty cs) (hn : FixedHeader.nextFrame stream = .ok (some n))
    (hlen : v.pending.length ≤ Reader.MIN) :
    nextFrameLoop (Reader.MIN + 1) v = .ok n
      (let w := Chunks.window Reader.MIN (FixedHeader.headerLength stream) v.pending.length cs
      ⟨v.capacity, stream.take w, some n,
        Chunks.toSchedule (Chunks.advance (w - v.pending.length) cs) ++ tail⟩) := by
  induction hfree : Reader.MIN - v.pending.length using Nat.strong_induction_on
    generalizing v cs with
  | _ free ih =>
    obtain ⟨hmin, -, hle⟩ := FixedHeader.headerLength_le hn
    replace hmin : FixedHeader.headerLength stream ≤ Reader.MIN := hmin
    have htake : stream.take v.pending.length = v.pending := by
      rw [hstream, List.take_left']
      rfl
    have hnext := FixedHeader.nextFrame_take hn v.pending.length
    rw [htake] at hnext
    rw [nextFrameLoop_eq, hnext]
    by_cases hw : FixedHeader.headerLength stream ≤ v.pending.length
    · simp only [if_pos hw, Chunks.window_of_le hw, htake, Nat.sub_self, Chunks.advance_zero hne,
        ← hinner]
    · simp only [if_neg hw]
      cases cs with
      | nil =>
        rw [hstream, List.flatten_nil, List.append_nil] at hle hw
        exact absurd hle hw
      | cons c cs =>
        have hc := hne.length_pos
        obtain ⟨v', hfill, hcap, hstream', hlen', hinner'⟩ :=
          fillHead_chunks hinner hne (by omega) rfl
        generalize hk : min (Reader.MIN - v.pending.length) c.length = k at hstream' hlen' hinner'
        have hloop := ih (Reader.MIN - v'.pending.length) (by omega)
          (hstream.trans hstream'.symm) hinner' (hne.advance k) (by omega) rfl
        have hstep := Chunks.window_step hne (not_le.1 hw) hmin
        have hstart := Chunks.start_le_window (FixedHeader.headerLength stream)
          (Chunks.advance k (c :: cs)) (by omega : v.pending.length + k ≤ Reader.MIN)
        rw [hk] at hstep
        simp only [hlen', hcap, Chunks.advance_advance, ← hstep] at hloop hstart
        simp only [bind_apply, hfill, hloop]
        rw [show ∀ w, v.pending.length + k ≤ w →
          k + (w - (v.pending.length + k)) = w - v.pending.length by omega]
        exact hstart

/-- What `read` returns of a frame that is there: at least the frame, and what the window took. -/
theorem read_chunks {n : ℕ} {stream : List UInt8} (hf : v.frame = none)
    (hstream : stream = v.pending ++ cs.flatten) (hinner : v.inner = Chunks.toSchedule cs)
    (hne : Chunks.Nonempty cs) (hn : FixedHeader.nextFrame stream = .ok (some n))
    (hlen : v.pending.length < Reader.MIN) (hcap : n ≤ v.capacity) (hle : n ≤ stream.length) :
    read v =
      (let m := max n
        (Chunks.window Reader.MIN (FixedHeader.headerLength stream) v.pending.length cs)
      .ok (stream.take m) ⟨v.capacity, stream.take m, some n,
        Chunks.toSchedule (Chunks.advance (m - v.pending.length) cs)⟩) := by
  have hinner' : v.inner = Chunks.toSchedule cs ++ [] := by rw [hinner, List.append_nil]
  have hloop := nextFrameLoop_chunks hstream hinner' hne hn hlen.le
  have hstart := Chunks.start_le_window (FixedHeader.headerLength stream) cs hlen.le
  have hend := Chunks.window_le_stream Reader.MIN (FixedHeader.headerLength stream)
    v.pending.length cs
  rw [← List.length_append, ← hstream] at hend
  generalize Chunks.window Reader.MIN (FixedHeader.headerLength stream) v.pending.length cs = w
    at hloop hstart hend
  have hcur : currentFrame v = .ok n ⟨v.capacity, stream.take w, some n,
      Chunks.toSchedule (Chunks.advance (w - v.pending.length) cs)⟩ := by
    simp only [currentFrame_of_short hf hlen, hloop, List.append_nil]
  have htake : (stream.take w).length = w := by simpa using hend
  simp only [read, bind_apply, hcur, readFrame, fillFrame, get_apply, if_neg (not_lt.2 hcap), htake]
  by_cases hw : w < n
  · have hdrop : stream.drop w = cs.flatten.drop (w - v.pending.length) := by
      rw [hstream, List.drop_append, List.drop_eq_nil_of_le hstart, List.nil_append]
    have hexact := Chunks.readExact_toSchedule isInterrupted (n := n - w)
      (hne.advance (w - v.pending.length)) (by
        rw [Chunks.flatten_advance, ← hdrop, List.length_drop]
        omega)
    have happend : stream.take w ++ (stream.drop w).take (n - w) = stream.take n := by
      rw [← List.take_add]
      congr 1
      omega
    rw [Chunks.flatten_advance, ← hdrop, Chunks.advance_advance,
      show w - v.pending.length + (n - w) = n - v.pending.length by omega] at hexact
    simp only [if_pos hw, readExact_input, hexact, exactResult, set_apply, happend, pure_apply,
      max_eq_left hw.le]
  · simp only [if_neg hw, pure_apply, max_eq_right (not_lt.1 hw)]

end

end View

end Mcutt
