import Mcutt.Sync.Rounds

/-!
# Interrupted reads

A non-blocking inner reader fails with `WouldBlock` when it has nothing to deliver yet, and `read`
is called again.  While the header is read nothing is lost; `read_frame` loses what `read_exact`
had taken when it was interrupted, so a call keeps the stream exactly if it is `Uncut`
(`Reader.Reaches.read_keeps_iff`).  In runs of such calls the slices that `read` returns do not
depend on the schedule (`Reader.interruptions_invisible`).
-/

namespace Mcutt

open Machine

/-- The errors of a socket that is not ready. -/
def OnlyWouldBlock (s : Input) : Prop := ∀ e, .fail e ∈ s → e = .wouldBlock

theorem OnlyWouldBlock.lead_eq {s : Input} (hs : OnlyWouldBlock s)
    (hne : Schedule.NonemptyChunks s) :
    Schedule.lead isInterrupted s = (Chunks.leading s).flatten :=
  Chunks.lead_eq_leading hne fun e he => by rw [hs e he]; rfl

section

variable [Target]

namespace View

/-- The next error, or the end of the stream, does not come inside a frame behind bytes that the
header window leaves to `read_exact`. -/
def Uncut (v : View Input) : Prop :=
  ∀ n, FixedHeader.nextFrame v.available = .ok (some n) → n ≤ v.capacity →
    n ≤ v.available.length ∨
      v.available.length ≤ Chunks.window Reader.MIN (FixedHeader.headerLength v.available)
        v.pending.length (Chunks.leading v.inner)

instance (v : View Input) : Decidable v.Uncut :=
  match h : FixedHeader.nextFrame v.available with
  | .ok (some n) =>
    decidable_of_iff (n ≤ v.capacity → n ≤ v.available.length ∨
      v.available.length ≤ Chunks.window Reader.MIN (FixedHeader.headerLength v.available)
        v.pending.length (Chunks.leading v.inner)) (by simp [Uncut, h])
  | .ok none => isTrue (by simp [Uncut, h])
  | .error _ => isTrue (by simp [Uncut, h])

variable {v : View Input} {n : ℕ}

/-! ## One call -/

/-- A header that is available is found, with what the window takes. -/
theorem currentFrame_available (inv : Inv v) (hne : Schedule.NonemptyChunks v.inner)
    (hn : FixedHeader.nextFrame v.available = .ok (some n)) :
    ∃ v', currentFrame v = .ok n v' ∧ Progress v v' ∧ v'.frame = some n ∧
      v'.available = v.available ∧ v'.reach = v.reach ∧
      v'.pending.length = Chunks.window Reader.MIN (FixedHeader.headerLength v.available)
        v.pending.length (Chunks.leading v.inner) := by
  have hsearched : ∀ v', currentFrame v = .ok n v' →
      Progress v v' ∧ v'.frame = some n ∧ v'.available = v.available ∧ v'.reach = v.reach := by
    intro v' heq
    rcases currentFrame_cases hne inv with hs | ⟨-, e, msg, -, heq'⟩
    · rw [heq] at hs
      cases hs with
      | found progress frame available announced length_le reach =>
        exact ⟨progress, frame, available, reach⟩
    · rw [heq] at heq'
      cases heq'
  cases hf : v.frame with
  | some m =>
    obtain ⟨hm, -⟩ := inv.known m hf
    obtain ⟨-, -, hle⟩ := FixedHeader.headerLength_le hm
    have hmn := FixedHeader.nextFrame_append hm (Chunks.leading v.inner).flatten
    obtain rfl : m = n := by simpa [available, hmn] using hn
    rw [available, FixedHeader.headerLength_append hm, Chunks.window_of_le hle]
    exact ⟨v, currentFrame_of_some hf, .refl v, hf, rfl, rfl, rfl⟩
  | none =>
    have hlen : v.pending.length < Reader.MIN := by
      apply (inv.drained hf).resolve_right
      rintro ⟨e, he⟩
      have := FixedHeader.nextFrame_error_append he (Chunks.leading v.inner).flatten
      rw [available, this] at hn
      cases hn
    obtain ⟨tail, hinner, -⟩ := Chunks.eq_leading_append v.inner
    have havailable : v.available = v.pending ++ (Chunks.leading v.inner).flatten := rfl
    have hloop := nextFrameLoop_chunks havailable hinner (.leading hne) hn hlen.le
    have hend := Chunks.window_le_stream Reader.MIN (FixedHeader.headerLength v.available)
      v.pending.length (Chunks.leading v.inner)
    rw [← List.length_append] at hend
    have heq := (currentFrame_of_short hf hlen).trans hloop
    obtain ⟨hprog, hframe, hav, hreach⟩ := hsearched _ heq
    exact ⟨_, heq, hprog, hframe, hav, hreach, by rw [List.length_take]; exact min_eq_left hend⟩

/-- Nothing else is found. -/
theorem available_of_currentFrame {v' : View Input} (inv : Inv v)
    (hne : Schedule.NonemptyChunks v.inner) (h : currentFrame v = .ok n v') :
    FixedHeader.nextFrame v.available = .ok (some n) := by
  rcases currentFrame_cases hne inv with hs | ⟨-, e, msg, -, heq⟩
  · rw [h] at hs
    cases hs with
    | found progress frame available announced length_le =>
      rw [← available]
      exact FixedHeader.nextFrame_append announced _
  · rw [h] at heq
    cases heq

omit [Target] in
/-- `read_frame` keeps the stream if it is refused, served or interrupted before it took a byte. -/
theorem readFrame_rest_iff (hne : Schedule.NonemptyChunks v.inner) (hs : OnlyWouldBlock v.inner) :
    (final (readFrame n v)).rest = v.rest ↔ v.capacity < n ∨ n ≤ v.available.length ∨
      v.available.length ≤ v.pending.length := by
  have hlead := hs.lead_eq hne
  have hav : v.available.length =
      v.pending.length + (Schedule.lead isInterrupted v.inner).length := by
    rw [available, List.length_append, hlead]
  rcases readFrame_cases v n with ⟨hbig, heq⟩ | ⟨hcap, v', heq, hprog, -, -, hle⟩ |
    ⟨hcap, hlt, got, kind, inner, hread, heq⟩
  · rw [heq]
    exact iff_of_true rfl (.inl hbig)
  · rw [heq]
    exact iff_of_true hprog.rest (.inr (.inl (by omega)))
  · rw [heq]
    obtain ⟨hgot, hok⟩ := Schedule.readExact_eq isInterrupted (n - v.pending.length) v.inner
    have hpay := Schedule.payload_readExact isInterrupted (n - v.pending.length) v.inner
    rw [readExact_input, Prod.mk.injEq, Prod.mk.injEq] at hread
    obtain ⟨rfl, hkind, rfl⟩ := hread
    have hshort : ¬ n - v.pending.length ≤ (Schedule.lead isInterrupted v.inner).length := by
      rw [← hok, ← exactResult_eq_ok, hkind]
      simp
    have hkeep : (final (.error (ioFault kind) { v with
        inner := (Schedule.readExact isInterrupted (n - v.pending.length) v.inner).2.2 } :
          EStateM.Result Fault (View Input) (List UInt8))).rest = v.rest ↔
        (Schedule.readExact isInterrupted (n - v.pending.length) v.inner).1 = [] := by
      rw [final_error, rest, rest, hpay, List.append_cancel_left_eq, List.self_eq_append_left]
    rw [hkeep, hgot, List.take_of_length_le (by omega), ← List.length_eq_zero_iff]
    omega

/-- `read` keeps the stream exactly if it is uncut. -/
theorem read_rest_iff (inv : Inv v) (hne : Schedule.NonemptyChunks v.inner)
    (hs : OnlyWouldBlock v.inner) : (final (read v)).rest = v.rest ↔ v.Uncut := by
  by_cases hfound : ∃ n, FixedHeader.nextFrame v.available = .ok (some n)
  · obtain ⟨n, hn⟩ := hfound
    obtain ⟨v', heq, hprog, -, hav, -, hlen⟩ := currentFrame_available inv hne hn
    have hkeep := readFrame_rest_iff (n := n) (hprog.inner.nonempty hne)
      fun e he => hs e (hprog.inner.fails e he)
    have huncut : v.Uncut ↔ v'.capacity < n ∨ n ≤ v'.available.length ∨
        v'.available.length ≤ v'.pending.length := by
      rw [hprog.capacity, hav, hlen, ← not_le, or_iff_not_imp_left, not_not]
      refine ⟨fun h => h n hn, fun h m hm => ?_⟩
      obtain rfl : n = m := by simpa [hn] using hm
      exact h
    rw [huncut, ← hkeep, hprog.rest]
    simp only [read, bind_apply, heq]
  · refine iff_of_true ?_ fun n hn => absurd ⟨n, hn⟩ hfound
    have hnot : ∀ n v', currentFrame v ≠ .ok n v' := fun n v' h =>
      hfound ⟨n, available_of_currentFrame inv hne h⟩
    simp only [read, bind_apply]
    rcases currentFrame_cases hne inv with hsearched | ⟨-, e, msg, -, heq⟩
    · generalize currentFrame v = r at hsearched hnot ⊢
      cases hsearched with
      | found => exact absurd rfl (hnot _ _)
      | malformed progress | ended progress | failed progress => exact progress.rest
    · rw [heq]
      rfl

/-- The stream begins with a frame that is complete and fits the buffer. -/
def Complete (capacity : ℕ) (stream : List UInt8) (n : ℕ) : Prop :=
  FixedHeader.nextFrame stream = .ok (some n) ∧ n ≤ capacity ∧ n ≤ stream.length

omit [Target] in
theorem rest_eq (v : View Input) : v.rest = v.pending ++ Schedule.payload v.inner := rfl

/-- Only a complete frame is returned, and the slice begins with it. -/
theorem complete_of_read {v' : View Input} {slice : List UInt8} (inv : Inv v)
    (hne : Schedule.NonemptyChunks v.inner) (h : read v = .ok slice v') :
    ∃ n, Complete v.capacity v.rest n ∧ v'.frame = some n ∧ slice.take n = v.rest.take n := by
  have hend := read_ends hne inv
  rw [h] at hend
  cases hend with
  | @delivered _ n progress frame announced fits whole =>
    refine ⟨n, ⟨?_, progress.capacity ▸ fits, ?_⟩, frame, ?_⟩
    · rw [← progress.rest, rest_eq]
      exact FixedHeader.nextFrame_append announced _
    · rw [← progress.rest, rest_eq, List.length_append]
      omega
    · rw [← progress.rest, rest_eq, List.take_append_of_le_length whole]

/-- A complete frame is returned, or waited for at an error that is gone the next time. -/
theorem read_of_complete (inv : Inv v) (hne : Schedule.NonemptyChunks v.inner)
    (hs : OnlyWouldBlock v.inner) (huncut : v.Uncut) (h : Complete v.capacity v.rest n) :
    (∃ slice v', read v = .ok slice v') ∨ ∃ v', read v = .error (ioFault .wouldBlock) v' := by
  obtain ⟨hn, hcap, hlen⟩ := h
  have hkeep := (read_rest_iff inv hne hs).2 huncut
  have hend := read_ends hne inv
  generalize read v = r at hend hkeep ⊢
  cases hend with
  | delivered => exact .inl ⟨_, _, rfl⟩
  | @refused v' m progress frame announced big =>
    rw [← progress.rest, rest_eq, FixedHeader.nextFrame_append announced] at hn
    obtain rfl : m = n := by simpa using hn
    rw [progress.capacity] at big
    omega
  | @interrupted v' m got kind inner progress frame available announced fits missing exact =>
    have hm := hn
    rw [← progress.rest, rest_eq, FixedHeader.nextFrame_append announced] at hm
    obtain rfl : m = n := by simpa using hm
    obtain ⟨r, hexact, hkind⟩ := readExact_input_error exact
    have hpay := Schedule.payload_readExact isInterrupted (m - v'.pending.length) v'.inner
    obtain ⟨hgot, -⟩ := Schedule.readExact_eq isInterrupted (m - v'.pending.length) v'.inner
    rw [hexact] at hpay hgot
    obtain rfl : got = [] := by
      rw [final_error, ← progress.rest, rest_eq, rest_eq, hpay] at hkeep
      simpa using hkeep
    obtain ⟨k, hk⟩ : ∃ k, m - v'.pending.length = k + 1 := ⟨m - v'.pending.length - 1, by omega⟩
    have hlead : Schedule.lead isInterrupted v'.inner = [] := by
      rw [hk] at hgot
      simpa using hgot.symm
    rcases Schedule.readExact_of_lead_nil (progress.inner.nonempty hne) hlead k with
      ⟨-, hend⟩ | ⟨e, s', heq, he, -⟩
    · rw [← progress.rest, rest_eq, hend, List.append_nil] at hlen
      omega
    · rw [← hk, hexact] at heq
      obtain rfl : r = some e := by simpa using congrArg (fun x => x.2.1) heq
      obtain rfl : e = kind := by simpa using hkind
      rw [hs e (progress.inner.fails e he)]
      exact .inr ⟨_, rfl⟩
  | @malformed v' e progress frame error =>
    rw [← progress.rest, rest_eq, FixedHeader.nextFrame_error_append error] at hn
    cases hn
  | @ended v' progress frame short inner =>
    rw [← progress.rest, rest_eq, inner, Schedule.payload_nil, List.append_nil, short] at hn
    cases hn
  | @failed v' kind progress frame short mem length_lt =>
    rw [hs kind mem]
    exact .inr ⟨_, rfl⟩
  | undrained error =>
    rw [rest_eq, FixedHeader.nextFrame_error_append error] at hn
    cases hn

/-- A call that would block has passed an error of the schedule. -/
theorem length_lt_of_wouldBlock {v' : View Input} (inv : Inv v)
    (hne : Schedule.NonemptyChunks v.inner) {msg : String}
    (h : read v = .error (.err ⟨.stdIo .wouldBlock, msg⟩) v') :
    v'.inner.length < v.inner.length := by
  have hend := read_ends hne inv
  rw [h] at hend
  cases hend with
  | interrupted progress frame available announced fits missing exact =>
    obtain ⟨r, hexact, hkind⟩ := readExact_input_error exact
    obtain rfl : r = some .wouldBlock := by simpa using hkind
    exact (Schedule.length_lt_of_readExact hexact).trans_le progress.inner.length_le
  | malformed progress frame error =>
    obtain ⟨heq, -⟩ := FixedHeader.nextFrame_eq_error.1 error
    cases heq
  | failed progress frame short mem length_lt => exact length_lt

end View

/-! ## Runs -/

namespace Reader

/-- The calls of `read`, one after each `WouldBlock`; every one of them takes an error off the
schedule. -/
def attempts (r : Reader Input) : List (Call Unit Fault (Reader Input) (List UInt8)) :=
  log settled (fun _ => read) (List.replicate (r.inner.length + 1) ()) r

/-- `buf[pos..filled]` and the bytes still unread. -/
def remaining (r : Reader Input) : List UInt8 := r.pending ++ Schedule.payload r.inner

def Uncut (r : Reader Input) : Prop := r.view.Uncut

instance (r : Reader Input) : Decidable r.Uncut := inferInstanceAs (Decidable r.view.Uncut)

/-- Retried calls of `read` return slices that begin with the frame in front of the stream, if it is
complete, and none otherwise. -/
def SameFrame (capacity : ℕ) (stream : List UInt8) (r₁ r₂ : Reader Input) : Prop :=
  ∃ c₁ c₂, r₁.attempts.getLast? = some c₁ ∧ r₂.attempts.getLast? = some c₂ ∧
    settled c₁.result = true ∧ settled c₂.result = true ∧
    (∀ n, View.Complete capacity stream n → ∃ s₁ s₂, c₁.result = .ok s₁ ∧ c₂.result = .ok s₂ ∧
      c₁.after.frame = some n ∧ c₂.after.frame = some n ∧ s₁.take n = s₂.take n ∧
      s₁.take n = stream.take n) ∧
    ∀ s, c₁.result = .ok s ∨ c₂.result = .ok s → ∃ n, View.Complete capacity stream n

/-- The states of a run of `consume` and of `read`, every call of `read` uncut, and how many bytes
`consume` has skipped before them. -/
inductive Reaches (capacity : ℕ) (stream : List UInt8) : ℕ → Reader Input → Prop where
  | start {schedule : Input} {r : Reader Input} (new : withCapacity schedule capacity = some r)
      (payload : Schedule.payload schedule = stream) (nonempty : Schedule.NonemptyChunks schedule)
      (blocking : OnlyWouldBlock schedule) : Reaches capacity stream 0 r
  | consume {k : ℕ} {r : Reader Input} (before : Reaches capacity stream k r) :
      Reaches capacity stream (k + ((final (consume r)).pos - r.pos)) (final (consume r))
  | read {k : ℕ} {r : Reader Input} (before : Reaches capacity stream k r) (uncut : r.Uncut) :
      Reaches capacity stream k (final (read r))

/-- The invariant of a run. -/
structure Sound (capacity : ℕ) (stream : List UInt8) (r : Reader Input) : Prop where
  valid : r.Valid
  inv : r.view.Inv
  nonempty : Schedule.NonemptyChunks r.inner
  blocking : OnlyWouldBlock r.inner
  capacity_eq : r.buf.length = capacity
  remaining_eq : r.remaining = stream

variable {capacity k : ℕ} {stream : List UInt8} {r : Reader Input}

theorem Sound.consume (h : Sound capacity stream r) :
    Sound capacity (stream.drop ((final (consume r)).pos - r.pos)) (final (consume r)) := by
  obtain ⟨valid, hview⟩ := h.valid.consume
  obtain ⟨hinner, hcap⟩ := View.consume_inner r.view
  rw [← hview] at hinner hcap
  replace hinner : (final (Reader.consume r)).inner = r.inner := hinner
  replace hcap : (final (Reader.consume r)).buf.length = r.buf.length := hcap
  obtain ⟨hle, hpending⟩ := h.valid.pending_consume
  refine ⟨valid, hview ▸ h.inv.consume, hinner ▸ h.nonempty, hinner ▸ h.blocking,
    hcap.trans h.capacity_eq, ?_⟩
  rw [remaining, hpending, hinner, ← h.remaining_eq, remaining,
    List.drop_append_of_le_length hle]

theorem Sound.read (h : Sound capacity stream r) (uncut : r.Uncut) :
    Sound capacity stream (final (read r)) := by
  obtain ⟨-, valid, hview⟩ := h.valid.read
  obtain ⟨hahead, hcap⟩ := (View.read_ends h.nonempty h.inv).ahead
  have hrest := (View.read_rest_iff h.inv h.nonempty h.blocking).2 uncut
  rw [← hview] at hahead hcap hrest
  exact ⟨valid, hview ▸ h.inv.read, hahead.nonempty h.nonempty,
    fun e he => h.blocking e (hahead.fails e he), hcap.trans h.capacity_eq,
    hrest.trans h.remaining_eq⟩

theorem Reaches.sound (h : Reaches capacity stream k r) : Sound capacity (stream.drop k) r := by
  induction h with
  | @start schedule r new payload nonempty blocking =>
    obtain ⟨valid, hview⟩ := shows_withCapacity new
    have hinner : r.inner = schedule := congrArg View.inner hview
    have hpending : r.pending = [] := congrArg View.pending hview
    exact ⟨valid, hview ▸ View.inv_new _ _, hinner ▸ nonempty, hinner ▸ blocking,
      congrArg View.capacity hview, by rw [remaining, hpending, hinner, payload]; rfl⟩
  | consume before ih =>
    rw [← List.drop_drop]
    exact ih.consume
  | read before uncut ih => exact ih.read uncut

/-- The stream is kept by a call of `read` exactly if the call is uncut. -/
theorem Reaches.read_keeps_iff (h : Reaches capacity stream k r) :
    (final (Reader.read r)).remaining = stream.drop k ↔ r.Uncut := by
  obtain ⟨-, -, hview⟩ := h.sound.valid.read
  have hiff := View.read_rest_iff h.sound.inv h.sound.nonempty h.sound.blocking
  rw [← hview] at hiff
  rw [← h.sound.remaining_eq]
  exact hiff

/-- An uncut call that is not the last one loses nothing and takes an event off the schedule. -/
theorem Sound.unsettled {capacity : ℕ} {bytes : List UInt8} {r : Reader Input}
    (h : Sound capacity bytes r) (uncut : r.Uncut)
    (hsettled : settled (outcome (Reader.read r)) = false) :
    Sound capacity bytes (final (Reader.read r)) ∧
      (final (Reader.read r)).inner.length < r.inner.length := by
  obtain ⟨hout, -, hview⟩ := h.valid.read
  refine ⟨h.read uncut, ?_⟩
  rw [hout] at hsettled
  cases hread : View.read r.view with
  | ok slice v' => simp [hread, settled] at hsettled
  | error e v' =>
    rw [hread] at hsettled hview
    obtain ⟨⟨kind, msg⟩⟩ | msg := e
    · obtain rfl : kind = .stdIo .wouldBlock := by simpa [settled, wouldBlock] using hsettled
      have hlt := View.length_lt_of_wouldBlock h.inv h.nonempty hread
      rw [final_error] at hview
      rwa [← hview] at hlt
    · simp [settled] at hsettled

/-- The calls of a retried `read` end with one that returns the frame in front, if it is complete
and every call was uncut, and with an error of its own otherwise. -/
theorem Reaches.attempts_settle (h : Reaches capacity stream k r)
    (uncut : ∀ c ∈ r.attempts, c.before.Uncut) :
    ∃ c, r.attempts.getLast? = some c ∧ settled c.result = true ∧
      (∀ n, View.Complete capacity (stream.drop k) n → ∃ slice, c.result = .ok slice ∧
        c.after.frame = some n ∧ slice.take n = (stream.drop k).take n) ∧
      ∀ slice, c.result = .ok slice → ∃ n, View.Complete capacity (stream.drop k) n := by
  obtain ⟨c, hlast, hsettled, hsound, huncut, hresult, hafter⟩ :=
    halts_of_log (P := Uncut) (μ := fun s => s.inner.length) (fun _ hs hu => hs.unsettled hu)
      h.sound (Nat.lt_succ_self _) uncut
  obtain ⟨hout, -, hview⟩ := hsound.valid.read
  have hcap : c.before.view.capacity = capacity := hsound.capacity_eq
  have hrest : c.before.view.rest = stream.drop k := hsound.remaining_eq
  rw [hout] at hresult
  refine ⟨c, hlast, hsettled, fun n hn => ?_, fun slice hok => ?_⟩
  · rw [← hcap, ← hrest] at hn
    rcases View.read_of_complete hsound.inv hsound.nonempty hsound.blocking huncut hn with
      ⟨slice, v', hread⟩ | ⟨v', hread⟩
    · obtain ⟨m, hm, hframe, htake⟩ := View.complete_of_read hsound.inv hsound.nonempty hread
      obtain rfl : m = n := by simpa using hm.1.symm.trans hn.1
      rw [hread] at hresult hview
      refine ⟨slice, hresult, ?_, hrest ▸ htake⟩
      rw [hafter]
      exact (congrArg View.frame hview).trans hframe
    · rw [hread] at hresult
      rw [hresult] at hsettled
      cases hsettled
  · rw [hok] at hresult
    cases hread : View.read c.before.view with
    | ok slice' v' =>
      obtain ⟨n, hn, -⟩ := View.complete_of_read hsound.inv hsound.nonempty hread
      exact ⟨n, hcap ▸ hrest ▸ hn⟩
    | error e v' =>
      rw [hread] at hresult
      cases hresult

/-- Retried calls of `read` all keep the stream exactly if all of them are uncut. -/
theorem Reaches.attempts_keep_iff (h : Reaches capacity stream k r) :
    (∀ c ∈ r.attempts, c.after.remaining = stream.drop k) ↔
      ∀ c ∈ r.attempts, c.before.Uncut := by
  constructor
  · intro hkeep c hc
    have hkeep : ∀ d ∈ r.attempts, (final (Reader.read d.before)).remaining = stream.drop k := by
      intro d hd
      rw [← (call_of_log hd).2]
      exact hkeep d hd
    have hrun := invariant_of_log (I := Reaches capacity stream k)
      (P := fun _ s => (final (Reader.read s)).remaining = stream.drop k)
      (fun _ _ hs hp => .read hs (hs.read_keeps_iff.1 hp)) h hkeep hc
    exact hrun.1.read_keeps_iff.1 (hkeep c hc)
  · intro uncut c hc
    have hrun := invariant_of_log (I := Reaches capacity stream k) (P := fun _ => Uncut)
      (fun _ _ => .read) h uncut hc
    exact hrun.2.sound.remaining_eq

/-- A run loses no byte exactly if its calls are uncut, and then a retried `read` returns slices
that begin with the same frame of the stream under every schedule. -/
theorem interruptions_invisible {r₁ r₂ : Reader Input} (h₁ : Reaches capacity stream k r₁)
    (h₂ : Reaches capacity stream k r₂) :
    (r₁.remaining = stream.drop k ∧
        ((final (Reader.read r₁)).remaining = stream.drop k ↔ r₁.Uncut)) ∧
      ((∀ c ∈ r₁.attempts, c.after.remaining = stream.drop k) ↔
        ∀ c ∈ r₁.attempts, c.before.Uncut) ∧
      ((∀ c ∈ r₁.attempts, c.before.Uncut) → (∀ c ∈ r₂.attempts, c.before.Uncut) →
        SameFrame capacity (stream.drop k) r₁ r₂) := by
  refine ⟨⟨h₁.sound.remaining_eq, h₁.read_keeps_iff⟩, h₁.attempts_keep_iff,
    fun uncut₁ uncut₂ => ?_⟩
  obtain ⟨c₁, hlast₁, hsettled₁, hwhole₁, hsome₁⟩ := h₁.attempts_settle uncut₁
  obtain ⟨c₂, hlast₂, hsettled₂, hwhole₂, hsome₂⟩ := h₂.attempts_settle uncut₂
  refine ⟨c₁, c₂, hlast₁, hlast₂, hsettled₁, hsettled₂, fun n hn => ?_, ?_⟩
  · obtain ⟨s₁, hok₁, hframe₁, htake₁⟩ := hwhole₁ n hn
    obtain ⟨s₂, hok₂, hframe₂, htake₂⟩ := hwhole₂ n hn
    exact ⟨s₁, s₂, hok₁, hok₂, hframe₁, hframe₂, htake₁.trans htake₂.symm, htake₁⟩
  · rintro s (hs | hs)
    · exact hsome₁ s hs
    · exact hsome₂ s hs

theorem attempts_results {v : View Input} (h : Shows r v) :
    r.attempts.map Call.result = (log settled (fun _ => View.read)
      (List.replicate (v.inner.length + 1) ()) v).map Call.result := by
  have hinner : r.inner = v.inner := congrArg View.inner h.2
  rw [attempts, hinner]
  exact Simulates.results_eq (fun _ => read_simulates) _ h

end Reader

end

theorem Reader.interruptions_invisible_ping :
    letI := Target.debug
    letI r₁ : Reader Input :=
      ⟨[0, 0, 0, 0, 0], 0, none, 0, [.chunk [0xD0], .fail .wouldBlock, .chunk [0]]⟩
    letI r₂ : Reader Input := ⟨[0, 0, 0, 0, 0], 0, none, 0, [.chunk [0xD0, 0]]⟩
    (r₁.remaining = [0xD0, 0] ∧ ∀ c ∈ r₁.attempts, c.after.remaining = [0xD0, 0]) ∧
      SameFrame 5 [0xD0, 0] r₁ r₂ := by
  let := Target.debug
  obtain ⟨⟨hstart, -⟩, hkeep, hsame⟩ := @Reader.interruptions_invisible Target.debug 5 0 _
    ⟨[0, 0, 0, 0, 0], 0, none, 0, [.chunk [0xD0], .fail .wouldBlock, .chunk [0]]⟩
    ⟨[0, 0, 0, 0, 0], 0, none, 0, [.chunk [0xD0, 0]]⟩
    (.start rfl rfl (by simp [Schedule.NonemptyChunks]) (by simp [OnlyWouldBlock]))
    (.start rfl rfl (by simp [Schedule.NonemptyChunks]) (by simp [OnlyWouldBlock]))
  exact ⟨⟨hstart, hkeep.2 (by decide)⟩, hsame (by decide) (by decide)⟩

/-- A PUBLISH of seven bytes whose last two bytes are interrupted loses the first of them. -/
theorem interrupted_body :
    letI := Target.debug
    letI s₁ : Input := [.chunk [0x30, 5, 0, 1, 97], .chunk [1], .fail .wouldBlock,
      .chunk [2, 0xD0, 0]]
    letI s₂ : Input := [.chunk [0x30, 5, 0, 1, 97, 1, 2, 0xD0, 0]]
    Schedule.payload s₁ = Schedule.payload s₂ ∧
      FixedHeader.nextFrame (Schedule.payload s₂) = .ok (some 7) ∧
      ∃ r₁ r₂, Reader.withCapacity s₁ 8192 = some r₁ ∧ Reader.withCapacity s₂ 8192 = some r₂ ∧
        r₁.attempts.map Call.result = [.error (View.ioFault .wouldBlock),
          .ok [0x30, 5, 0, 1, 97, 2, 0xD0]] ∧
        r₂.attempts.map Call.result = [.ok [0x30, 5, 0, 1, 97, 1, 2]] := by
  let := Target.debug
  obtain ⟨r₁, h₁⟩ := exists_withCapacity (R := Input) [.chunk [0x30, 5, 0, 1, 97], .chunk [1],
    .fail .wouldBlock, .chunk [2, 0xD0, 0]] (by decide : Reader.MIN ≤ 8192)
  obtain ⟨r₂, h₂⟩ := exists_withCapacity (R := Input)
    [.chunk [0x30, 5, 0, 1, 97, 1, 2, 0xD0, 0]] (by decide : Reader.MIN ≤ 8192)
  refine ⟨by decide, by decide, r₁, r₂, h₁, h₂, ?_, ?_⟩
  · rw [Reader.attempts_results (shows_withCapacity h₁)]
    decide
  · rw [Reader.attempts_results (shows_withCapacity h₂)]
    decide

end Mcutt
