import Mcutt.Lib.Framing
import Mcutt.Sync.Read

/-!
# A socket with edge-triggered readiness

The socket is a queue of bytes, and `poll` has an event for it when bytes have arrived since it last
reported one.  Bytes arrive in bursts of whole frames, before any operation on the socket.  From
such a socket `read` takes the frame in front and leaves the bytes behind it where they were, in the
window or in the queue (`View.consume_edge`).
-/

namespace Mcutt

open Machine

/-! ## The socket -/

/-- Frames that arrive together. -/
abbrev Burst := List (List UInt8)

/-- A socket with the event that is pending, and what arrives before its next operations. -/
structure EdgeSocket where
  queue : List UInt8
  ready : Bool
  coming : List Burst
  deriving DecidableEq, Repr

namespace EdgeSocket

/-- Bytes that arrive make an event pending. -/
def arrive (burst : Burst) (s : EdgeSocket) : EdgeSocket :=
  { s with queue := s.queue ++ burst.flatten, ready := s.ready || !burst.isEmpty }

/-- What arrives before the next operation. -/
def next (s : EdgeSocket) : EdgeSocket :=
  match s.coming with
  | [] => s
  | burst :: coming => arrive burst { s with coming }

instance : Read EdgeSocket where
  read n s :=
    let s := s.next
    if s.queue = [] then (.error .wouldBlock, s)
    else (.ok (s.queue.take n), { s with queue := s.queue.drop n })
  readExact n s :=
    let s := s.next
    if n ≤ s.queue.length then (s.queue.take n, .ok (), { s with queue := s.queue.drop n })
    else (s.queue, .error .wouldBlock, { s with queue := [] })
  read_length n s bytes s' h := by
    dsimp only at h
    split_ifs at h
    · cases (Prod.mk.inj h).1
    · obtain ⟨hbytes, -⟩ := Prod.mk.inj h
      rw [← Except.ok.inj hbytes]
      exact List.length_take_le _ _
  readExact_length n s := by
    dsimp only
    split_ifs with h
    · exact List.length_take_le _ _
    · exact (not_le.1 h).le
  readExact_ok n s h := by
    dsimp only at h ⊢
    split_ifs at h ⊢ with hle
    exact List.length_take_of_le hle

/-- What has arrived at a socket between two states. -/
structure Arrived (s s' : EdgeSocket) (burst : Burst) : Prop where
  coming : ∃ bursts, s.coming = bursts ++ s'.coming ∧ bursts.flatten = burst
  ready : s'.ready = (s.ready || !burst.isEmpty)

theorem Arrived.refl (s : EdgeSocket) : Arrived s s [] := ⟨⟨[], rfl, rfl⟩, by simp⟩

theorem Arrived.trans {s₁ s₂ s₃ : EdgeSocket} {b b' : Burst} (h : Arrived s₁ s₂ b)
    (h' : Arrived s₂ s₃ b') : Arrived s₁ s₃ (b ++ b') := by
  obtain ⟨bursts, hcoming, rfl⟩ := h.coming
  obtain ⟨bursts', hcoming', rfl⟩ := h'.coming
  refine ⟨⟨bursts ++ bursts', by rw [hcoming, hcoming', List.append_assoc], by simp⟩, ?_⟩
  rw [h'.ready, h.ready, Bool.or_assoc]
  cases bursts.flatten <;> simp

theorem arrived_next (s : EdgeSocket) : ∃ burst, Arrived s s.next burst ∧
    s.next.queue = s.queue ++ burst.flatten := by
  obtain ⟨queue, ready, coming⟩ := s
  cases coming with
  | nil => exact ⟨[], .refl _, (List.append_nil _).symm⟩
  | cons burst coming => exact ⟨burst, ⟨⟨[burst], rfl, by simp⟩, rfl⟩, rfl⟩

/-- A read takes bytes off the front of the queue. -/
theorem read_spec {n : ℕ} (hn : 0 < n) {s : EdgeSocket} (hne : s.queue ≠ []) :
    ∃ bytes s' burst, Read.read n s = (.ok bytes, s') ∧ bytes ≠ [] ∧ Arrived s s' burst ∧
      bytes ++ s'.queue = s.queue ++ burst.flatten := by
  obtain ⟨burst, harrived, hqueue⟩ := arrived_next s
  have hnext : s.next.queue ≠ [] := by simp [hqueue, hne]
  refine ⟨s.next.queue.take n, { s.next with queue := s.next.queue.drop n }, burst, ?_, ?_, ?_, ?_⟩
  · show (if s.next.queue = [] then _ else _) = _
    rw [if_neg hnext]
  · rw [ne_eq, List.take_eq_nil_iff]
    simp [hnext, hn.ne']
  · exact ⟨harrived.coming, harrived.ready⟩
  · rw [← hqueue]
    exact List.take_append_drop _ _

theorem readExact_spec {n : ℕ} {s : EdgeSocket} (hle : n ≤ s.queue.length) :
    ∃ bytes s' burst, Read.readExact n s = (bytes, .ok (), s') ∧ bytes.length = n ∧
      Arrived s s' burst ∧ bytes ++ s'.queue = s.queue ++ burst.flatten := by
  obtain ⟨burst, harrived, hqueue⟩ := arrived_next s
  have hnext : n ≤ s.next.queue.length := by
    rw [hqueue, List.length_append]
    omega
  refine ⟨s.next.queue.take n, { s.next with queue := s.next.queue.drop n }, burst, ?_, ?_, ?_, ?_⟩
  · show (if n ≤ s.next.queue.length then _ else _) = _
    rw [if_pos hnext]
  · exact List.length_take_of_le hnext
  · exact ⟨harrived.coming, harrived.ready⟩
  · rw [← hqueue]
    exact List.take_append_drop _ _

end EdgeSocket

/-! ## Reading a frame -/

namespace View

open EdgeSocket

/-- The bytes that were read and not consumed, and those of the queue. -/
def unread (v : View EdgeSocket) : List UInt8 := v.pending ++ v.inner.queue

/-- What reading changes: bytes move from the queue to the pending ones. -/
structure Moved (v v' : View EdgeSocket) (burst : Burst) : Prop where
  capacity : v'.capacity = v.capacity
  arrived : Arrived v.inner v'.inner burst
  unread : v'.unread = v.unread ++ burst.flatten

theorem Moved.refl (v : View EdgeSocket) : Moved v v [] :=
  ⟨rfl, .refl _, (List.append_nil _).symm⟩

theorem Moved.trans {v₁ v₂ v₃ : View EdgeSocket} {b b' : Burst} (h : Moved v₁ v₂ b)
    (h' : Moved v₂ v₃ b') : Moved v₁ v₃ (b ++ b') :=
  ⟨h'.capacity.trans h.capacity, h.arrived.trans h'.arrived, by
    rw [h'.unread, h.unread, List.flatten_append, List.append_assoc]⟩

variable [Target]

omit [Target] in
theorem fillHead_edge {v : View EdgeSocket} (hlen : v.pending.length < Reader.MIN)
    (hne : v.inner.queue ≠ []) :
    ∃ v' burst, fillHead v = .ok ⟨⟩ v' ∧ Moved v v' burst ∧ v'.frame = v.frame ∧
      v.pending.length < v'.pending.length ∧ v'.pending.length ≤ Reader.MIN := by
  obtain ⟨bytes, s', burst, hread, hbytes, harrived, hqueue⟩ :=
    read_spec (Nat.sub_pos_of_lt hlen) hne
  have hle := Read.read_length _ _ _ _ hread
  have hpos := List.length_pos_iff.2 hbytes
  refine ⟨{ v with pending := v.pending ++ bytes, inner := s' }, burst, ?_, ⟨rfl, harrived, ?_⟩,
    rfl, ?_, ?_⟩
  · simp [fillHead, hread, hbytes]
  · simp only [unread, List.append_assoc, hqueue]
  · simp only [List.length_append]
    omega
  · simp only [List.length_append]
    omega

/-- The search finds the header of the frame in front. -/
theorem nextFrameLoop_edge {f : List UInt8} (hf : Framing.IsFrame FixedHeader.nextFrame f)
    {v : View EdgeSocket} {more : List UInt8} (hunread : v.unread = f ++ more)
    (hlen : v.pending.length ≤ Reader.MIN) :
    ∃ v' burst, nextFrameLoop (Reader.MIN + 1) v = .ok f.length v' ∧ Moved v v' burst ∧
      v'.frame = some f.length ∧ v'.pending.length ≤ Reader.MIN := by
  induction hk : Reader.MIN - v.pending.length using Nat.strong_induction_on
    generalizing v more with
  | _ k ih =>
    have hfront : FixedHeader.nextFrame v.unread = .ok (some f.length) := by
      rw [hunread]
      exact hf.announced more
    rw [nextFrameLoop_eq]
    rcases hn : FixedHeader.nextFrame v.pending with e | _ | n
    · have herror := FixedHeader.nextFrame_error_append hn v.inner.queue
      cases herror.symm.trans hfront
    · have hlt : v.pending.length < Reader.MIN := FixedHeader.length_lt_of_nextFrame_none hn
      have hne : v.inner.queue ≠ [] := by
        intro hnil
        rw [unread, hnil, List.append_nil, hn] at hfront
        cases hfront
      obtain ⟨v₁, burst₁, hfill, moved₁, hframe₁, hlt₁, hle₁⟩ := fillHead_edge hlt hne
      have hunread₁ : v₁.unread = f ++ (more ++ burst₁.flatten) := by
        rw [moved₁.unread, hunread, List.append_assoc]
      obtain ⟨v₂, burst₂, hloop, moved₂, hframe₂, hle₂⟩ :=
        ih (Reader.MIN - v₁.pending.length) (by omega) hunread₁ hle₁ rfl
      refine ⟨v₂, burst₁ ++ burst₂, ?_, moved₁.trans moved₂, hframe₂, hle₂⟩
      simp only [bind_apply, hfill]
      exact hloop
    · have hsame := FixedHeader.nextFrame_append hn v.inner.queue
      obtain rfl : n = f.length := Option.some.inj (Except.ok.inj (hsame.symm.trans hfront))
      exact ⟨{ v with frame := some f.length }, [], rfl, ⟨rfl, .refl _, by simp [unread]⟩, rfl,
        hlen⟩

omit [Target] in
/-- The frame is completed from the queue. -/
theorem readFrame_edge {v : View EdgeSocket} {n : ℕ} (hcap : n ≤ v.capacity)
    (hle : n ≤ v.unread.length) :
    ∃ v' burst, readFrame n v = .ok v'.pending v' ∧ Moved v v' burst ∧ v'.frame = v.frame ∧
      n ≤ v'.pending.length ∧ v'.pending.length ≤ max n v.pending.length := by
  simp only [readFrame, fillFrame, bind_apply, get_apply, if_neg (not_lt.2 hcap)]
  by_cases hshort : v.pending.length < n
  · have hqueue : n - v.pending.length ≤ v.inner.queue.length := by
      rw [unread, List.length_append] at hle
      omega
    obtain ⟨bytes, s', burst, hread, hbytes, harrived, hmoved⟩ := readExact_spec hqueue
    refine ⟨{ v with pending := v.pending ++ bytes, inner := s' }, burst, ?_, ⟨rfl, harrived, ?_⟩,
      rfl, ?_, ?_⟩
    · simp only [if_pos hshort, hread, set_apply, pure_apply]
    · simp only [unread, List.append_assoc, hmoved]
    · simp only [List.length_append]
      omega
    · simp only [List.length_append]
      omega
  · exact ⟨v, [], by simp only [if_neg hshort, pure_apply], .refl v, rfl, not_lt.1 hshort,
      le_max_right _ _⟩

/-- `read` returns the frame in front, and loses none of the bytes behind it. -/
theorem read_edge {f : List UInt8} (hf : Framing.IsFrame FixedHeader.nextFrame f)
    {v : View EdgeSocket} {more : List UInt8} (hunread : v.unread = f ++ more)
    (hframe : v.frame = none) (hlen : v.pending.length < Reader.MIN)
    (hcap : f.length ≤ v.capacity) :
    ∃ v' burst, read v = .ok v'.pending v' ∧ Moved v v' burst ∧ v'.frame = some f.length ∧
      f.length ≤ v'.pending.length ∧ v'.pending.length ≤ max f.length Reader.MIN := by
  obtain ⟨v₁, burst₁, hloop, moved₁, hframe₁, hle₁⟩ := nextFrameLoop_edge hf hunread hlen.le
  have hshort : f.length ≤ v₁.unread.length := by
    rw [moved₁.unread, hunread, List.length_append, List.length_append]
    omega
  obtain ⟨v₂, burst₂, hread, moved₂, hframe₂, hfull, hle₂⟩ :=
    readFrame_edge (moved₁.capacity ▸ hcap) hshort
  refine ⟨v₂, burst₁ ++ burst₂, ?_, moved₁.trans moved₂, hframe₂.trans hframe₁, hfull, ?_⟩
  · simp only [read, bind_apply, currentFrame_of_short hframe hlen, hloop, hread]
  · omega

/-- The next `consume` drops the frame, and what was behind it is unread. -/
theorem consume_edge {f : List UInt8} (hf : Framing.IsFrame FixedHeader.nextFrame f)
    {v : View EdgeSocket} {more : List UInt8} (hunread : v.unread = f ++ more)
    (hframe : v.frame = none) (hlen : v.pending.length < Reader.MIN)
    (hcap : f.length ≤ v.capacity) :
    ∃ v' burst, read v = .ok v'.pending v' ∧ (final (consume v')).capacity = v.capacity ∧
      (final (consume v')).frame = none ∧ (final (consume v')).pending.length < Reader.MIN ∧
      Arrived v.inner (final (consume v')).inner burst ∧
      (final (consume v')).unread = more ++ burst.flatten := by
  obtain ⟨v', burst, hread, moved, hframe', hfull, hle⟩ := read_edge hf hunread hframe hlen hcap
  have hconsume : final (consume v') =
      ⟨v'.capacity, v'.pending.drop f.length, none, v'.inner⟩ := by
    simp only [consume, modify_apply, final_ok, hframe']
  have hdrop := congrArg (List.drop f.length) moved.unread
  rw [unread, List.drop_append_of_le_length hfull, hunread, List.append_assoc, List.drop_left]
    at hdrop
  refine ⟨v', burst, hread, ?_⟩
  rw [hconsume]
  refine ⟨moved.capacity, rfl, ?_, moved.arrived, hdrop⟩
  have hpos := List.length_pos_iff.2 hf.nonempty
  have hmin : 0 < Reader.MIN := Nat.succ_pos _
  rw [List.length_drop]
  omega

end View

end Mcutt
