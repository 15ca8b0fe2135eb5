import Mcutt.Sync.Delivery

/-!
# A frame that does not fit

`read_frame` refuses a frame longer than the buffer, and `consume` skips what the window took of
it.  The next call begins inside the rejected frame, and so may the calls after it; each of them
returns a packet exactly if the bytes in front of one of its calls of `read` are one
(`ReaderHalf.rejected_not_decoded`).
-/

namespace Mcutt

open Machine

section

variable [Target]

/-! ## One call of `read` -/

namespace View

variable {v : View Input}

/-- The bytes in front begin with a frame that fits the buffer, and all of it comes before
`read_exact` fails. -/
structure Offers (v : View Input) (n : ℕ) : Prop where
  header : FixedHeader.nextFrame v.available = .ok (some n)
  fits : n ≤ v.capacity
  whole : n ≤ v.reach.length

/-- A frame of `n` bytes with what the window takes behind it. -/
def offered (v : View Input) (n : ℕ) : List UInt8 :=
  v.reach.take (max n (Chunks.window Reader.MIN (FixedHeader.headerLength v.available)
    v.pending.length (Chunks.leading v.inner)))

/-- `read` returns what is offered. -/
theorem read_eq_ok_iff (inv : Inv v) (hne : Schedule.NonemptyChunks v.inner) {slice : List UInt8} :
    (∃ v', read v = .ok slice v') ↔ ∃ n, v.Offers n ∧ slice = v.offered n := by
  by_cases hfound : ∃ n, FixedHeader.nextFrame v.available = .ok (some n)
  · obtain ⟨n, hn⟩ := hfound
    obtain ⟨v', heq, hprog, -, -, hreach, hlen⟩ := currentFrame_available inv hne hn
    have hread : read v = readFrame n v' := by simp only [read, bind_apply, heq]
    rw [hread, readFrame_eq_ok_iff, hprog.capacity, hreach, hlen]
    constructor
    · rintro ⟨hcap, hle, hslice⟩
      exact ⟨n, ⟨hn, hcap, hle⟩, hslice⟩
    · rintro ⟨m, offers, hslice⟩
      obtain rfl : n = m := by simpa [hn] using offers.header
      exact ⟨offers.fits, offers.whole, hslice⟩
  · refine iff_of_false ?_ ?_
    · rintro ⟨v', hread⟩
      simp only [read, bind_apply] at hread
      cases hcur : currentFrame v with
      | error e v' =>
        rw [hcur] at hread
        cases hread
      | ok n v' => exact hfound ⟨n, available_of_currentFrame inv hne hcur⟩
    · rintro ⟨n, offers, -⟩
      exact hfound ⟨n, offers.header⟩

omit [Target] in
theorem consume_rest (v : View Input) :
    (final (consume v)).rest = v.rest.drop (min (v.frame.getD 0) v.pending.length) := by
  obtain ⟨capacity, pending, _ | n, inner⟩ := v
  · simp [consume]
  · show pending.drop n ++ Schedule.payload inner =
      (pending ++ Schedule.payload inner).drop (min n pending.length)
    rcases le_total n pending.length with hle | hle
    · rw [min_eq_left hle, List.drop_append_of_le_length hle]
    · rw [min_eq_right hle, List.drop_eq_nil_of_le hle, List.drop_left, List.nil_append]

/-- What a call leaves to the calls after the next `consume` is the end of what it found. -/
theorem read_suffix (inv : Inv v) (hne : Schedule.NonemptyChunks v.inner) :
    (final (consume (final (read v)))).rest <:+ (final (consume v)).rest := by
  have hprog : ∀ v', Progress v v' → (v.frame = none ∨ v'.frame = v.frame) →
      (final (consume v')).rest <:+ (final (consume v)).rest := by
    intro v' progress hframe
    rw [consume_rest, consume_rest, progress.rest]
    apply List.drop_suffix_drop_left _
    have hlen := progress.pending.length_le
    rcases hframe with h | h
    · simp [h]
    · rw [h]
      omega
  have hknown : ∀ v' n, Progress v v' → v'.frame = some n →
      FixedHeader.nextFrame v'.pending = .ok (some n) → v.frame = none ∨ v'.frame = v.frame := by
    intro v' n progress hframe hn
    cases hf : v.frame with
    | none => exact .inl rfl
    | some m =>
      obtain ⟨more, hmore⟩ := progress.pending
      have hm := FixedHeader.nextFrame_append (inv.known m hf).1 more
      rw [hmore, hn] at hm
      obtain rfl : n = m := by simpa using hm
      exact .inr hframe
  have hend := read_ends hne inv
  generalize read v = r at hend ⊢
  cases hend with
  | delivered progress frame announced | refused progress frame announced =>
    exact hprog _ progress (hknown _ _ progress frame announced)
  | malformed progress frame | ended progress frame | failed progress frame =>
    exact hprog _ progress (.inr frame)
  | undrained => exact List.suffix_rfl
  | @interrupted v' n got kind inner progress frame available announced fits missing exact =>
    refine List.IsSuffix.trans ?_ (hprog v' progress (hknown _ _ progress frame announced))
    obtain ⟨r, hexact, -⟩ := readExact_input_error exact
    have hpay := Schedule.payload_readExact isInterrupted (n - v'.pending.length) v'.inner
    rw [hexact] at hpay
    have hmin : min (some n |>.getD 0) v'.pending.length = v'.pending.length :=
      min_eq_right missing.le
    rw [consume_rest, consume_rest, final_error]
    simp only [rest, frame, hmin, List.drop_left]
    exact ⟨got, hpay.symm⟩

/-- In front of a frame that does not fit, `read` loses nothing, and nothing is offered. -/
theorem read_of_big {n : ℕ} (inv : Inv v) (hne : Schedule.NonemptyChunks v.inner)
    (announced : FixedHeader.nextFrame v.rest = .ok (some n)) (big : v.capacity < n) :
    (final (read v)).rest = v.rest ∧ ∀ m, ¬ v.Offers m := by
  constructor
  · have hend := read_ends hne inv
    generalize read v = r at hend ⊢
    cases hend with
    | delivered progress | refused progress | malformed progress | ended progress
    | failed progress => exact progress.rest
    | undrained => rfl
    | interrupted progress frame available announced' fits =>
      rw [← progress.rest, rest_eq, FixedHeader.nextFrame_append announced'] at announced
      obtain rfl : _ = n := by simpa using announced
      rw [progress.capacity] at fits
      omega
  · intro m offers
    obtain ⟨v', hread⟩ := (read_eq_ok_iff inv hne).2 ⟨m, offers, rfl⟩
    obtain ⟨k, ⟨hk, hcap, -⟩, -⟩ := complete_of_read inv hne hread
    rw [announced] at hk
    obtain rfl : n = k := by simpa using hk
    omega

end View

/-! ## Calls of `recv` -/

namespace Reader

def Offers (r : Reader Input) (n : ℕ) : Prop := r.view.Offers n

def offered (r : Reader Input) (n : ℕ) : List UInt8 := r.view.offered n

/-- A reader in order, which is behind the front of the stream or is there after `consume`. -/
structure Within (capacity : ℕ) (stream : List UInt8) (r : Reader Input) : Prop where
  valid : r.Valid
  inv : r.view.Inv
  nonempty : Schedule.NonemptyChunks r.inner
  capacity_eq : r.buf.length = capacity
  suffix : (final (View.consume r.view)).rest <:+ stream

variable {capacity : ℕ} {stream : List UInt8} {r : Reader Input}

theorem Within.keeps (h : Within capacity stream r) : Keeps r.remaining r :=
  ⟨h.valid, h.inv, h.nonempty, fun _ => rfl⟩

theorem within_new {schedule : Input} (new : Reader.withCapacity schedule capacity = some r)
    (nonempty : Schedule.NonemptyChunks schedule) :
    Within capacity (Schedule.payload schedule) r := by
  obtain ⟨valid, hview⟩ := shows_withCapacity new
  have hinner : r.inner = schedule := congrArg View.inner hview
  refine ⟨valid, hview ▸ View.inv_new _ _, hinner ▸ nonempty, congrArg View.capacity hview, ?_⟩
  rw [hview]
  exact List.suffix_rfl

theorem Within.read (h : Within capacity stream r) :
    Within capacity stream (final (Reader.read r)) := by
  obtain ⟨-, valid, hview⟩ := h.valid.read
  obtain ⟨hahead, hcap⟩ := (View.read_ends h.nonempty h.inv).ahead
  have hsuffix := View.read_suffix h.inv h.nonempty
  rw [← hview] at hahead hcap hsuffix
  exact ⟨valid, hview ▸ h.inv.read, hahead.nonempty h.nonempty,
    hcap.trans h.capacity_eq, hsuffix.trans h.suffix⟩

theorem Within.consume (h : Within capacity stream r) :
    Within capacity stream (final (Reader.consume r)) := by
  obtain ⟨valid, hview⟩ := h.valid.consume
  obtain ⟨hinner, hcap⟩ := View.consume_inner r.view
  have hframe := View.consume_frame r.view
  have hsuffix := h.suffix
  rw [← hview] at hinner hcap hframe hsuffix
  replace hinner : (final (Reader.consume r)).inner = r.inner := hinner
  refine ⟨valid, hview ▸ h.inv.consume, hinner ▸ h.nonempty, hcap.trans h.capacity_eq, ?_⟩
  rw [View.consume_rest, hframe]
  exact hsuffix

theorem Within.read_eq_ok_iff (h : Within capacity stream r) {slice : List UInt8} :
    (∃ r', Reader.read r = .ok slice r') ↔ ∃ n, r.Offers n ∧ slice = r.offered n := by
  obtain ⟨hout, -, -⟩ := h.valid.read
  rw [show (∃ n, r.Offers n ∧ slice = r.offered n) ↔ _ from
    (View.read_eq_ok_iff h.inv h.nonempty).symm]
  cases hread : Reader.read r with
  | ok a r' =>
    cases hv : View.read r.view with
    | ok b v' =>
      rw [hread, hv, outcome_ok, outcome_ok, Except.ok.injEq] at hout
      simp [hout]
    | error e v' =>
      rw [hread, hv] at hout
      cases hout
  | error e r' =>
    cases hv : View.read r.view with
    | ok b v' =>
      rw [hread, hv] at hout
      cases hout
    | error e v' => simp

/-- Calls of `read` in front of a frame that does not fit stay in front of it. -/
theorem Within.reads_of_big {n : ℕ} {rs : List (Reader Input)} {done : Bool} {r' : Reader Input}
    (h : Within capacity stream r) (announced : FixedHeader.nextFrame r.remaining = .ok (some n))
    (big : capacity < n) (reads : ReaderHalf.ReadsTo r rs done r') :
    ∀ x ∈ rs, ∀ m, ¬ x.Offers m := by
  have hbig : ∀ x : Reader Input, x.Within capacity stream → x.remaining = r.remaining →
      (final (View.read x.view)).rest = x.view.rest ∧ ∀ m, ¬ x.view.Offers m := by
    intro x hx hrest
    apply View.read_of_big hx.inv hx.nonempty (hrest ▸ announced)
    exact hx.capacity_eq.trans_lt big
  have hkeep : ∀ x : Reader Input, x.Within capacity stream ∧ x.remaining = r.remaining →
      (final (Reader.read x)).Within capacity stream ∧
        (final (Reader.read x)).remaining = r.remaining := by
    rintro x ⟨hx, hrest⟩
    obtain ⟨-, -, hview⟩ := hx.valid.read
    have hstay := (hbig x hx hrest).1
    rw [← hview] at hstay
    exact ⟨hx.read, hstay.trans hrest⟩
  intro x hmem
  obtain ⟨hx, hrest⟩ := (reads.keeps hkeep ⟨h, rfl⟩).1 x hmem
  exact (hbig x hx hrest).2

end Reader

namespace ReaderHalf

variable {W : Type} [Write W] {capacity : ℕ} {stream : List UInt8} {h : ReaderHalf Input W}

/-- The call reads on behind the first `k` bytes of the stream. -/
def StartsAt (stream : List UInt8) (k : ℕ) (c : Call Unit Stop (ReaderHalf Input W) Packet) :
    Prop :=
  ∃ front, front.length = k ∧ stream = front ++ c.before.begun.inner.remaining

omit [Write W] in
theorem begun_suffix (within : h.inner.Within capacity stream) :
    h.begun.inner.remaining <:+ stream := by
  obtain ⟨-, hview⟩ := within.valid.consume
  have hsuffix := within.suffix
  rw [← hview] at hsuffix
  exact hsuffix

/-- The calls of `read` that a call of `recv` makes. -/
def reads (c : Call Unit Stop (ReaderHalf Input W) Packet) : List (Reader Input) :=
  loopReads c.before.begun.polls c.before.begun

theorem recv_within (within : h.inner.Within capacity stream) :
    (final (recv h)).inner.Within capacity stream := by
  have hbegun : h.begun.inner.Within capacity stream := within.consume
  rw [final_recv ⟨_, within.keeps⟩, (pollEvent_keeps hbegun.keeps).1]
  exact ((pollLoop_reads h.begun.polls h.begun).keeps (fun _ hr => hr.read) hbegun).2

/-- `recv` returns a packet exactly if it is offered to one of its calls of `read`. -/
theorem recv_eq_ok_iff (within : h.inner.Within capacity stream) {packet : Packet} :
    outcome (recv h) = .ok packet ↔ ∃ r ∈ loopReads h.begun.polls h.begun, ∃ n, r.Offers n ∧
      Mcutt.consume Packet.parse (r.offered n) = .ok packet := by
  have hbegun : h.begun.inner.Within capacity stream := within.consume
  have hpoll := (pollEvent_keeps hbegun.keeps).2
  have hreads := ((pollLoop_reads h.begun.polls h.begun).keeps (fun _ hr => hr.read) hbegun).1
  have hrecv : outcome (recv h) = .ok packet ↔ ∃ slice, outcome (pollEvent h.begun) = .ok slice ∧
      Mcutt.consume Packet.parse slice = .ok packet := by
    rw [recv_eq ⟨_, within.keeps⟩]
    cases pollEvent h.begun with
    | error e h' => simp
    | ok buf h' => cases hparse : Mcutt.consume Packet.parse buf <;> simp [onExec, hparse]
  rw [hrecv]
  constructor
  · rintro ⟨slice, hslice, hparse⟩
    obtain ⟨r, hr, hread⟩ := (hpoll slice).1 hslice
    obtain ⟨n, offers, rfl⟩ := (hreads r hr).read_eq_ok_iff.1 hread
    exact ⟨r, hr, n, offers, hparse⟩
  · rintro ⟨r, hr, n, offers, hparse⟩
    exact ⟨_, (hpoll _).2 ⟨r, hr, (hreads r hr).read_eq_ok_iff.2 ⟨n, offers, rfl⟩⟩, hparse⟩

/-- In a run in which nothing is offered to the calls of `read` inside a rejected frame nothing
inside it is decoded.  What a call does return is what is offered to one of its calls of `read`. -/
theorem rejected_not_decoded {schedule : Input} {n : ℕ}
    (new : Reader.withCapacity schedule capacity = some h.inner)
    (nonempty : Schedule.NonemptyChunks schedule)
    (announced : FixedHeader.nextFrame (Schedule.payload schedule) = .ok (some n))
    (big : capacity < n) (m : ℕ) :
    (∀ c ∈ h.recvs m, ∃ k, StartsAt (Schedule.payload schedule) k c) ∧
      ((∀ c ∈ h.recvs m, ∀ k, StartsAt (Schedule.payload schedule) k c → 0 < k → k < n →
          ∀ r ∈ reads c, ∀ i, ¬ r.Offers i) →
        ∀ c ∈ h.recvs m, ∀ k, StartsAt (Schedule.payload schedule) k c → k < n →
          ∀ packet, c.result ≠ .ok packet) ∧
      ∀ c ∈ h.recvs m, ∀ packet, c.result = .ok packet ↔
        ∃ r ∈ reads c, ∃ i, r.Offers i ∧
          Mcutt.consume Packet.parse (r.offered i) = .ok packet := by
  have hcalls : ∀ c ∈ h.recvs m, c.before.inner.Within capacity (Schedule.payload schedule) ∧
      c.result = outcome (recv c.before) := by
    intro c hc
    refine ⟨?_, (call_of_log hc).1⟩
    exact (invariant_of_log (I := fun h : ReaderHalf Input W =>
      h.inner.Within capacity (Schedule.payload schedule)) (P := fun _ _ => True)
      (fun _ _ hs _ => recv_within hs) (Reader.within_new new nonempty)
      (fun _ _ => trivial) hc).1
  have hiff : ∀ c ∈ h.recvs m, ∀ packet, c.result = .ok packet ↔
      ∃ r ∈ reads c, ∃ i, r.Offers i ∧
        Mcutt.consume Packet.parse (r.offered i) = .ok packet := by
    intro c hc packet
    obtain ⟨within, hresult⟩ := hcalls c hc
    rw [hresult]
    exact recv_eq_ok_iff within
  refine ⟨fun c hc => ?_, fun hnot c hc k hk hlt packet hok => ?_, hiff⟩
  · obtain ⟨front, hfront⟩ := begun_suffix (hcalls c hc).1
    exact ⟨_, front, rfl, hfront.symm⟩
  · obtain ⟨r, hr, i, offers, -⟩ := (hiff c hc packet).1 hok
    rcases Nat.eq_zero_or_pos k with rfl | hpos
    · obtain ⟨front, hnil, hstream⟩ := hk
      obtain rfl : front = [] := by simpa using hnil
      have hbegun : c.before.begun.inner.Within capacity _ := (hcalls c hc).1.consume
      rw [hstream] at announced
      exact hbegun.reads_of_big announced big (pollLoop_reads _ _) r hr i offers
    · exact hnot c hc k hk hpos hlt r hr i offers

end ReaderHalf

end

theorem ReaderHalf.rejected_not_decoded_five :
    letI := Target.debug
    letI schedule : Input :=
      [.chunk [0x30, 5, 0, 1], .fail .wouldBlock, .chunk [97, 0xD0], .chunk [1]]
    letI h : ReaderHalf Input (List UInt8) := ⟨⟨[0, 0, 0, 0, 0], 0, none, 0, schedule⟩,
      ⟨false, []⟩, List.replicate 3 ⟨id, .ok [.reader]⟩⟩
    (∀ c ∈ h.recvs 3, ∃ k, StartsAt (Schedule.payload schedule) k c) ∧
      ((∀ c ∈ h.recvs 3, ∀ k, StartsAt (Schedule.payload schedule) k c → 0 < k → k < 7 →
          ∀ r ∈ reads c, ∀ i, ¬ r.Offers i) →
        ∀ c ∈ h.recvs 3, ∀ k, StartsAt (Schedule.payload schedule) k c → k < 7 →
          ∀ packet, c.result ≠ .ok packet) ∧
      ∀ c ∈ h.recvs 3, ∀ packet, c.result = .ok packet ↔
        ∃ r ∈ reads c, ∃ i, r.Offers i ∧
          Mcutt.consume Packet.parse (r.offered i) = .ok packet := by
  exact @ReaderHalf.rejected_not_decoded Target.debug _ _ 5 _ _ 7 rfl
    (by simp [Schedule.NonemptyChunks]) rfl (by decide) 3

/-- A PUBLISH of 8199 bytes is refused, and a PINGRESP is received out of its payload. -/
theorem pingresp_smuggled :
    letI := Target.debug
    letI rest : List (List UInt8) := [0xD0, 0] :: List.replicate 64 (List.replicate 128 0)
    letI chunks : List (List UInt8) := [0x30, 0x84, 0x40, 0, 1] :: rest
    letI h : ReaderHalf Input (List UInt8) := ⟨⟨List.replicate 8192 0, 0, none, 0,
      Chunks.toSchedule chunks⟩, ⟨false, []⟩, List.replicate 2 ⟨id, .ok [.reader]⟩⟩
    FixedHeader.nextFrame chunks.flatten = .ok (some 8199) ∧ 8199 ≤ chunks.flatten.length ∧
      (h.recvs 2).map Call.result =
        [.error (.fault (.err ⟨.outOfRange, "payload is too big"⟩)), .ok .pingResp] ∧
      ∃ c ∈ h.recvs 2, ReaderHalf.StartsAt chunks.flatten 5 c ∧ c.result = .ok .pingResp := by
  let := Target.debug
  set rest : List (List UInt8) := [0xD0, 0] :: List.replicate 64 (List.replicate 128 0) with hrest
  set h : ReaderHalf Input (List UInt8) := ⟨⟨List.replicate 8192 0, 0, none, 0,
    Chunks.toSchedule ([0x30, 0x84, 0x40, 0, 1] :: rest)⟩, ⟨false, []⟩,
    List.replicate 2 ⟨id, .ok [.reader]⟩⟩ with hh
  have hnext : FixedHeader.nextFrame [0x30, 0x84, 0x40, 0, 1] = .ok (some 8199) := by decide
  have hc : ⟨(), final (ReaderHalf.recv h), outcome (ReaderHalf.recv (final (ReaderHalf.recv h))),
      final (ReaderHalf.recv (final (ReaderHalf.recv h)))⟩ ∈ h.recvs 2 :=
    next_of_log (by decide +kernel)
  have hinner : (final (ReaderHalf.recv h)).begun.inner.inner = Chunks.toSchedule rest := by
    decide +kernel
  have hpending : (final (ReaderHalf.recv h)).begun.inner.pending = [] := by decide +kernel
  have hremaining : (final (ReaderHalf.recv h)).begun.inner.remaining = rest.flatten := by
    rw [Reader.remaining, hinner, hpending, Chunks.payload_toSchedule, List.nil_append]
  have hlength : 8199 ≤ ([0x30, 0x84, 0x40, 0, 1] :: rest).flatten.length := by
    simp only [hrest, List.flatten_cons, List.flatten_replicate_replicate, List.length_append,
      List.length_cons, List.length_nil, List.length_replicate]
    norm_num
  refine ⟨FixedHeader.nextFrame_append hnext _, hlength, by decide +kernel, _, hc,
    ⟨[0x30, 0x84, 0x40, 0, 1], rfl, ?_⟩, by decide +kernel⟩
  rw [hremaining, List.flatten_cons]

end Mcutt
