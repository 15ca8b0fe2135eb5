import Mcutt.Packets.Incremental
import Mcutt.Packets.Server
import Mcutt.Sync.Receiving

/-!
# The packets of a session

A server sends packets one behind the other, and the client calls `connect` first and then `recv`.
Every call that gets a slice is about the next packet: if the packet is one that the call is for, it
returns the packet, or the error for remaining bytes if the packet is shorter than the header window
and was read together with what follows it (`Session.packets_in_order`).
-/

namespace Mcutt

open Machine Framing Parsing

section

variable [Target]

/-- The bytes are the frame of the packet. -/
def Bears (frame : List UInt8) (packet : Packet) : Prop :=
  FixedHeader.nextFrame frame = .ok (some frame.length) ∧ Packet.parse frame = .ok (packet, [])

namespace ReceiverCall

/-- What the call returns for a packet, if the packet is one that it is for. -/
def expects : ReceiverCall → Packet → Option Reply
  | connect _, .connAck connack => some (.connAck connack)
  | connect _, _ => none
  | recv, packet => some (.packet packet)

end ReceiverCall

namespace Session

open Connection

variable {W : Type} [Write W]

/-- The calls that got a slice. -/
def answered (calls : List (Received Input W)) : List (Received Input W) :=
  calls.filter fun c => (Connection.slice c).isOk

/-- The call got the frame of the packet, with less than a header behind it, and returned what its
parser makes of them: if the packet is one that the call is for and nothing was behind it, the
packet. -/
def Answers (sent : List UInt8 × Packet) (c : Received Input W) : Prop :=
  ∃ more, Connection.slice c = .ok (sent.1 ++ more) ∧
    (sent.1 ++ more).length ≤ max Reader.MIN sent.1.length ∧
    c.result = (c.input.parse (sent.1 ++ more)).mapError Stop.fault ∧
    ∀ reply, c.input.expects sent.2 = some reply → c.result =
      if more = [] then .ok reply
      else .error (.fault (.err ⟨.invalid, "remaining bytes in consumed packet"⟩))

end Session

/-! ## One packet -/

omit [Target] in
theorem consume_of_parse {α : Type} {parse : List UInt8 → Exec (α × List UInt8)}
    {buf rest : List UInt8} {a : α} (h : parse buf = .ok (a, rest)) :
    consume parse buf = if rest = [] then .ok a
      else .error (.err ⟨.invalid, "remaining bytes in consumed packet"⟩) := by
  rw [consume, h, ok_bind]
  cases rest <;> rfl

/-- The parser of `connect` is the one for CONNACK. -/
theorem ConnAck.parse_of_packet {buf rest : List UInt8} {connack : ConnAck}
    (h : Packet.parse buf = .ok (.connAck connack, rest)) :
    ConnAck.parse buf = .ok (connack, rest) := by
  obtain ⟨b, tail, t, f, rfl, -, hp⟩ := Packet.parse_eq_ok.1 h
  cases t with
  | connAck =>
    obtain ⟨a, ha, heq⟩ := Packet.mapParsed_eq_ok.1 hp
    obtain rfl : a = connack := by simpa using heq
    exact ha
  | publish | pubAck | pubRec | pubRel | pubComp | subAck | unsubAck =>
    obtain ⟨a, -, heq⟩ := Packet.mapParsed_eq_ok.1 hp
    cases heq
  | pingResp =>
    rw [Packet.parseAs_pingResp] at hp
    obtain ⟨a, -, heq⟩ := Packet.mapParsed_eq_ok.1 hp
    cases heq
  | connect | subscribe | unsubscribe | pingReq | disconnect => simp [Packet.parseAs] at hp

theorem Bears.parse {frame more : List UInt8} {packet : Packet} (h : Bears frame packet)
    {call : ReceiverCall} {reply : Reply} (hreply : call.expects packet = some reply) :
    call.parse (frame ++ more) = if more = [] then .ok reply
      else .error (.err ⟨.invalid, "remaining bytes in consumed packet"⟩) := by
  have hparse := Packet.incremental.append h.2 more
  rw [List.nil_append] at hparse
  cases call with
  | recv =>
    obtain rfl : Reply.packet packet = reply := by simpa [ReceiverCall.expects] using hreply
    rw [ReceiverCall.parse, consume_of_parse hparse]
    split_ifs <;> rfl
  | connect value =>
    cases packet with
    | connAck connack =>
      obtain rfl : Reply.connAck connack = reply := by simpa [ReceiverCall.expects] using hreply
      rw [ReceiverCall.parse, consume_of_parse (ConnAck.parse_of_packet hparse)]
      split_ifs <;> rfl
    | publish | pubAck | pubRec | pubRel | pubComp | subAck | unsubAck | pingResp =>
      simp [ReceiverCall.expects] at hreply

namespace Session

open Connection

variable {W : Type} [Write W]

variable {c : Received Input W} {s : Inbox UInt8} {buf : List UInt8}

/-- A call that gets a slice in front of a packet gets its frame and answers it. -/
theorem answers_of_delivered {frame tail : List UInt8} {packet : Packet}
    (bears : Bears frame packet) (behind : s.behind = frame ++ tail)
    (hdrop : (s.drop c.input.ask).held = none) (follows : Follows s c)
    (hslice : Connection.slice c = .ok buf)
    (hresult : c.result = (c.input.parse buf).mapError Stop.fault) :
    s.step FixedHeader.nextFrame (event c) = ⟨some frame, tail⟩ ∧ Answers (frame, packet) c := by
  have hn : FixedHeader.nextFrame frame = .ok (some frame.length) := bears.1
  have hstep : s.step FixedHeader.nextFrame (event c) = ⟨some frame, tail⟩ := by
    have hnext : FixedHeader.nextFrame (s.drop c.input.ask).behind = .ok (some frame.length) := by
      rw [Inbox.drop_behind, behind]
      exact FixedHeader.nextFrame_append hn _
    have hle : frame.length ≤ (s.drop c.input.ask).behind.length := by
      rw [Inbox.drop_behind, behind, List.length_append]
      exact Nat.le_add_right _ _
    have hfetch := Inbox.fetch_of_none hdrop hnext hle
    rw [Inbox.drop_behind, behind, List.take_left, List.drop_left] at hfetch
    rw [event, hslice]
    exact hfetch
  refine ⟨hstep, ?_⟩
  obtain ⟨f, hf, hfront, -, hlen⟩ := follows.delivered buf hslice
  rw [hstep] at hf
  obtain rfl : frame = f := by simpa using hf
  obtain ⟨more, rfl⟩ := hfront
  refine ⟨more, hslice, hlen, hresult, fun reply hreply => ?_⟩
  rw [hresult, bears.parse hreply]
  split_ifs <;> rfl

/-- A call that gets a slice has a whole frame in front. -/
theorem frame_of_delivered (hdrop : (s.drop c.input.ask).held = none) (follows : Follows s c)
    (hslice : Connection.slice c = .ok buf) :
    ∃ n, FixedHeader.nextFrame s.behind = .ok (some n) ∧ n ≤ s.behind.length := by
  obtain ⟨f, hf, -⟩ := follows.delivered buf hslice
  have hstep : s.step FixedHeader.nextFrame (event c) =
      (s.drop c.input.ask).fetch FixedHeader.nextFrame := by
    rw [event, hslice]
    rfl
  rw [hstep] at hf
  rcases @Inbox.fetch_cases _ _ FixedHeader.nextFrame (s.drop c.input.ask) with
    hsame | ⟨-, n, hn, hle, -⟩
  · rw [hsame, hdrop] at hf
    cases hf
  · rw [Inbox.drop_behind] at hn hle
    exact ⟨n, hn, hle⟩

/-- From an inbox that holds nothing, or behind the first call, the calls with a slice answer the
packets of the stream, and there are no others if what follows the packets has no frame in front. -/
theorem answers_of_tracks {calls : List (Received Input W)}
    {sent : List (List UInt8 × Packet)} {rest : List UInt8}
    (tracks : Tracks (fun c s => Inbox.step FixedHeader.nextFrame (event c) s) Follows s calls)
    (results : ∀ c ∈ calls, ∀ buf, Connection.slice c = .ok buf →
      c.result = (c.input.parse buf).mapError Stop.fault)
    (fresh : s.held = none ∨ ∀ c ∈ calls, c.input.ask = .next)
    (later : ∀ c ∈ calls.tail, c.input.ask = .next)
    (behind : s.behind = (sent.map Prod.fst).flatten ++ rest) (bears : ∀ p ∈ sent, Bears p.1 p.2) :
    List.Forall₂ Answers (sent.take (answered calls).length)
        ((answered calls).take sent.length) ∧
      ((∀ n, FixedHeader.nextFrame rest = .ok (some n) → rest.length < n) →
        (answered calls).length ≤ sent.length) := by
  induction calls generalizing s sent with
  | nil => simp [answered]
  | cons c calls ih =>
    obtain ⟨follows, tracks⟩ := tracks
    obtain ⟨result, results⟩ := List.forall_mem_cons.1 results
    have hlater : ∀ d ∈ calls.tail, d.input.ask = .next :=
      fun d hd => later d (List.mem_of_mem_tail hd)
    have hdrop : (s.drop c.input.ask).held = none := by
      rcases fresh with hnone | hnext
      · cases c.input.ask <;> simp [Inbox.drop, hnone]
      · rw [hnext c List.mem_cons_self]
        rfl
    cases hslice : Connection.slice c with
    | error e =>
      have hanswered : answered (c :: calls) = answered calls :=
        List.filter_cons_of_neg (by simp [hslice, Except.isOk, Except.toBool])
      have hbehind : (s.step FixedHeader.nextFrame (event c)).behind = s.behind := by
        rw [event, hslice]
        exact Inbox.drop_behind _ _
      rw [hanswered]
      exact ih tracks results (.inr later) hlater (hbehind.trans behind) bears
    | ok buf =>
      have hanswered : answered (c :: calls) = c :: answered calls :=
        List.filter_cons_of_pos (by simp [hslice, Except.isOk, Except.toBool])
      rw [hanswered]
      cases sent with
      | nil =>
        refine ⟨by simp, fun hrest => ?_⟩
        obtain ⟨n, hn, hle⟩ := frame_of_delivered hdrop follows hslice
        have hbehind : s.behind = rest := behind
        rw [hbehind] at hn hle
        exact absurd hle (not_le.2 (hrest n hn))
      | cons p sent =>
        obtain ⟨hp, hsent⟩ := List.forall_mem_cons.1 bears
        obtain ⟨frame, packet⟩ := p
        rw [List.map_cons, List.flatten_cons, List.append_assoc] at behind
        obtain ⟨hstep, hanswer⟩ :=
          answers_of_delivered hp behind hdrop follows hslice (result _ hslice)
        change Tracks _ _ (s.step FixedHeader.nextFrame (event c)) calls at tracks
        rw [hstep] at tracks
        obtain ⟨hanswers, hcount⟩ := ih tracks results (.inr later) hlater rfl hsent
        simp only [List.length_cons, List.take_succ_cons]
        exact ⟨.cons hanswer hanswers, fun hrest => Nat.succ_le_succ (hcount hrest)⟩

/-- As long as no `read` is cut and no call fails with a frame known, the calls with a slice answer
the packets that the server sends one each and in order, and there are no others if no whole frame
follows the packets. -/
theorem packets_in_order {capacity : ℕ} {schedule : Input} {h : ReaderHalf Input W}
    (new : Reader.withCapacity schedule capacity = some h.inner)
    (nonempty : Schedule.NonemptyChunks schedule) (blocking : OnlyWouldBlock schedule)
    (first : ReceiverCall) (n : ℕ) {sent : List (List UInt8 × Packet)} {rest : List UInt8}
    (payload : Schedule.payload schedule = (sent.map Prod.fst).flatten ++ rest)
    (bears : ∀ p ∈ sent, Bears p.1 p.2)
    (uncut : ∀ r ∈ readers (first :: List.replicate n .recv) h, r.Uncut)
    (kept : ∀ c ∈ receives (first :: List.replicate n .recv) h, LeavesNoFrame c) :
    List.Forall₂ Answers
        (sent.take (answered (receives (first :: List.replicate n .recv) h)).length)
        ((answered (receives (first :: List.replicate n .recv) h)).take sent.length) ∧
      ((∀ m, FixedHeader.nextFrame rest = .ok (some m) → rest.length < m) →
        (answered (receives (first :: List.replicate n .recv) h)).length ≤ sent.length) := by
  have tracks := calls_track_inbox new nonempty blocking _ uncut kept
  refine answers_of_tracks tracks (fun c hc buf => result_of_slice hc) (.inl rfl) ?_ payload bears
  intro c hc
  rw [receives, log, List.tail_cons] at hc
  split_ifs at hc
  · simp at hc
  · have hinput := input_of_log hc
    rw [List.eq_of_mem_replicate hinput]
    rfl

end Session

end

theorem Session.packets_in_order_two :
    letI := Target.debug
    letI schedule : Input := [.chunk [0x20, 2, 0, 0], .fail .wouldBlock, .chunk [0xD0],
      .fail .wouldBlock, .chunk [0]]
    letI h : ReaderHalf Input (List UInt8) := ⟨⟨[0, 0, 0, 0, 0], 0, none, 0, schedule⟩,
      ⟨false, []⟩, List.replicate 4 ⟨id, .ok [.timer true, .reader]⟩⟩
    letI calls := Session.answered
      (Connection.receives [.connect ConnectBuilder.withEmptyClientId, .recv] h)
    letI sent : List (List UInt8 × Packet) :=
      [([0x20, 2, 0, 0], .connAck ⟨⟨0⟩, .accepted⟩), ([0xD0, 0], .pingResp)]
    List.Forall₂ Session.Answers (sent.take calls.length) (calls.take sent.length) ∧
      ((∀ m, FixedHeader.nextFrame [] = .ok (some m) → ([] : List UInt8).length < m) →
        calls.length ≤ sent.length) := by
  refine @Session.packets_in_order Target.debug _ _ 5 _ _ rfl
    (by simp [Schedule.NonemptyChunks]) (by simp [OnlyWouldBlock])
    (.connect ConnectBuilder.withEmptyClientId) 1 _ [] rfl ?_ ?_ ?_
  · rintro p (_ | ⟨_, _ | ⟨_, ⟨⟩⟩⟩)
    · exact ⟨rfl, rfl⟩
    · exact ⟨rfl, rfl⟩
  · decide +kernel
  · simp only [Connection.LeavesNoFrame]
    decide +kernel

end Mcutt
