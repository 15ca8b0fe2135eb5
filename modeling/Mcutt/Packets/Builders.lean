import Mcutt.Packets.ConnectDecode
import Mcutt.Packets.Publish

/-!
# The builders after any calls

The setters of the builders of PUBLISH and CONNECT, called any number of times in any order.  A
builder should say what the last call of each setter asked for.  What a setter only ever adds to
stays from earlier calls: the DUP bit and the packet identifier of a PUBLISH, and the retain bit of
a will.  All else is as the last call left it (`PublishBuilder.describes_iff_nothingWithdrawn`,
`ConnectBuilder.describes_iff_retainKept`).
-/

namespace Mcutt

/-! ## What earlier calls leave -/

section

variable {α β : Type} {calls : List α} {unset : α}

/-- A bit that calls only set is as the last call asked if no call before it set it in vain. -/
theorem any_eq_last_iff {bit : α → Bool} (h : bit unset = false) :
    calls.any bit = bit (calls.getLast?.getD unset) ↔
      ∀ a ∈ calls, bit (calls.getLast?.getD unset) = false → bit a = false := by
  rcases List.eq_nil_or_concat' calls with rfl | ⟨init, last, rfl⟩
  · simp [h]
  · rw [List.getLast?_concat, Option.getD_some]
    cases hlast : bit last with
    | true => simp [hlast]
    | false => simp [hlast, or_imp, forall_and]

/-- So is a field that calls only fill. -/
theorem getLast?_filterMap_eq_last_iff {field : α → Option β} (h : field unset = none) :
    (calls.filterMap field).getLast? = field (calls.getLast?.getD unset) ↔
      ∀ a ∈ calls, field (calls.getLast?.getD unset) = none → field a = none := by
  rcases List.eq_nil_or_concat' calls with rfl | ⟨init, last, rfl⟩
  · simp [h]
  · rw [List.getLast?_concat, Option.getD_some]
    cases hlast : field last with
    | some b => simp [hlast]
    | none => simp [hlast, or_imp, forall_and]

end

/-! ## PUBLISH -/

namespace PublishQos

def dup : PublishQos → Bool
  | atMostOnce => false
  | atLeastOnce dup _ => dup
  | exactlyOnce dup _ => dup

def pkid : PublishQos → Option NonZeroU16
  | atMostOnce => none
  | atLeastOnce _ pkid => some pkid
  | exactlyOnce _ pkid => some pkid

/-- The QoS bit of a publish. -/
def bits : PublishQos → TypeFlags
  | atMostOnce => TypeFlags.empty
  | atLeastOnce _ _ => TypeFlags.publishQos1
  | exactlyOnce _ _ => TypeFlags.publishQos2

theorem isSome_pkid (qos : PublishQos) : qos.pkid.isSome = qos.bits.hasQos := by
  cases qos with
  | atMostOnce => rfl
  | atLeastOnce dup pkid => exact (by decide : true = TypeFlags.publishQos1.hasQos)
  | exactlyOnce dup pkid => exact (by decide : true = TypeFlags.publishQos2.hasQos)

end PublishQos

/-- A call of a setter of the builder. -/
inductive PublishCall where
  | retain
  | qos (qos : PublishQos)

/-- The `qos` calls, in order. -/
def PublishCall.qosCalls (calls : List PublishCall) : List PublishQos :=
  calls.filterMap fun
    | .retain => none
    | .qos value => some value

/-- What the last `qos` call asked for, and without one the default. -/
def PublishCall.lastQos (calls : List PublishCall) : PublishQos :=
  (qosCalls calls).getLast?.getD .atMostOnce

namespace TypeFlags

/-- The two QoS bits. -/
def qosMask : TypeFlags := publishQos1 ||| publishQos2

/-- The flags after a `qos` call, by the bits the claims about them are about. -/
theorem qos_bits (f : TypeFlags) (dup : Bool) (qos : PublishQos) :
    let g := (if dup then (f &&& ~~~qosMask) ||| publishDup else f &&& ~~~qosMask) ||| qos.bits
    g &&& qosMask = qos.bits ∧ g.contains publishDup = (f.contains publishDup || dup) ∧
      g.contains publishRetain = f.contains publishRetain := by
  have all : ∀ b : BitVec 4, ∀ dup : Bool, ∀ bits ∈ [empty, publishQos1, publishQos2],
      let f : TypeFlags := ⟨b⟩
      let g := (if dup then (f &&& ~~~qosMask) ||| publishDup else f &&& ~~~qosMask) ||| bits
      g &&& qosMask = bits ∧ g.contains publishDup = (f.contains publishDup || dup) ∧
        g.contains publishRetain = f.contains publishRetain := by
    decide
  obtain ⟨b⟩ := f
  cases qos <;> exact all b dup _ (by simp [PublishQos.bits])

theorem retain_bits (f : TypeFlags) :
    (f ||| publishRetain) &&& qosMask = f &&& qosMask ∧
      (f ||| publishRetain).contains publishDup = f.contains publishDup ∧
      (f ||| publishRetain).contains publishRetain = true := by
  obtain ⟨b⟩ := f
  revert b
  decide

theorem or_empty (f : TypeFlags) : f ||| empty = f := by
  obtain ⟨b⟩ := f
  revert b
  decide

theorem and_qosMask_hasQos (f : TypeFlags) : (f &&& qosMask).hasQos = f.hasQos := by
  obtain ⟨b⟩ := f
  revert b
  decide

end TypeFlags

namespace PublishBuilder

def call (self : PublishBuilder) : PublishCall → PublishBuilder
  | .retain => self.retain
  | .qos qos => self.qos qos

def calls (self : PublishBuilder) (calls : List PublishCall) : PublishBuilder :=
  calls.foldl call self

/-- A builder says what was called: retain, and what the last `qos` call asked for. -/
structure Describes (value : PublishBuilder) (calls : List PublishCall) : Prop where
  retain : value.flags.contains TypeFlags.publishRetain = true ↔ PublishCall.retain ∈ calls
  qos : value.flags &&& TypeFlags.qosMask = (PublishCall.lastQos calls).bits
  dup : value.flags.contains TypeFlags.publishDup = (PublishCall.lastQos calls).dup
  pkid : value.pkid = (PublishCall.lastQos calls).pkid
  announced : value.pkid.isSome = value.flags.hasQos

/-- The last `qos` call asks for no less than one before it did. -/
def NothingWithdrawn (calls : List PublishCall) : Prop :=
  ∀ qos ∈ PublishCall.qosCalls calls,
    ((PublishCall.lastQos calls).pkid = none → qos.pkid = none) ∧
      ((PublishCall.lastQos calls).dup = false → qos.dup = false)

theorem qos_flags (self : PublishBuilder) (qos : PublishQos) :
    (self.qos qos).flags =
      (if qos.dup then (self.flags &&& ~~~TypeFlags.qosMask) ||| TypeFlags.publishDup
        else self.flags &&& ~~~TypeFlags.qosMask) ||| qos.bits := by
  cases qos with
  | atMostOnce => exact (TypeFlags.or_empty _).symm
  | atLeastOnce dup pkid => rfl
  | exactlyOnce dup pkid => rfl

theorem qos_pkid (self : PublishBuilder) (qos : PublishQos) :
    (self.qos qos).pkid = qos.pkid.or self.pkid := by
  cases qos <;> rfl

/-- What a builder says after any calls: the QoS bits are those of the last `qos` call, DUP and the
identifier are left from the last one that set them. -/
structure Left (value : PublishBuilder) (calls : List PublishCall) : Prop where
  retain : value.flags.contains TypeFlags.publishRetain = true ↔ PublishCall.retain ∈ calls
  qos : value.flags &&& TypeFlags.qosMask = (PublishCall.lastQos calls).bits
  dup : value.flags.contains TypeFlags.publishDup = (PublishCall.qosCalls calls).any PublishQos.dup
  pkid : value.pkid = ((PublishCall.qosCalls calls).filterMap PublishQos.pkid).getLast?

/-- The step of the run: one more call. -/
theorem Left.call {value : PublishBuilder} {calls : List PublishCall} (h : value.Left calls)
    (c : PublishCall) : (value.call c).Left (calls ++ [c]) := by
  cases c with
  | retain =>
    have hcalls : PublishCall.qosCalls (calls ++ [.retain]) = PublishCall.qosCalls calls := by
      simp [PublishCall.qosCalls]
    obtain ⟨hqos, hdup, hretain⟩ := TypeFlags.retain_bits value.flags
    refine ⟨?_, ?_, ?_, ?_⟩
    · exact iff_of_true hretain (by simp)
    · rw [PublishCall.lastQos, hcalls]
      exact hqos.trans h.qos
    · rw [hcalls]
      exact hdup.trans h.dup
    · rw [hcalls]
      exact h.pkid
  | qos qos =>
    have hcalls :
        PublishCall.qosCalls (calls ++ [.qos qos]) = PublishCall.qosCalls calls ++ [qos] := by
      simp [PublishCall.qosCalls]
    obtain ⟨hqos, hdup, hretain⟩ := TypeFlags.qos_bits value.flags qos.dup qos
    rw [← qos_flags] at hqos hdup hretain
    refine ⟨?_, ?_, ?_, ?_⟩
    · have hmem : PublishCall.retain ∈ calls ++ [.qos qos] ↔ PublishCall.retain ∈ calls := by simp
      rw [hmem, ← h.retain]
      exact iff_of_eq (congrArg (· = true) hretain)
    · rw [PublishCall.lastQos, hcalls, List.getLast?_concat]
      exact hqos
    · rw [hcalls, List.any_append, ← h.dup]
      exact hdup.trans (by simp)
    · rw [hcalls, List.filterMap_append]
      refine (qos_pkid value qos).trans ?_
      cases hid : qos.pkid with
      | none => simp [hid, h.pkid]
      | some id => simp [hid]

theorem left_calls (topic : String) (payload : List UInt8) (calls : List PublishCall) :
    ((new topic payload).calls calls).Left calls := by
  induction calls using List.reverseRecOn with
  | nil =>
    have clear : TypeFlags.empty.contains TypeFlags.publishRetain = false ∧
        TypeFlags.empty &&& TypeFlags.qosMask = TypeFlags.empty ∧
        TypeFlags.empty.contains TypeFlags.publishDup = false := by decide
    exact ⟨iff_of_false (by simp [PublishBuilder.calls, new, clear.1]) (by simp), clear.2.1,
      clear.2.2, rfl⟩
  | append_singleton calls c ih =>
    rw [PublishBuilder.calls, List.foldl_concat]
    exact ih.call c

/-- A builder says what was called exactly if no `qos` call was taken back by the last one. -/
theorem describes_iff_nothingWithdrawn (topic : String) (payload : List UInt8)
    (calls : List PublishCall) :
    ((new topic payload).calls calls).Describes calls ↔ NothingWithdrawn calls := by
  have left := left_calls topic payload calls
  generalize (new topic payload).calls calls = value at left
  have hpkid : value.pkid = (PublishCall.lastQos calls).pkid ↔
      ∀ qos ∈ PublishCall.qosCalls calls,
        (PublishCall.lastQos calls).pkid = none → qos.pkid = none := by
    rw [left.pkid]
    exact getLast?_filterMap_eq_last_iff rfl
  have hdup : value.flags.contains TypeFlags.publishDup = (PublishCall.lastQos calls).dup ↔
      ∀ qos ∈ PublishCall.qosCalls calls,
        (PublishCall.lastQos calls).dup = false → qos.dup = false := by
    rw [left.dup]
    exact any_eq_last_iff rfl
  constructor
  · intro h qos hqos
    exact ⟨hpkid.1 h.pkid qos hqos, hdup.1 h.dup qos hqos⟩
  · intro h
    have pkid := hpkid.2 fun qos hqos => (h qos hqos).1
    refine ⟨left.retain, left.qos, hdup.2 fun qos hqos => (h qos hqos).2, pkid, ?_⟩
    rw [pkid, PublishQos.isSome_pkid, ← TypeFlags.and_qosMask_hasQos value.flags, left.qos]

/-- A PUBLISH that was to be sent again with QoS 1 and then with QoS 0 keeps its identifier. -/
theorem withdrawn_pkid_kept :
    let calls := [.qos (.atLeastOnce true ⟨1, by decide⟩), .qos .atMostOnce]
    ¬ ((new "a" [1]).calls calls).Describes calls := fun h => absurd h.pkid (by decide)

end PublishBuilder

/-! ## CONNECT -/

/-- A call of a setter of the builder. -/
inductive ConnectCall where
  | cleanSession
  | keepalive (keepalive : KeepAlive)
  | will (topic : String) (message : List UInt8) (qos : Qos) (retain : Bool)
  | username (username : String)
  | usernamePassword (username : String) (password : List UInt8)

namespace Qos

/-- The bit of the QoS of a will. -/
def willBits : Qos → ConnectFlags
  | atMostOnce => ConnectFlags.empty
  | atLeastOnce => ConnectFlags.willQos1
  | exactlyOnce => ConnectFlags.willQos2

end Qos

namespace ConnectCall

/-- The QoS and the retain of the `will` calls, in order. -/
def willCalls (calls : List ConnectCall) : List (Qos × Bool) :=
  calls.filterMap fun
    | .will _ _ q r => some (q, r)
    | _ => none

/-- Those of the last `will` call, and all clear without one. -/
def lastWill (calls : List ConnectCall) : Qos × Bool :=
  (willCalls calls).getLast?.getD (.atMostOnce, false)

end ConnectCall

namespace ConnectFlags

/-- The two bits of the will's QoS. -/
def willQosMask : ConnectFlags := willQos1 ||| willQos2

/-- The bits under a mask are not touched by setting others. -/
theorem or_and_of_disjoint {f g m : ConnectFlags} (h : g &&& m = empty) :
    (f ||| g) &&& m = f &&& m := by
  rw [or_and, h, or_empty]

/-- The reset leaves none of the QoS bits. -/
theorem and_willQosReset (f : ConnectFlags) : f &&& willQosReset &&& willQosMask = empty := by
  have hassoc : f &&& willQosReset &&& willQosMask = f &&& (willQosReset &&& willQosMask) := by
    simp only [and_def, UInt8.and_assoc]
  have hzero : willQosReset &&& willQosMask = empty := rfl
  rw [hassoc, hzero, and_def]
  exact congrArg ConnectFlags.mk UInt8.and_zero

theorem willQos_of_and {f : ConnectFlags} {q : Qos} (h : f &&& willQosMask = q.willBits) :
    ¬ (f.contains willQos1 = true ∧ f.contains willQos2 = true) := by
  rintro ⟨h₁, h₂⟩
  rw [← contains_and (m := willQosMask) rfl, h] at h₁ h₂
  cases q
  · exact absurd h₁ (by decide)
  · exact absurd h₂ (by decide)
  · exact absurd h₁ (by decide)

end ConnectFlags

namespace ConnectBuilder

def call (self : ConnectBuilder) : ConnectCall → ConnectBuilder
  | .cleanSession => self.cleanSession
  | .keepalive keepalive => self.withKeepalive keepalive
  | .will topic message qos retain => self.withWill topic message qos retain
  | .username username => self.withUsername username
  | .usernamePassword username password => self.withUsernamePassword username password

def calls (self : ConnectBuilder) (calls : List ConnectCall) : ConnectBuilder :=
  calls.foldl call self

/-- A builder as a constructor makes it. -/
inductive New : ConnectBuilder → Prop
  | create {clientId : String} {value : ConnectBuilder}
      (h : ConnectBuilder.create clientId = .ok value) : New value
  | withEmptyClientId : New ConnectBuilder.withEmptyClientId
  | newUnchecked (clientId : String) : New (ConnectBuilder.newUnchecked clientId)

/-- The flags of a builder say which fields it has, and of the will what its last call asked for. -/
structure Describes (value : ConnectBuilder) (calls : List ConnectCall) : Prop where
  will : value.flags.contains ConnectFlags.willFlag = true ↔ value.will.isSome = true
  username : value.flags.contains ConnectFlags.username = true ↔ value.username.isSome = true
  password : value.flags.contains ConnectFlags.password = true ↔ value.password.isSome = true
  password_username : value.password.isSome = true →
    value.flags.contains ConnectFlags.username = true
  reserved : value.flags.contains ConnectFlags.reserved = false
  qos_le : ¬ (value.flags.contains ConnectFlags.willQos1 = true ∧
    value.flags.contains ConnectFlags.willQos2 = true)
  qos : value.flags &&& ConnectFlags.willQosMask = (ConnectCall.lastWill calls).1.willBits
  retain : value.flags.contains ConnectFlags.willRetain = (ConnectCall.lastWill calls).2

/-- The last `will` call asks to retain if one before it did. -/
def RetainKept (calls : List ConnectCall) : Prop :=
  ∀ will ∈ ConnectCall.willCalls calls, (ConnectCall.lastWill calls).2 = false → will.2 = false

/-- What a builder says after any calls: the QoS of the will is that of the last `will` call, its
retain bit is left from the last one that set it. -/
structure Left (value : ConnectBuilder) (calls : List ConnectCall) : Prop where
  announced : value.Announced
  password_username : value.password.isSome = true → value.username.isSome = true
  reserved : value.flags.contains ConnectFlags.reserved = false
  qos : value.flags &&& ConnectFlags.willQosMask = (ConnectCall.lastWill calls).1.willBits
  retain : value.flags.contains ConnectFlags.willRetain =
    (ConnectCall.willCalls calls).any Prod.snd

variable {value : ConnectBuilder}

theorem withWill_qos (topic : String) (message : List UInt8) (qos : Qos) (retain : Bool) :
    (value.withWill topic message qos retain).flags &&& ConnectFlags.willQosMask =
      qos.willBits := by
  have reset := ConnectFlags.and_willQosReset (value.flags ||| ConnectFlags.willFlag)
  have retained (f : ConnectFlags) :
      (if retain then f ||| ConnectFlags.willRetain else f) &&& ConnectFlags.willQosMask =
        f &&& ConnectFlags.willQosMask := by
    cases retain with
    | false => rfl
    | true => exact ConnectFlags.or_and_of_disjoint rfl
  refine (retained _).trans ?_
  cases qos with
  | atMostOnce => exact reset
  | atLeastOnce =>
    rw [ConnectFlags.or_and, reset]
    rfl
  | exactlyOnce =>
    rw [ConnectFlags.or_and, reset]
    rfl

theorem withWill_retain (topic : String) (message : List UInt8) (qos : Qos) (retain : Bool) :
    (value.withWill topic message qos retain).flags.contains ConnectFlags.willRetain =
      (value.flags.contains ConnectFlags.willRetain || retain) := by
  cases retain with
  | true =>
    rw [Bool.or_true]
    exact ConnectFlags.contains_or_of_contains rfl
  | false =>
    rw [Bool.or_false]
    have reset : ((value.flags ||| ConnectFlags.willFlag) &&& ConnectFlags.willQosReset).contains
        ConnectFlags.willRetain = value.flags.contains ConnectFlags.willRetain :=
      (ConnectFlags.contains_and rfl).trans (ConnectFlags.contains_or rfl)
    cases qos with
    | atMostOnce => exact reset
    | atLeastOnce => exact (ConnectFlags.contains_or rfl).trans reset
    | exactlyOnce => exact (ConnectFlags.contains_or rfl).trans reset

variable {calls : List ConnectCall}

/-- A call that sets other bits than those of the will. -/
theorem Left.of_or (h : value.Left calls) {value' : ConnectBuilder} {c : ConnectCall}
    {g : ConnectFlags} (hcalls : ConnectCall.willCalls (calls ++ [c]) = ConnectCall.willCalls calls)
    (announced : value'.Announced) (hflags : value'.flags = value.flags ||| g)
    (hpassword : value'.password.isSome = true → value'.username.isSome = true)
    (hreserved : g &&& ConnectFlags.reserved = ConnectFlags.empty)
    (hqos : g &&& ConnectFlags.willQosMask = ConnectFlags.empty)
    (hretain : g &&& ConnectFlags.willRetain = ConnectFlags.empty) :
    value'.Left (calls ++ [c]) := by
  refine ⟨announced, hpassword, ?_, ?_, ?_⟩
  · rw [hflags, ConnectFlags.contains_or hreserved]
    exact h.reserved
  · rw [hflags, ConnectFlags.or_and_of_disjoint hqos, ConnectCall.lastWill, hcalls]
    exact h.qos
  · rw [hflags, ConnectFlags.contains_or hretain, hcalls]
    exact h.retain

/-- The step of the run: one more call. -/
theorem Left.call (h : value.Left calls) (c : ConnectCall) :
    (value.call c).Left (calls ++ [c]) := by
  cases c with
  | cleanSession =>
    exact h.of_or (by simp [ConnectCall.willCalls]) h.announced.cleanSession rfl
      h.password_username rfl rfl rfl
  | keepalive keepalive =>
    exact h.of_or (by simp [ConnectCall.willCalls]) h.announced
      (ConnectFlags.or_empty value.flags).symm h.password_username rfl rfl rfl
  | username username =>
    exact h.of_or (by simp [ConnectCall.willCalls]) (h.announced.withUsername username) rfl
      (fun _ => rfl) rfl rfl rfl
  | usernamePassword username password =>
    exact h.of_or (by simp [ConnectCall.willCalls])
      (h.announced.withUsernamePassword username password) rfl (fun _ => rfl) rfl rfl rfl
  | will topic message qos retain =>
    have hcalls : ConnectCall.willCalls (calls ++ [.will topic message qos retain]) =
        ConnectCall.willCalls calls ++ [(qos, retain)] := by
      simp [ConnectCall.willCalls]
    refine ⟨h.announced.withWill topic message qos retain, h.password_username, ?_, ?_, ?_⟩
    · refine (withWill_contains topic message qos retain rfl rfl rfl rfl).trans ?_
      exact (ConnectFlags.contains_or rfl).trans h.reserved
    · rw [ConnectCall.lastWill, hcalls, List.getLast?_concat]
      exact withWill_qos topic message qos retain
    · rw [hcalls, List.any_append, ← h.retain]
      exact (withWill_retain topic message qos retain).trans (by simp)

theorem New.left (h : New value) : value.Left [] := by
  have clear (f : ConnectFlags) (hf : f = ConnectFlags.empty ∨ f = ConnectFlags.cleanSession) :
      f.contains ConnectFlags.reserved = false ∧
        f &&& ConnectFlags.willQosMask = ConnectFlags.empty ∧
        f.contains ConnectFlags.willRetain = false := by
    rcases hf with rfl | rfl <;> decide
  have new (clientId : String) : (ConnectBuilder.newUnchecked clientId).Left [] := by
    obtain ⟨reserved, qos, retain⟩ := clear ConnectFlags.empty (.inl rfl)
    exact ⟨announced_newUnchecked clientId, fun h => (Bool.false_ne_true h).elim, reserved, qos,
      retain⟩
  cases h with
  | create h =>
    obtain rfl := Except.ok.inj h
    exact new _
  | withEmptyClientId =>
    obtain ⟨reserved, qos, retain⟩ := clear ConnectFlags.cleanSession (.inr rfl)
    exact ⟨(announced_newUnchecked "").cleanSession, (new "").password_username, reserved, qos,
      retain⟩
  | newUnchecked clientId => exact new clientId

theorem New.left_calls (h : New value) (calls : List ConnectCall) :
    (value.calls calls).Left calls := by
  induction calls using List.reverseRecOn with
  | nil => exact h.left
  | append_singleton calls c ih =>
    rw [ConnectBuilder.calls, List.foldl_concat]
    exact ih.call c

/-- The flags say what the fields are and what the last will is exactly if no earlier will was to
be retained that the last one is not. -/
theorem describes_iff_retainKept (h : New value) (calls : List ConnectCall) :
    (value.calls calls).Describes calls ↔ RetainKept calls := by
  have left := h.left_calls calls
  generalize value.calls calls = value at left
  have hretain : value.flags.contains ConnectFlags.willRetain = (ConnectCall.lastWill calls).2 ↔
      RetainKept calls := by
    rw [left.retain]
    exact any_eq_last_iff rfl
  constructor
  · exact fun h => hretain.1 h.retain
  · intro h
    obtain ⟨will, username, password⟩ := left.announced
    refine ⟨?_, ?_, ?_, ?_, left.reserved, ConnectFlags.willQos_of_and left.qos, left.qos,
      hretain.2 h⟩
    · rw [will]
    · rw [username]
    · rw [password]
    · rw [← username]
      exact left.password_username

theorem describes_iff_retainKept_two :
    let calls := [.will "a" [1] .atMostOnce true, .will "b" [2] .exactlyOnce true]
    ((newUnchecked "id").calls calls).Describes calls :=
  (describes_iff_retainKept (.newUnchecked "id") _).2 fun _ _ h => absurd h (by decide)

/-- A will that was to be retained and then was not stays one to be retained. -/
theorem withdrawn_retain_kept :
    let calls := [.will "a" [1] .atMostOnce true, .will "a" [1] .atMostOnce false]
    New (newUnchecked "id") ∧ ¬ ((newUnchecked "id").calls calls).Describes calls :=
  ⟨.newUnchecked "id", fun h => absurd h.retain (by decide)⟩

end ConnectBuilder

end Mcutt
