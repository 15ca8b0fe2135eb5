import Mcutt.Packets.Control

/-!
# CONNECT

The encoder of `connect/mod.rs`, for every value of the builder of `connect/builder.rs`, whatever
its flags say of the optional fields.  `write_sync` writes the header before it looks at any field,
and the fields are checked one by one as they are written (`PartsValid`).
-/

namespace Mcutt

/-! ## The builder -/

/-- `ConnectFlags`: all eight bits are declared. -/
structure ConnectFlags where
  bits : UInt8
  deriving DecidableEq, Repr

namespace ConnectFlags

def reserved : ConnectFlags := ⟨0b0000_0001⟩

instance : AndOp ConnectFlags := ⟨fun a b => ⟨a.bits &&& b.bits⟩⟩

def contains (f g : ConnectFlags) : Bool := (f &&& g) == g

end ConnectFlags

/-- The keep alive interval in seconds. -/
structure KeepAlive where
  seconds : UInt16
  deriving DecidableEq, Repr

structure Will where
  topic : String
  message : List UInt8
  deriving DecidableEq, Repr

structure ConnectBuilder where
  clientId : String
  flags : ConnectFlags
  keepalive : KeepAlive
  will : Option Will
  username : Option String
  password : Option (List UInt8)
  deriving DecidableEq, Repr

/-! ## Parts of the packet -/

namespace WillMsg

section

variable [Target]

/-- The two lengths are added unchecked. -/
def encodeLen (value : Will) : Exec ℕ := do
  let topic ← MqttStr.encodeLen value.topic
  let message ← Buff.encodeLen value.message
  arith usizeMax (topic + message)

end

def writeSync (value : Will) : Enc ℕ := do
  let topic ← MqttStr.writeSync value.topic
  let msg ← Buff.writeSync value.message
  pure (topic + msg)

/-- The bytes of a will. -/
def wire (value : Will) : List UInt8 := MqttStr.wire value.topic ++ Buff.wire value.message

/-- A will both parts of which are accepted. -/
def Valid (value : Will) : Prop := MqttStr.Valid value.topic ∧ value.message.length ≤ 65535

theorem checks_writeSync (value : Will) :
    (writeSync value).Checks (Valid value) (wire value).length (wire value) := by
  refine ((MqttStr.checks_writeSync value.topic).bind
    ((Buff.checks_writeSync value.message).map fun msg => _ + msg)).congr ?_ ?_ ?_
  · simp [Valid]
  · simp [wire]
  · simp [wire]

theorem length_wire_le {value : Will} (h : Valid value) : (wire value).length ≤ 131074 := by
  have htopic := MqttStr.length_wire_le h.1
  have hmessage := Buff.length_wire_le h.2
  rw [wire, List.length_append]
  omega

theorem encodeLen_eq [Target] {value : Will} (h : Valid value) :
    encodeLen value = .ok (wire value).length := by
  have hle := length_wire_le h
  rw [wire, List.length_append] at hle ⊢
  rw [encodeLen, MqttStr.encodeLen_eq h.1, ok_bind, Buff.encodeLen_eq h.2, ok_bind,
    arith_of_le (le_usizeMax (by omega))]

end WillMsg

namespace ClientId

def validateValue (_value : String) : Exec Unit := .ok ()

def encodeLen [Target] (value : String) : Exec ℕ := MqttStr.encodeLen value

def writeSync (value : String) : Enc ℕ := do
  validateValue value
  MqttStr.writeSync value

theorem checks_writeSync (value : String) :
    (writeSync value).Checks (MqttStr.Valid value) (MqttStr.wire value).length
      (MqttStr.wire value) :=
  ((Enc.writes_lift rfl).checks.bind (MqttStr.checks_writeSync value)).congr
    (iff_of_eq (true_and _)) rfl rfl

end ClientId

/-- The variable header of a CONNECT. -/
structure ConnectHeader where
  protocolName : List UInt8
  protocolLevel : UInt8
  flags : ConnectFlags
  keepAlive : KeepAlive
  deriving DecidableEq, Repr

/-- `Connect::PROTOCOL_NAME`. -/
def protocolName : List UInt8 := [0x0, 0x4, 77, 81, 84, 84]

/-- `Connect::PROTOCOL_LEVEL_V3_1_1`. -/
def protocolLevelV311 : UInt8 := 0x4

namespace ConnectHeader

def validateValue (value : ConnectBuilder) : Exec ConnectHeader :=
  if value.flags.contains ConnectFlags.reserved then fail .invalid "CONNECT variable header"
  else .ok ⟨Mcutt.protocolName, protocolLevelV311, value.flags, value.keepalive⟩

def encodeLen (_value : ConnectBuilder) : Exec ℕ := .ok 10

/-- `as_bytes` of the header. -/
def asBytes (self : ConnectHeader) : List UInt8 :=
  self.protocolName ++ [self.protocolLevel, self.flags.bits] ++
    beBytes self.keepAlive.seconds.toNat

def writeSync (value : ConnectBuilder) : Enc ℕ := do
  let this ← validateValue value
  Enc.writeAll this.asBytes "writing CONNECT header"
  pure 10

/-- The bytes of the variable header. -/
def wire (value : ConnectBuilder) : List UInt8 :=
  asBytes ⟨Mcutt.protocolName, protocolLevelV311, value.flags, value.keepalive⟩

theorem length_wire (value : ConnectBuilder) : (wire value).length = 10 := rfl

theorem checks_writeSync (value : ConnectBuilder) :
    (writeSync value).Checks (value.flags.contains ConnectFlags.reserved = false) 10
      (wire value) := by
  refine Enc.checks_of (fun h => ?_) (fun h => ?_)
  · have hval : validateValue value =
        .ok ⟨Mcutt.protocolName, protocolLevelV311, value.flags, value.keepalive⟩ := by
      simp [validateValue, h]
    refine (Enc.writes_lift hval).bind (Enc.Writes.congr ?_ (List.append_nil _))
    exact (Enc.writes_writeAll _ _).bind (Enc.writes_pure 10)
  · have hval : validateValue value = .error (.err ⟨.invalid, "CONNECT variable header"⟩) := by
      simp [validateValue, Bool.eq_true_of_not_eq_false h, fail]
    exact (Enc.rejects_lift hval).bind _

end ConnectHeader

/-! ## CONNECT -/

namespace Connect

/-- `Connect::write_sync` after the fixed header. -/
def writeBody (value : ConnectBuilder) : Enc ℕ := do
  let header ← ConnectHeader.writeSync value
  let clientId ← ClientId.writeSync value.clientId
  let will ← Enc.opt value.will WillMsg.writeSync
  let username ← Enc.opt value.username MqttStr.writeSync
  let password ← Enc.opt value.password Buff.writeSync
  pure (header + clientId + will + username + password)

section

variable [Target]

/-- `if let Some(a) = o { let l = encode_len(a)?; len = len.and_then(|v| v.checked_add(l)) }`. -/
def addLen {α : Type} (len : Option ℕ) (o : Option α) (encodeLen : α → Exec ℕ) :
    Exec (Option ℕ) :=
  match o with
  | some a => do
    let l ← encodeLen a
    .ok (len.bind fun v => checkedAdd v l)
  | none => .ok len

def encodeLen (value : ConnectBuilder) : Exec ℕ := do
  let header ← ConnectHeader.encodeLen value
  let clientId ← ClientId.encodeLen value.clientId
  let len := checkedAdd header clientId
  let len ← addLen len value.will WillMsg.encodeLen
  let len ← addLen len value.username MqttStr.encodeLen
  let len ← addLen len value.password Buff.encodeLen
  okOr len .overflow "CONNECT encode len"

def writeSync (value : ConnectBuilder) : Enc ℕ :=
  writePacket (.ok ()) (encodeLen value) (FixedHeaderBuilder.new .connect) (writeBody value)

end

/-- The bytes after the fixed header. -/
def body (value : ConnectBuilder) : List UInt8 :=
  ConnectHeader.wire value ++ (MqttStr.wire value.clientId ++ (value.will.elim [] WillMsg.wire ++
    (value.username.elim [] MqttStr.wire ++ value.password.elim [] Buff.wire)))

/-- What the encoders of the parts accept. -/
structure PartsValid (value : ConnectBuilder) : Prop where
  reserved : value.flags.contains ConnectFlags.reserved = false
  clientId : MqttStr.Valid value.clientId
  will : ∀ will ∈ value.will, WillMsg.Valid will
  username : ∀ username ∈ value.username, MqttStr.Valid username
  password : ∀ password ∈ value.password, password.length ≤ 65535

theorem checks_writeBody (value : ConnectBuilder) :
    (writeBody value).Checks (PartsValid value) (body value).length (body value) := by
  refine ((ConnectHeader.checks_writeSync value).bind ((ClientId.checks_writeSync _).bind
    ((Enc.checks_opt WillMsg.checks_writeSync _).bind
      ((Enc.checks_opt MqttStr.checks_writeSync _).bind
        ((Enc.checks_opt Buff.checks_writeSync _).map fun password => _ + password))))).congr
          ?_ ?_ ?_
  · constructor
    · rintro ⟨reserved, clientId, will, username, password⟩
      exact ⟨reserved, clientId, will, username, password⟩
    · rintro ⟨reserved, clientId, will, username, password⟩
      exact ⟨reserved, clientId, will, username, password⟩
  · simp only [body, List.length_append, ConnectHeader.length_wire]
    omega
  · simp [body]

section

variable [Target]

theorem addLen_eq {α : Type} {o : Option α} {encodeLen : α → Exec ℕ} {wire : α → List UInt8} {n : ℕ}
    (h : ∀ a ∈ o, encodeLen a = .ok (wire a).length) (hn : n + (o.elim [] wire).length < 2 ^ 32) :
    addLen (some n) o encodeLen = .ok (some (n + (o.elim [] wire).length)) := by
  cases o with
  | none => rfl
  | some a =>
    have hadd : checkedAdd n (wire a).length = some (n + (wire a).length) := checkedAdd_of_lt hn
    simp only [addLen, h a rfl, ok_bind, Option.bind_some, hadd, Option.elim_some]

omit [Target] in
theorem length_opt_le {α : Type} {o : Option α} {wire : α → List UInt8} {k : ℕ}
    (h : ∀ a ∈ o, (wire a).length ≤ k) : (o.elim [] wire).length ≤ k := by
  cases o with
  | none => exact Nat.zero_le k
  | some a => exact h a rfl

/-- The parts of a valid CONNECT are too short for the additions to overflow. -/
theorem encodeLen_eq {value : ConnectBuilder} (valid : PartsValid value) :
    encodeLen value = .ok (body value).length := by
  have clientId := MqttStr.length_wire_le valid.clientId
  have will : (value.will.elim [] WillMsg.wire).length ≤ 131074 :=
    length_opt_le fun will h => WillMsg.length_wire_le (valid.will will h)
  have username : (value.username.elim [] MqttStr.wire).length ≤ 65537 :=
    length_opt_le fun username h => MqttStr.length_wire_le (valid.username username h)
  have password : (value.password.elim [] Buff.wire).length ≤ 65537 :=
    length_opt_le fun password h => Buff.length_wire_le (valid.password password h)
  have addWill (n : ℕ) (hn : n + (value.will.elim [] WillMsg.wire).length < 2 ^ 32) :
      addLen (some n) value.will WillMsg.encodeLen =
        .ok (some (n + (value.will.elim [] WillMsg.wire).length)) :=
    addLen_eq (fun will h => WillMsg.encodeLen_eq (valid.will will h)) hn
  have addUsername (n : ℕ) (hn : n + (value.username.elim [] MqttStr.wire).length < 2 ^ 32) :
      addLen (some n) value.username MqttStr.encodeLen =
        .ok (some (n + (value.username.elim [] MqttStr.wire).length)) :=
    addLen_eq (fun username h => MqttStr.encodeLen_eq (valid.username username h)) hn
  have addPassword (n : ℕ) (hn : n + (value.password.elim [] Buff.wire).length < 2 ^ 32) :
      addLen (some n) value.password Buff.encodeLen =
        .ok (some (n + (value.password.elim [] Buff.wire).length)) :=
    addLen_eq (fun password h => Buff.encodeLen_eq (valid.password password h)) hn
  simp only [encodeLen, ConnectHeader.encodeLen, ok_bind, ClientId.encodeLen,
    MqttStr.encodeLen_eq valid.clientId]
  rw [checkedAdd_of_lt (by omega),
    addWill _ (by omega), ok_bind, addUsername _ (by omega), ok_bind, addPassword _ (by omega),
    ok_bind, okOr_some, body]
  simp only [List.length_append, ConnectHeader.length_wire]
  congr 1
  omega

theorem writeSync_eq_ok {value : ConnectBuilder} {n : ℕ}
    (hok : (writeSync value).result = .ok n) :
    PartsValid value ∧ (body value).length ≤ 268435455 ∧
      (writeSync value).output = packetWire .connect TypeFlags.empty (body value) ∧
      n = (packetWire .connect TypeFlags.empty (body value)).length :=
  (writePacket_eq_ok rfl (checks_writeBody value)
    (fun valid _ h => (Except.ok.inj ((encodeLen_eq valid).symm.trans h)).symm) hok).2

end

end Connect

end Mcutt
