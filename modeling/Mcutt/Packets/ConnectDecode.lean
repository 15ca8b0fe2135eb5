import Mcutt.Packets.Connect

/-!
# CONNECT, from the builder's methods to the decoder

`connect/builder.rs` and the decoders of `connect/mod.rs`.  The encoder writes the optional fields
that the builder has, the decoder reads those that the flags announce.  That the two agree is kept
by every method of the builder (`Built.announces`); `Connect.parse_eq_ok` says what the decoder
takes.  The decoder does not look at the value of the remaining length.
-/

namespace Mcutt

/-! ## Flags -/

/-- Quality of service for a message. -/
inductive Qos where
  | atMostOnce
  | atLeastOnce
  | exactlyOnce
  deriving DecidableEq, Repr

namespace ConnectFlags

def username : ConnectFlags := ⟨0b1000_0000⟩
def password : ConnectFlags := ⟨0b0100_0000⟩
def willRetain : ConnectFlags := ⟨0b0010_0000⟩
def willQos1 : ConnectFlags := ⟨0b0000_1000⟩
def willQos2 : ConnectFlags := ⟨0b0001_0000⟩
/-- Inverse mask of the QoS of the will. -/
def willQosReset : ConnectFlags := ⟨0b1110_0111⟩
def willFlag : ConnectFlags := ⟨0b0000_0100⟩
def cleanSession : ConnectFlags := ⟨0b0000_0010⟩
def empty : ConnectFlags := ⟨0⟩

instance : OrOp ConnectFlags := ⟨fun a b => ⟨a.bits ||| b.bits⟩⟩

theorem and_def (f g : ConnectFlags) : f &&& g = ⟨f.bits &&& g.bits⟩ := rfl

theorem or_and (f g h : ConnectFlags) : (f ||| g) &&& h = (f &&& h) ||| (g &&& h) := by
  show (⟨(f.bits ||| g.bits) &&& h.bits⟩ : ConnectFlags) =
    ⟨(f.bits &&& h.bits) ||| (g.bits &&& h.bits)⟩
  congr 1
  apply UInt8.toBitVec_inj.1
  ext i hi
  simp [Bool.and_or_distrib_right]

theorem or_empty (f : ConnectFlags) : f ||| empty = f := by
  show (⟨f.bits ||| 0⟩ : ConnectFlags) = f
  rw [UInt8.or_zero]

/-- A flag is not touched by setting others. -/
theorem contains_or {f g h : ConnectFlags} (hdisj : g &&& h = empty) :
    (f ||| g).contains h = f.contains h := by
  rw [contains, contains, or_and, hdisj, or_empty]

/-- A flag that is set stays or becomes set. -/
theorem contains_or_of_contains {f g h : ConnectFlags} (hg : g.contains h = true) :
    (f ||| g).contains h = true := by
  have hg : g &&& h = h := beq_iff_eq.1 hg
  rw [contains, beq_iff_eq, or_and, hg]
  show (⟨(f.bits &&& h.bits) ||| h.bits⟩ : ConnectFlags) = h
  congr 1
  apply UInt8.toBitVec_inj.1
  ext i hi
  simp

/-- A flag is not touched by a mask that has it. -/
theorem contains_and {f m h : ConnectFlags} (hm : m.contains h = true) :
    (f &&& m).contains h = f.contains h := by
  have hm : m &&& h = h := beq_iff_eq.1 hm
  have hassoc : (f &&& m) &&& h = f &&& (m &&& h) := by
    simp only [and_def, UInt8.and_assoc]
  rw [contains, contains, hassoc, hm]

end ConnectFlags

/-! ## The builder's methods -/

/-- `impl Default for KeepAlive`. -/
def KeepAlive.default : KeepAlive := ⟨60⟩

namespace ConnectBuilder

def newUnchecked (clientId : String) : ConnectBuilder where
  clientId := clientId
  flags := ConnectFlags.empty
  will := none
  username := none
  password := none
  keepalive := KeepAlive.default

def create (clientId : String) : Exec ConnectBuilder := do
  ClientId.validateValue clientId
  .ok {
    clientId := clientId
    flags := ConnectFlags.empty
    keepalive := KeepAlive.default
    will := none
    username := none
    password := none }

def cleanSession (self : ConnectBuilder) : ConnectBuilder :=
  { self with flags := self.flags ||| ConnectFlags.cleanSession }

def withEmptyClientId : ConnectBuilder :=
  let this : ConnectBuilder := {
    clientId := ""
    flags := ConnectFlags.empty
    will := none
    username := none
    password := none
    keepalive := KeepAlive.default }
  this.cleanSession

/-- `ConnectBuilder::keepalive`. -/
def withKeepalive (self : ConnectBuilder) (keepalive : KeepAlive) : ConnectBuilder :=
  { self with keepalive := keepalive }

/-- `ConnectBuilder::will`. -/
def withWill (self : ConnectBuilder) (topic : String) (message : List UInt8) (qos : Qos)
    (retain : Bool) : ConnectBuilder :=
  let flags := self.flags ||| ConnectFlags.willFlag
  let flags := flags &&& ConnectFlags.willQosReset
  let flags := match qos with
    | .atMostOnce => flags
    | .atLeastOnce => flags ||| ConnectFlags.willQos1
    | .exactlyOnce => flags ||| ConnectFlags.willQos2
  let flags := if retain then flags ||| ConnectFlags.willRetain else flags
  { self with will := some ⟨topic, message⟩, flags := flags }

/-- `ConnectBuilder::username`. -/
def withUsername (self : ConnectBuilder) (username : String) : ConnectBuilder :=
  { self with flags := self.flags ||| ConnectFlags.username, username := some username }

/-- `ConnectBuilder::username_password`. -/
def withUsernamePassword (self : ConnectBuilder) (username : String) (password : List UInt8) :
    ConnectBuilder :=
  { self with
    flags := self.flags ||| (ConnectFlags.username ||| ConnectFlags.password)
    username := some username
    password := some password }

end ConnectBuilder

/-- A builder made by one of the constructors and finitely many calls of the methods. -/
inductive Built : ConnectBuilder → Prop
  | create {clientId : String} {value : ConnectBuilder}
      (h : ConnectBuilder.create clientId = .ok value) : Built value
  | withEmptyClientId : Built ConnectBuilder.withEmptyClientId
  | newUnchecked (clientId : String) : Built (ConnectBuilder.newUnchecked clientId)
  | cleanSession {value : ConnectBuilder} (h : Built value) : Built value.cleanSession
  | keepalive {value : ConnectBuilder} (h : Built value) (keepalive : KeepAlive) :
      Built (value.withKeepalive keepalive)
  | will {value : ConnectBuilder} (h : Built value) (topic : String) (message : List UInt8)
      (qos : Qos) (retain : Bool) : Built (value.withWill topic message qos retain)
  | username {value : ConnectBuilder} (h : Built value) (username : String) :
      Built (value.withUsername username)
  | usernamePassword {value : ConnectBuilder} (h : Built value) (username : String)
      (password : List UInt8) : Built (value.withUsernamePassword username password)

/-- The flags announce the fields that are there. -/
structure Announces (flags : ConnectFlags) (will username password : Bool) : Prop where
  will : will = flags.contains ConnectFlags.willFlag
  username : username = flags.contains ConnectFlags.username
  password : password = flags.contains ConnectFlags.password

namespace ConnectBuilder

/-- The flags of the builder announce its fields. -/
def Announced (value : ConnectBuilder) : Prop :=
  Announces value.flags value.will.isSome value.username.isSome value.password.isSome

theorem announced_newUnchecked (clientId : String) : (newUnchecked clientId).Announced where
  will := show false = ConnectFlags.empty.contains ConnectFlags.willFlag by decide
  username := show false = ConnectFlags.empty.contains ConnectFlags.username by decide
  password := show false = ConnectFlags.empty.contains ConnectFlags.password by decide

variable {value : ConnectBuilder}

theorem Announced.cleanSession (h : value.Announced) : value.cleanSession.Announced where
  will := h.will.trans (ConnectFlags.contains_or rfl).symm
  username := h.username.trans (ConnectFlags.contains_or rfl).symm
  password := h.password.trans (ConnectFlags.contains_or rfl).symm

theorem Announced.withUsername (h : value.Announced) (username : String) :
    (value.withUsername username).Announced where
  will := h.will.trans (ConnectFlags.contains_or rfl).symm
  username := (ConnectFlags.contains_or_of_contains rfl).symm
  password := h.password.trans (ConnectFlags.contains_or rfl).symm

theorem Announced.withUsernamePassword (h : value.Announced) (username : String)
    (password : List UInt8) : (value.withUsernamePassword username password).Announced where
  will := h.will.trans (ConnectFlags.contains_or rfl).symm
  username := (ConnectFlags.contains_or_of_contains rfl).symm
  password := (ConnectFlags.contains_or_of_contains rfl).symm

/-- The bits of the will's QoS and of retain announce nothing. -/
theorem withWill_contains (topic : String) (message : List UInt8) (qos : Qos) (retain : Bool)
    {g : ConnectFlags} (hreset : ConnectFlags.willQosReset.contains g = true)
    (hqos1 : ConnectFlags.willQos1 &&& g = ConnectFlags.empty)
    (hqos2 : ConnectFlags.willQos2 &&& g = ConnectFlags.empty)
    (hretain : ConnectFlags.willRetain &&& g = ConnectFlags.empty) :
    (value.withWill topic message qos retain).flags.contains g =
      (value.flags ||| ConnectFlags.willFlag).contains g := by
  cases qos <;> cases retain <;>
    simp only [withWill, if_true, if_false, Bool.false_eq_true, ConnectFlags.contains_or hqos1,
      ConnectFlags.contains_or hqos2, ConnectFlags.contains_or hretain,
      ConnectFlags.contains_and hreset]

theorem Announced.withWill (h : value.Announced) (topic : String) (message : List UInt8)
    (qos : Qos) (retain : Bool) : (value.withWill topic message qos retain).Announced where
  will := by
    rw [withWill_contains topic message qos retain rfl rfl rfl rfl,
      ConnectFlags.contains_or_of_contains rfl]
    rfl
  username := by
    rw [withWill_contains topic message qos retain rfl rfl rfl rfl, ConnectFlags.contains_or rfl]
    exact h.username
  password := by
    rw [withWill_contains topic message qos retain rfl rfl rfl rfl, ConnectFlags.contains_or rfl]
    exact h.password

end ConnectBuilder

/-- The flags of a builder announce its fields, whatever was called in whatever order. -/
theorem Built.announced {value : ConnectBuilder} (h : Built value) : value.Announced := by
  induction h with
  | create h =>
    obtain rfl := Except.ok.inj h
    exact ConnectBuilder.announced_newUnchecked _
  | withEmptyClientId => exact (ConnectBuilder.announced_newUnchecked "").cleanSession
  | newUnchecked clientId => exact ConnectBuilder.announced_newUnchecked clientId
  | cleanSession _ ih => exact ih.cleanSession
  | keepalive _ _ ih => exact ih
  | will _ topic message qos retain ih => exact ih.withWill topic message qos retain
  | username _ username ih => exact ih.withUsername username
  | usernamePassword _ username password ih => exact ih.withUsernamePassword username password

/-! ## The parts of the packet -/

section

variable [Target]

/-- `WillMsg`. -/
structure WillMsg where
  topic : MqttStr
  message : Buff
  deriving DecidableEq, Repr

namespace WillMsg

def validate (_self : WillMsg) : Exec Unit := .ok ()

def parse (buf : List UInt8) : Exec (WillMsg × List UInt8) := do
  let (topic, rest) ← MqttStr.parse buf
  let (message, rest) ← Buff.parse rest
  let this : WillMsg := ⟨topic, message⟩
  this.validate
  .ok (this, rest)

/-- The will of a packet. -/
def toWill (this : WillMsg) : Will := ⟨this.topic.data, this.message.data⟩

/-- The fields of a will as they are parsed. -/
def Parsed (this : WillMsg) : Prop := this.topic.Parsed ∧ this.message.Parsed

theorem parse_eq_ok {buf rest : List UInt8} {this : WillMsg} :
    parse buf = .ok (this, rest) ↔ buf = wire this.toWill ++ rest ∧ this.Parsed := by
  constructor
  · intro h
    simp only [parse, bind_eq_ok] at h
    obtain ⟨⟨topic, afterTopic⟩, htopic, ⟨message, rest'⟩, hmessage, -, -, heq⟩ := h
    obtain ⟨rfl, hparsed⟩ := MqttStr.parse_eq_ok.1 htopic
    obtain ⟨rfl, hlen⟩ := Buff.parse_eq_ok.1 hmessage
    obtain ⟨rfl, rfl⟩ := Prod.mk.inj (Except.ok.inj heq)
    exact ⟨(List.append_assoc _ _ _).symm, hparsed, hlen⟩
  · rintro ⟨rfl, htopic, hmessage⟩
    have parsedTopic : MqttStr.parse (MqttStr.wire this.topic.data ++
        (Buff.wire this.message.data ++ rest)) = .ok (this.topic, _) :=
      MqttStr.parse_eq_ok.2 ⟨rfl, htopic⟩
    have parsedMessage :
        Buff.parse (Buff.wire this.message.data ++ rest) = .ok (this.message, rest) :=
      Buff.parse_eq_ok.2 ⟨rfl, hmessage⟩
    rw [parse, wire, toWill, List.append_assoc, parsedTopic, ok_bind]
    dsimp only
    rw [parsedMessage, ok_bind]
    rfl

end WillMsg

/-- `ClientId`. -/
structure ClientId where
  str : MqttStr
  deriving DecidableEq, Repr

namespace ClientId

/-- `ClientId::CLIENT_ID_BYTES` contains the number. -/
def clientIdBytes (n : ℕ) : Bool := decide (1 ≤ n ∧ n ≤ 23)

def validate (self : ClientId) : Exec Unit :=
  if !clientIdBytes (strBytes self.str.data).length then
    fail .outOfRange "client id must be between 1 and 23 bytes long"
  else if !self.str.data.toList.all Char.isAlphanum then
    fail .invalid "client id is not ascii alphanumeric"
  else .ok ()

def parse (buf : List UInt8) : Exec (ClientId × List UInt8) := do
  let (str, rest) ← MqttStr.parse buf
  let this : ClientId := ⟨str⟩
  this.validate
  .ok (this, rest)

/-- A client identifier of 1 to 23 letters and digits. -/
def Alphanumeric (s : String) : Prop :=
  (1 ≤ s.length ∧ s.length ≤ 23) ∧ s.toList.all Char.isAlphanum = true

instance (s : String) : Decidable (Alphanumeric s) :=
  inferInstanceAs (Decidable ((1 ≤ s.length ∧ s.length ≤ 23) ∧ _))

omit [Target] in
/-- Letters and digits are one byte each. -/
theorem length_strBytes {s : String} (h : s.toList.all Char.isAlphanum = true) :
    (strBytes s).length = s.length := by
  have size (cs : List Char) (hcs : cs.all Char.isAlphanum = true) :
      cs.utf8Encode.size = cs.length := by
    induction cs with
    | nil => rfl
    | cons c cs ih =>
      simp only [List.all_cons, Bool.and_eq_true] at hcs
      have hone : c.utf8Size = 1 := by
        apply Char.utf8Size_eq_one_iff.2
        have hc := hcs.1
        unfold Char.isAlphanum Char.isAlpha Char.isUpper Char.isLower Char.isDigit at hc
        grind
      rw [List.utf8Encode_cons, ByteArray.size_append, ih hcs.2, List.utf8Encode_singleton]
      simp [hone, Nat.add_comm]
  rw [← String.length_toList, ← size _ h]
  simp [strBytes]

omit [Target] in
theorem validate_eq_ok {this : ClientId} :
    this.validate = .ok () ↔ Alphanumeric this.str.data := by
  unfold validate Alphanumeric
  by_cases hall : this.str.data.toList.all Char.isAlphanum = true
  · rw [length_strBytes hall, hall]
    by_cases hlen : 1 ≤ this.str.data.length ∧ this.str.data.length ≤ 23
    · simp [clientIdBytes, hlen]
    · simp [clientIdBytes, hlen]
  · rw [Bool.eq_false_of_not_eq_true hall]
    cases clientIdBytes (strBytes this.str.data).length <;> simp

theorem parse_eq_ok {buf rest : List UInt8} {this : ClientId} :
    parse buf = .ok (this, rest) ↔
      buf = MqttStr.wire this.str.data ++ rest ∧ this.str.Parsed ∧ Alphanumeric this.str.data := by
  constructor
  · intro h
    simp only [parse, bind_eq_ok] at h
    obtain ⟨⟨str, rest'⟩, hstr, ⟨⟩, hval, heq⟩ := h
    obtain ⟨rfl, hparsed⟩ := MqttStr.parse_eq_ok.1 hstr
    obtain ⟨rfl, rfl⟩ := Prod.mk.inj (Except.ok.inj heq)
    exact ⟨rfl, hparsed, validate_eq_ok.1 hval⟩
  · rintro ⟨rfl, hparsed, hid⟩
    rw [parse, MqttStr.parse_eq_ok.2 ⟨rfl, hparsed⟩, ok_bind]
    dsimp only
    rw [validate_eq_ok.2 hid, ok_bind]

end ClientId

namespace ConnectHeader

def validate (self : ConnectHeader) : Exec Unit :=
  let isValid := self.protocolName == Mcutt.protocolName &&
    self.protocolLevel == protocolLevelV311 && !self.flags.contains ConnectFlags.reserved
  if !isValid then fail .invalid "CONNECT variable header" else .ok ()

/-- `ConnectHeader::ref_from_prefix`. -/
def refFromPrefix (buf : List UInt8) : Option (ConnectHeader × List UInt8) :=
  match buf with
  | n₀ :: n₁ :: n₂ :: n₃ :: n₄ :: n₅ :: level :: flags :: hi :: lo :: rest =>
    some (⟨[n₀, n₁, n₂, n₃, n₄, n₅], level, ⟨flags⟩, ⟨UInt16.ofNat (fromBe hi lo)⟩⟩, rest)
  | _ => none

def parse (buf : List UInt8) : Exec (ConnectHeader × List UInt8) := do
  let (this, rest) ← okOr (refFromPrefix buf) .notEnoughSpace "connect header"
  this.validate
  .ok (this, rest)

/-- The header of the protocol. -/
structure Accepted (this : ConnectHeader) : Prop where
  name : this.protocolName = Mcutt.protocolName
  level : this.protocolLevel = protocolLevelV311
  reserved : this.flags.contains ConnectFlags.reserved = false

omit [Target] in
theorem validate_eq_ok {this : ConnectHeader} : this.validate = .ok () ↔ this.Accepted := by
  unfold validate
  constructor
  · intro h
    dsimp only at h
    split_ifs at h with hvalid
    · cases h
    · simp only [Bool.not_eq_true', Bool.not_eq_false, Bool.and_eq_true, beq_iff_eq] at hvalid
      exact ⟨hvalid.1.1, hvalid.1.2, hvalid.2⟩
  · rintro ⟨name, level, reserved⟩
    simp [name, level, reserved]

omit [Target] in
theorem refFromPrefix_eq_some {buf rest : List UInt8} {this : ConnectHeader} :
    refFromPrefix buf = some (this, rest) ↔
      buf = this.asBytes ++ rest ∧ this.protocolName.length = 6 := by
  constructor
  · intro h
    unfold refFromPrefix at h
    split at h
    · next hi lo tail =>
      obtain ⟨rfl, rfl⟩ := Prod.mk.inj (Option.some.inj h)
      have hnat : (UInt16.ofNat (fromBe hi lo)).toNat = fromBe hi lo :=
        UInt16.toNat_ofNat_of_lt (fromBe_lt hi lo)
      refine ⟨?_, rfl⟩
      simp only [asBytes, hnat, beBytes_fromBe, List.cons_append, List.nil_append]
    · cases h
  · obtain ⟨name, level, flags, keepAlive⟩ := this
    rintro ⟨rfl, hlen⟩
    match name, hlen with
    | [n₀, n₁, n₂, n₃, n₄, n₅], _ =>
      have hbe := fromBe_beBytes keepAlive.seconds.toNat_lt
      simp only [asBytes, beBytes, List.cons_append, List.nil_append, refFromPrefix, hbe,
        UInt16.ofNat_toNat]

omit [Target] in
theorem parse_eq_ok {buf rest : List UInt8} {this : ConnectHeader} :
    parse buf = .ok (this, rest) ↔ buf = this.asBytes ++ rest ∧ this.Accepted := by
  constructor
  · intro h
    simp only [parse, bind_eq_ok, okOr_eq_ok] at h
    obtain ⟨⟨this', rest'⟩, hbuf, ⟨⟩, hval, heq⟩ := h
    obtain ⟨rfl, rfl⟩ := Prod.mk.inj (Except.ok.inj heq)
    exact ⟨(refFromPrefix_eq_some.1 hbuf).1, validate_eq_ok.1 hval⟩
  · rintro ⟨rfl, accepted⟩
    have hlen : this.protocolName.length = 6 := by
      rw [accepted.name]
      rfl
    rw [parse, refFromPrefix_eq_some.2 ⟨rfl, hlen⟩, okOr_some, ok_bind]
    dsimp only
    rw [validate_eq_ok.2 accepted, ok_bind]

end ConnectHeader

/-! ## The packet -/

/-- A CONNECT as it is parsed. -/
structure Connect where
  fixed : FixedHeader
  header : ConnectHeader
  clientId : ClientId
  will : Option WillMsg
  username : Option MqttStr
  password : Option Buff
  deriving DecidableEq, Repr

namespace Connect

/-- `if let Some(a) = o { a.validate()? }`. -/
def validateIf {α : Type} (o : Option α) (validate : α → Exec Unit) : Exec Unit :=
  match o with
  | some a => validate a
  | none => .ok ()

def validate (self : Connect) : Exec Unit := do
  let packetType ← self.fixed.packetType
  if packetType ≠ .connect then fail .invalid "controll packet type" else .ok ()
  self.header.validate
  self.clientId.validate
  validateIf self.will WillMsg.validate
  validateIf self.username MqttStr.validate
  validateIf self.password Buff.validate

def parse (buf : List UInt8) : Exec (Connect × List UInt8) := do
  let (fixed, rest) ← FixedHeaderSlice.parse buf
  fixed.assertPacketType .connect
  let (header, rest) ← ConnectHeader.parse rest
  let (clientId, rest) ← ClientId.parse rest
  let (will, rest) ←
    parseIf (header.flags.contains ConnectFlags.willFlag) WillMsg.parse rest
  let (username, rest) ←
    parseIf (header.flags.contains ConnectFlags.username) MqttStr.parse rest
  let (password, rest) ←
    parseIf (header.flags.contains ConnectFlags.password) Buff.parse rest
  let this : Connect := ⟨fixed, header, clientId, will, username, password⟩
  this.validate
  .ok (this, rest)

/-- The bytes after the fixed header. -/
def bodyWire (this : Connect) : List UInt8 :=
  this.header.asBytes ++ (MqttStr.wire this.clientId.str.data ++
    ((this.will.elim [] fun will => WillMsg.wire will.toWill) ++
      ((this.username.elim [] fun username => MqttStr.wire username.data) ++
        this.password.elim [] fun password => Buff.wire password.data)))

/-- What the decoder asks of a packet. -/
structure Accepted (this : Connect) : Prop where
  type : ∃ f, this.fixed.Valid .connect f
  header : this.header.Accepted
  clientId : this.clientId.str.Parsed ∧ ClientId.Alphanumeric this.clientId.str.data
  announces : Announces this.header.flags this.will.isSome this.username.isSome
    this.password.isSome
  will : ∀ will ∈ this.will, will.Parsed
  username : ∀ username ∈ this.username, username.Parsed
  password : ∀ password ∈ this.password, password.Parsed

/-- What was parsed passes its own check. -/
theorem Accepted.validate_eq {this : Connect} (accepted : this.Accepted) :
    this.validate = .ok () := by
  obtain ⟨f, valid⟩ := accepted.type
  have username : validateIf this.username MqttStr.validate = .ok () := by
    cases h : this.username with
    | none => rfl
    | some username => exact (accepted.username username h).validate_eq
  have password : validateIf this.password Buff.validate = .ok () := by
    cases h : this.password with
    | none => rfl
    | some password => exact (accepted.password password h).validate_eq
  have will : validateIf this.will WillMsg.validate = .ok () := by
    cases this.will <;> rfl
  simp only [validate, valid.packetType_eq, ok_bind, ne_eq, not_true_eq_false, if_false,
    ConnectHeader.validate_eq_ok.2 accepted.header,
    ClientId.validate_eq_ok.2 accepted.clientId.2, will, username, password]

/-- The decoder takes a header and a body in which the fields are there as the flags say; what
follows is left, whatever the remaining length. -/
theorem parse_eq_ok {buf rest : List UInt8} {this : Connect} :
    parse buf = .ok (this, rest) ↔
      buf = this.fixed.bytes ++ (this.bodyWire ++ rest) ∧ this.Accepted := by
  constructor
  · intro h
    simp only [parse, bind_eq_ok] at h
    obtain ⟨⟨fixed, r₀⟩, hfixed, ⟨⟩, htype, ⟨header, r₁⟩, hheader, ⟨clientId, r₂⟩, hclientId,
      ⟨will, r₃⟩, hwill, ⟨username, r₄⟩, husername, ⟨password, r₅⟩, hpassword, ⟨⟩, hval, heq⟩ := h
    obtain ⟨rfl, t, f, valid⟩ := FixedHeaderSlice.parse_eq_ok.1 hfixed
    obtain ⟨rfl, accepted⟩ := ConnectHeader.parse_eq_ok.1 hheader
    obtain ⟨rfl, hid⟩ := ClientId.parse_eq_ok.1 hclientId
    obtain ⟨rfl, announcesWill, parsedWill⟩ := (parseIf_eq_ok_of WillMsg.parse_eq_ok).1 hwill
    obtain ⟨rfl, announcesUsername, parsedUsername⟩ :=
      (parseIf_eq_ok_of MqttStr.parse_eq_ok).1 husername
    obtain ⟨rfl, announcesPassword, parsedPassword⟩ :=
      (parseIf_eq_ok_of Buff.parse_eq_ok).1 hpassword
    obtain ⟨rfl, rfl⟩ := Prod.mk.inj (Except.ok.inj heq)
    have hconnect : t = .connect := by
      by_contra hne
      simp [validate, valid.packetType_eq, hne] at hval
    subst hconnect
    refine ⟨by simp [bodyWire], ⟨f, valid⟩, accepted, hid,
      ⟨announcesWill, announcesUsername, announcesPassword⟩, parsedWill, parsedUsername,
      parsedPassword⟩
  · rintro ⟨rfl, accepted⟩
    obtain ⟨f, valid⟩ := accepted.type
    have hfixed : FixedHeaderSlice.parse (this.fixed.bytes ++ (this.bodyWire ++ rest)) =
        .ok (this.fixed, this.bodyWire ++ rest) :=
      FixedHeaderSlice.parse_eq_ok.2 ⟨rfl, .connect, f, valid⟩
    have htype : this.fixed.assertPacketType .connect = .ok () :=
      valid.assertPacketType_eq_ok.2 fun _ => rfl
    have hheader (r : List UInt8) :
        ConnectHeader.parse (this.header.asBytes ++ r) = .ok (this.header, r) :=
      ConnectHeader.parse_eq_ok.2 ⟨rfl, accepted.header⟩
    have hclientId (r : List UInt8) :
        ClientId.parse (MqttStr.wire this.clientId.str.data ++ r) = .ok (this.clientId, r) :=
      ClientId.parse_eq_ok.2 ⟨rfl, accepted.clientId⟩
    have hwill (r : List UInt8) :
        parseIf (this.header.flags.contains ConnectFlags.willFlag) WillMsg.parse
          ((this.will.elim [] fun will => WillMsg.wire will.toWill) ++ r) = .ok (this.will, r) :=
      (parseIf_eq_ok_of WillMsg.parse_eq_ok).2 ⟨rfl, accepted.announces.will, accepted.will⟩
    have husername (r : List UInt8) :
        parseIf (this.header.flags.contains ConnectFlags.username) MqttStr.parse
          ((this.username.elim [] fun username => MqttStr.wire username.data) ++ r) =
            .ok (this.username, r) :=
      (parseIf_eq_ok_of MqttStr.parse_eq_ok).2
        ⟨rfl, accepted.announces.username, accepted.username⟩
    have hpassword (r : List UInt8) :
        parseIf (this.header.flags.contains ConnectFlags.password) Buff.parse
          ((this.password.elim [] fun password => Buff.wire password.data) ++ r) =
            .ok (this.password, r) :=
      (parseIf_eq_ok_of Buff.parse_eq_ok).2
        ⟨rfl, accepted.announces.password, accepted.password⟩
    rw [parse, hfixed, ok_bind]
    simp only [bodyWire, List.append_assoc, htype, hheader, hclientId, hwill, husername, hpassword,
      ok_bind]
    rw [accepted.validate_eq, ok_bind]

/-! ## There and back -/

/-- The packet the decoder makes of what the encoder writes after a header. -/
def ofBuilder (fixed : FixedHeader) (value : ConnectBuilder) : Connect where
  fixed := fixed
  header := ⟨Mcutt.protocolName, protocolLevelV311, value.flags, value.keepalive⟩
  clientId := ⟨MqttStr.ofString value.clientId⟩
  will := value.will.map fun will => ⟨MqttStr.ofString will.topic, Buff.ofBytes will.message⟩
  username := value.username.map MqttStr.ofString
  password := value.password.map Buff.ofBytes

omit [Target] in
theorem bodyWire_ofBuilder (fixed : FixedHeader) (value : ConnectBuilder) :
    (ofBuilder fixed value).bodyWire = body value := by
  have will : ((ofBuilder fixed value).will.elim [] fun will => WillMsg.wire will.toWill) =
      value.will.elim [] WillMsg.wire := by
    cases h : value.will <;> simp [ofBuilder, h, WillMsg.toWill, MqttStr.ofString, Buff.ofBytes]
  have username : ((ofBuilder fixed value).username.elim [] fun u => MqttStr.wire u.data) =
      value.username.elim [] MqttStr.wire := by
    cases h : value.username <;> simp [ofBuilder, h, MqttStr.ofString]
  have password : ((ofBuilder fixed value).password.elim [] fun p => Buff.wire p.data) =
      value.password.elim [] Buff.wire := by
    cases h : value.password <;> simp [ofBuilder, h, Buff.ofBytes]
  rw [bodyWire, will, username, password]
  rfl

omit [Target] in
/-- What a builder that announces its fields is written as is accepted. -/
theorem accepted_ofBuilder {fixed : FixedHeader} {value : ConnectBuilder} {f : TypeFlags}
    (fixedValid : fixed.Valid .connect f) (valid : PartsValid value)
    (announced : value.Announced) (hid : ClientId.Alphanumeric value.clientId) :
    (ofBuilder fixed value).Accepted where
  type := ⟨f, fixedValid⟩
  header := ⟨rfl, rfl, valid.reserved⟩
  clientId := ⟨⟨rfl, valid.clientId⟩, hid⟩
  announces := by
    simp only [ofBuilder, Option.isSome_map]
    exact announced
  will := by
    intro will hwill
    obtain ⟨w, hw, rfl⟩ := Option.map_eq_some_iff.1 hwill
    obtain ⟨topic, message⟩ := valid.will w hw
    exact ⟨⟨rfl, topic⟩, rfl, message⟩
  username := by
    intro username husername
    obtain ⟨u, hu, rfl⟩ := Option.map_eq_some_iff.1 husername
    exact ⟨rfl, valid.username u hu⟩
  password := by
    intro password hpassword
    obtain ⟨p, hp, rfl⟩ := Option.map_eq_some_iff.1 hpassword
    exact ⟨rfl, valid.password p hp⟩

end Connect

/-- CONNECT is read back from what it is written as, with a field present in the packet exactly
when it is present in the builder. -/
theorem connect_roundtrip {value : ConnectBuilder} (hbuilt : Built value)
    (hid : ClientId.Alphanumeric value.clientId) (n : ℕ) (out rest : List UInt8)
    (hrun : (Connect.writeSync value).run ([] : List UInt8) = (.ok n, out)) :
    ∃ c, Connect.parse (out ++ rest) = .ok (c, rest) ∧ c.header.flags = value.flags ∧
      c.header.keepAlive = value.keepalive ∧ c.clientId.str.data = value.clientId ∧
      c.will.map WillMsg.toWill = value.will ∧ c.username.map MqttStr.data = value.username ∧
      c.password.map Buff.data = value.password := by
  obtain ⟨hresult, rfl⟩ := Enc.of_run_nil hrun
  obtain ⟨valid, hle, hout, -⟩ := Connect.writeSync_eq_ok hresult
  obtain ⟨fixed, fixedValid, -, hwire, -⟩ :=
    FixedHeaderSlice.parse_packetWire (t := .connect) (f := TypeFlags.empty) rfl hle rest
  refine ⟨Connect.ofBuilder fixed value, Connect.parse_eq_ok.2 ⟨?_, ?_⟩, rfl, rfl, rfl, ?_, ?_, ?_⟩
  · rw [hout, hwire, Connect.bodyWire_ofBuilder, List.append_assoc]
    rfl
  · exact Connect.accepted_ofBuilder fixedValid valid hbuilt.announced hid
  · simp only [Connect.ofBuilder, Option.map_map]
    exact Option.map_id_apply
  · simp only [Connect.ofBuilder, Option.map_map]
    exact Option.map_id_apply
  · simp only [Connect.ofBuilder, Option.map_map]
    exact Option.map_id_apply

end

theorem connect_roundtrip_all :
    letI := Target.debug
    ∃ c, Connect.parse ([0x10, 26, 0, 4, 77, 81, 84, 84, 4, 0xEE, 0, 60, 0, 2, 105, 100,
        0, 1, 116, 0, 1, 1, 0, 1, 117, 0, 1, 2] ++ [7]) = .ok (c, [7]) ∧
      c.header.flags = ⟨0xEE⟩ ∧ c.header.keepAlive = ⟨60⟩ ∧ c.clientId.str.data = "id" ∧
      c.will.map WillMsg.toWill = some ⟨"t", [1]⟩ ∧ c.username.map MqttStr.data = some "u" ∧
      c.password.map Buff.data = some [2] :=
  @connect_roundtrip Target.debug
    ((((ConnectBuilder.newUnchecked "id").withWill "t" [1] .atLeastOnce true).cleanSession
      ).withUsernamePassword "u" [2])
    ((((Built.newUnchecked "id").will "t" [1] .atLeastOnce true).cleanSession).usernamePassword
      "u" [2])
    (by decide) 28 _ [7] (by decide)

/-! ## Back and there -/

namespace Connect

section

variable [Target]

/-- The builder with the fields of a packet. -/
def toBuilder (this : Connect) : ConnectBuilder where
  clientId := this.clientId.str.data
  flags := this.header.flags
  keepalive := this.header.keepAlive
  will := this.will.map WillMsg.toWill
  username := this.username.map MqttStr.data
  password := this.password.map Buff.data

omit [Target] in
theorem body_toBuilder {this : Connect} (accepted : this.header.Accepted) :
    body this.toBuilder = this.bodyWire := by
  have header : ConnectHeader.wire this.toBuilder = this.header.asBytes := by
    rw [ConnectHeader.wire, ConnectHeader.asBytes, ConnectHeader.asBytes, accepted.name,
      accepted.level]
    rfl
  have will : (this.toBuilder.will.elim [] WillMsg.wire) =
      this.will.elim [] fun will => WillMsg.wire will.toWill := by
    cases h : this.will <;> simp [toBuilder, h]
  have username : (this.toBuilder.username.elim [] MqttStr.wire) =
      this.username.elim [] fun username => MqttStr.wire username.data := by
    cases h : this.username <;> simp [toBuilder, h]
  have password : (this.toBuilder.password.elim [] Buff.wire) =
      this.password.elim [] fun password => Buff.wire password.data := by
    cases h : this.password <;> simp [toBuilder, h]
  rw [body, header, will, username, password]
  rfl

omit [Target] in
/-- What the decoder took the encoder takes. -/
theorem Accepted.partsValid {this : Connect} (accepted : this.Accepted) :
    PartsValid this.toBuilder where
  reserved := accepted.header.reserved
  clientId := accepted.clientId.1.2
  will := by
    intro will hwill
    obtain ⟨w, hw, rfl⟩ := Option.map_eq_some_iff.1 hwill
    obtain ⟨topic, message⟩ := accepted.will w hw
    exact ⟨topic.2, message.2⟩
  username := by
    intro username husername
    obtain ⟨u, hu, rfl⟩ := Option.map_eq_some_iff.1 husername
    exact (accepted.username u hu).2
  password := by
    intro password hpassword
    obtain ⟨p, hp, rfl⟩ := Option.map_eq_some_iff.1 hpassword
    exact (accepted.password p hp).2

omit [Target] in
/-- The fields are too short for the body to be too long. -/
theorem PartsValid.length_le {value : ConnectBuilder} (valid : PartsValid value) :
    (body value).length ≤ 268435455 := by
  have clientId := MqttStr.length_wire_le valid.clientId
  have will : (value.will.elim [] WillMsg.wire).length ≤ 131074 :=
    length_opt_le fun will h => WillMsg.length_wire_le (valid.will will h)
  have username : (value.username.elim [] MqttStr.wire).length ≤ 65537 :=
    length_opt_le fun username h => MqttStr.length_wire_le (valid.username username h)
  have password : (value.password.elim [] Buff.wire).length ≤ 65537 :=
    length_opt_le fun password h => Buff.length_wire_le (valid.password password h)
  simp only [body, List.length_append, ConnectHeader.length_wire]
  omega

theorem writeSync_writes {value : ConnectBuilder} (valid : PartsValid value) :
    (writeSync value).Writes (packetWire .connect TypeFlags.empty (body value)).length
      (packetWire .connect TypeFlags.empty (body value)) :=
  writePacket_writes rfl ((checks_writeBody value).writes valid) rfl (encodeLen_eq valid)
    valid.length_le

end

end Connect

/-- A CONNECT that was read can be written, and is read again as the same packet but for the length
in its header.  The bytes are the same exactly if that length was the one of the body, in as few
bytes as possible, which the decoder does not look at. -/
theorem connect_writes_back_iff [Target] {buf rest : List UInt8} {c : Connect}
    (hparse : Connect.parse buf = .ok (c, rest)) :
    ∃ n out, (Connect.writeSync c.toBuilder).run ([] : List UInt8) = (.ok n, out) ∧
      (∃ fixed, Connect.parse (out ++ rest) = .ok ({ c with fixed }, rest)) ∧
      (out ++ rest = buf ↔
        c.fixed.remainingLength.len = RemainingLength.wire c.bodyWire.length) := by
  obtain ⟨rfl, accepted⟩ := Connect.parse_eq_ok.1 hparse
  obtain ⟨f, valid⟩ := accepted.type
  have hbody := Connect.body_toBuilder accepted.header
  have hwrites := Connect.writeSync_writes accepted.partsValid
  have hle := accepted.partsValid.length_le
  rw [hbody] at hwrites hle
  obtain ⟨fixed, fixedValid, -, hwire, -⟩ :=
    FixedHeaderSlice.parse_packetWire (t := .connect) (f := TypeFlags.empty) rfl hle rest
  refine ⟨_, _, hwrites.run_nil, ⟨fixed, Connect.parse_eq_ok.2 ⟨?_, ?_⟩⟩, ?_⟩
  · rw [hwire, List.append_assoc]
    rfl
  · exact { accepted with type := ⟨_, fixedValid⟩ }
  · have htype : c.fixed.typeAndFlags = encodeTypeAndFlags .connect TypeFlags.empty := by
      obtain ⟨hencode, hflags, -, -⟩ := ControlPacketType.encode_of_parse valid.type
      have hbits : f.bits = 0 := by
        simpa [validateTypeFlags, TypeFlags.isEmpty] using hflags
      rw [← hencode, show f = TypeFlags.empty from congrArg TypeFlags.mk hbits]
    rw [packetWire, headerWire, FixedHeader.bytes, htype, List.append_assoc,
      List.append_left_inj, eq_comm]
    simp

theorem connect_writes_back_iff_padded :
    letI := Target.debug
    letI buf : List UInt8 := [0x10, 0x8E, 0, 0, 4, 77, 81, 84, 84, 4, 2, 0, 60, 0, 2, 105, 100]
    letI c : Connect := ⟨⟨0x10, ⟨[0x8E, 0]⟩⟩, ⟨protocolName, 4, ⟨2⟩, ⟨60⟩⟩, ⟨⟨2, "id"⟩⟩, none, none,
      none⟩
    ∃ n out, (Connect.writeSync c.toBuilder).run ([] : List UInt8) = (.ok n, out) ∧
      (∃ fixed, Connect.parse (out ++ [7]) = .ok ({ c with fixed }, [7])) ∧
      (out ++ [7] = buf ++ [7] ↔
        c.fixed.remainingLength.len = RemainingLength.wire c.bodyWire.length) :=
  @connect_writes_back_iff Target.debug _ _ _ (by decide)

end Mcutt
