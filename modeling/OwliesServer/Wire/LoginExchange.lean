/-
A login from end to end: the messages of the two schemes, in the frames of the two directions, through the gate.

- `login_requests_received`: whatever the cuts and the interleaving of the connections, the packages the gate redirects to
  the agent of a connection on which login requests are written are decoded to the tables of these requests, in order. The
  premises are those of `unpackMessage`: the sessions are sign-clean, and the array holds a NUL behind the name.
- `login_responses_received`: the login responses the server sends one after another, encoded with one buffer, are read by
  the client as the same tables under the same sessions.
-/
import OwliesServer.Net.Gate
import OwliesServer.Wire.ClientFrame
import OwliesServer.Wire.LoginMessages
import OwliesServer.Wire.ResponseStream

namespace OwliesServer.LoginExchange

open OwliesServer.CChar OwliesServer.Framing OwliesServer.Lua OwliesServer.Sproto OwliesServer.Schemes

/-! ## From the client -/

/-- `c2sSp:decode` of `sz` bytes at an offset of a message -/
def c2sDecode (message : Bytes) : Bytes × ℤ × ℤ → Option Value
  | (typename, msg, sz) =>
    match c2sType typename with
    | none => none
    | some st =>
      match ldecode client2Server st ((message.drop msg.toNat).take sz.toNat) with
      | .ok (v, _) => some v
      | .error _ => none

/-- a login request with some of its fields, whose frame is a package -/
structure LoginMessage where
  session : BitVec 32
  messageType : Byte
  timestamp : Option Bytes
  userId : Option Bytes
  userAccount : Option Bytes
  deviceIdentifier : Option Bytes
  clientVersion : Option Bytes
  clientAppName : Option Bytes
  clean : SignClean session
  small : (timestamp.getD []).length + (userId.getD []).length + (userAccount.getD []).length +
    (deviceIdentifier.getD []).length + (clientVersion.getD []).length + (clientAppName.getD []).length ≤ 65478

/-- the text of a field, by its tag -/
def LoginMessage.text (m : LoginMessage) : ℕ → Option Bytes
  | 0 => m.timestamp
  | 1 => m.userId
  | 2 => m.userAccount
  | 3 => m.deviceIdentifier
  | 4 => m.clientVersion
  | _ => m.clientAppName

def LoginMessage.value (m : LoginMessage) (f : Field) : Option Value := (m.text f.tag).map .string

def LoginMessage.table (m : LoginMessage) : Value := .table [] (entries m.value loginRequest.fields)

theorem LoginMessage.flat (m : LoginMessage) : Flat loginRequest m.value where
  names := by decide
  single f hf := by
    have hshape : ∀ f ∈ loginRequest.fields, f.shape = .single .string := by decide
    refine ⟨.string, hshape f hf, fun v hv => ?_⟩
    obtain ⟨s, -, rfl⟩ := Option.map_eq_some_iff.1 hv
    trivial

theorem LoginMessage.need_le (m : LoginMessage) :
    need plainLua client2Server ENCODE_DEEPLEVEL loginRequest m.table ≤ 65516 := by
  have hmaxn : loginRequest.maxn = 6 := by decide
  have hsmall := m.small
  refine (m.flat.need_entries plainLua client2Server _).trans_le ?_
  rw [hmaxn]
  simp only [loginRequest, List.map_cons, List.map_nil, List.sum_cons, List.sum_nil, needField, LoginMessage.value,
    LoginMessage.text, needContent_string, SIZEOF_LENGTH]
  omega

/-- what the client writes for its table -/
def LoginMessage.payload (m : LoginMessage) : Bytes :=
  match encoded plainLua client2Server loginRequest m.table with
  | .ok bytes => bytes
  | .error _ => []

theorem LoginMessage.payload_decodes (m : LoginMessage) : m.payload.length ≤ 65516 ∧
    ldecode client2Server loginRequest m.payload = .ok (m.table, m.payload.length) := by
  have hlargest : 65516 ≤ largestBuffer := by decide
  obtain ⟨bytes, hbytes, hlen, hdecode⟩ := encodes_entries plainLua plain_client2Server (by decide) m.flat
    (m.need_le.trans hlargest)
  have hpayload : m.payload = bytes := by
    rw [LoginMessage.payload, LoginMessage.table, hbytes]
  rw [hpayload]
  exact ⟨hlen.trans m.need_le, hdecode⟩

def LoginMessage.frame (m : LoginMessage) : ClientFrame.Frame := ⟨m.session, m.messageType, ascii "LoginRequest", m.payload⟩

theorem LoginMessage.frame_length (m : LoginMessage) : m.frame.bytes.length = 19 + m.payload.length := by
  rw [ClientFrame.frame_length]
  rfl

open ClientFrame in
/-- the frame is unpacked if the array holds a NUL behind the name -/
theorem LoginMessage.unpack_frame (m : LoginMessage) (stack : Vector Byte TYPE_STRING_MAX_LEN)
    (hnul : stack.toList[12]? = some 0#8) :
    unpackMessage stack m.frame.bytes =
      some ⟨m.session.toInt, (promote m.messageType).toInt, ascii "LoginRequest", 12, 19⟩ := by
  have hname : m.frame.messageName.length = 12 := rfl
  have hlen : m.frame.unpackedNameLen = (12 : ℕ) := by
    rw [unpackedNameLen_eq _ (by omega), hname]
    rfl
  have hsession : m.frame.unpackedSession.toInt = m.session.toInt := (orBytes4_exact_iff m.session).2 m.clean
  have hbytes : 7 + 12 ≤ m.frame.bytes.length := by
    rw [m.frame_length]
    omega
  have hcopy := copyName_eq m.frame.bytes stack.toList 12 (by decide) hbytes (by rw [Vector.length_toList]; decide)
  rw [frame_drop, ← hname, List.take_left, hname] at hcopy
  have hstring := (cString_append_iff (ascii "LoginRequest") (stack.toList.drop 12) (by decide)).2
    (by rw [List.head?_drop, hnul])
  rw [unpackMessage_frame, hlen, hcopy]
  change Option.map _ (cString (ascii "LoginRequest" ++ stack.toList.drop 12)) = _
  rw [hstring, hsession]
  rfl

open ClientFrame in
theorem LoginMessage.deserialize_frame (m : LoginMessage) (stack : Vector Byte TYPE_STRING_MAX_LEN)
    (hnul : stack.toList[12]? = some 0#8) :
    deserialize (c2sDecode m.frame.bytes) stack m.frame.bytes m.frame.bytes.length =
      some (m.table, m.session.toInt, (promote m.messageType).toInt, ascii "LoginRequest") := by
  have hname : m.frame.messageName.length = 12 := rfl
  have hpayload : m.frame.bytes.drop 19 = m.payload := by
    rw [show 19 = 7 + 12 from rfl, ← List.drop_drop, frame_drop, ← hname, List.drop_left]
    rfl
  have hsize : ((m.frame.bytes.length : ℤ) - 7 - 12).toNat = m.payload.length := by
    rw [m.frame_length]
    omega
  have hlookup : c2sType (ascii "LoginRequest") = some loginRequest := rfl
  have hdecode : c2sDecode m.frame.bytes (ascii "LoginRequest", 19, (m.frame.bytes.length : ℤ) - 7 - 12) = some m.table := by
    rw [c2sDecode, hlookup, hsize]
    change (match ldecode client2Server loginRequest ((m.frame.bytes.drop 19).take m.payload.length) with
      | .ok (v, _) => some v
      | .error _ => none) = _
    rw [hpayload, List.take_length, m.payload_decodes.2]
  rw [deserialize, m.unpack_frame stack hnul]
  simp only [Option.bind_eq_bind, Option.bind_some, decodeArgs]
  rw [hdecode]
  rfl

theorem LoginMessage.reads_frame (m : LoginMessage) :
    Reads Netpack.readPack (Netpack.written m.frame.bytes) m.frame.bytes := by
  have hlen := m.payload_decodes.1
  have hframe : m.frame.bytes.length < 2 ^ 16 := by
    rw [m.frame_length]
    omega
  intro rest
  rw [Netpack.readPack, Netpack.written, List.append_assoc, reads_be16 _ hframe]
  exact reads_bytes m.frame.bytes rest

/-- the packages of a connection on which the messages are written -/
theorem packages_frames (messages : List LoginMessage) :
    Netpack.packages (messages.flatMap fun m => Netpack.written m.frame.bytes) =
      (messages.map fun m => m.frame.bytes, []) := by
  have hreads : ∀ m ∈ messages, Reads Netpack.readPack (Netpack.written m.frame.bytes) m.frame.bytes :=
    fun m _ => m.reads_frame
  have hsplit := split_flatMap Netpack.streaming_readPack (fun m : LoginMessage => Netpack.written m.frame.bytes)
    (fun m => m.frame.bytes) messages hreads [] rfl
  rw [List.append_nil] at hsplit
  exact hsplit

/-- a package that is decoded to the table of a message, if the array holds a NUL behind the name -/
def DecodesTo (package : Bytes) (m : LoginMessage) : Prop :=
  ∀ stack : Vector Byte ClientFrame.TYPE_STRING_MAX_LEN, stack.toList[12]? = some 0#8 →
    ClientFrame.deserialize (c2sDecode package) stack package package.length =
      some (m.table, m.session.toInt, (promote m.messageType).toInt, ascii "LoginRequest")

/-- **Login requests arrive as they were written.** An agent has taken over a connection, on which login requests are
written. However the bytes are cut, and whatever else the gate handles in between, until the connection is released: the
packages the gate redirects to the agent are all it does with the connection's packages, and they are decoded to the tables
of the requests that are complete after the forward, in order. -/
theorem login_requests_received (pre mid : List Gate.Op) (source : Gate.Handle) (fd : Netpack.Fd) (client : Option ℕ)
    (address : Option Gate.Handle) (messages : List LoginMessage)
    (hlisten : Machine.Guarded Gate.step Gate.Listening Gate.init (pre ++ .forward source fd client address :: mid))
    (hopen : (Machine.run Gate.step Gate.init pre).opened fd = some true) (hmid : ∀ o ∈ mid, Gate.releases fd o = false)
    (hbytes : (Gate.received fd (pre ++ .forward source fd client address :: mid)).2 =
      messages.flatMap fun m => Netpack.written m.frame.bytes) :
    ∃ outs msgs, (Machine.run Gate.step Gate.init (pre ++ .forward source fd client address :: mid)).out =
        (Gate.step (Machine.run Gate.step Gate.init pre) (.forward source fd client address)).out ++ outs ∧
      outs.filter (fun o => (Gate.carried fd o).isSome) =
        msgs.map (.redirect fd (address.getD source) (some (client.getD 0))) ∧
      List.Forall₂ DecodesTo msgs (messages.drop (Netpack.packages (Gate.received fd pre).2).1.length) := by
  obtain ⟨outs, hout, hmsgs, hpackages⟩ := Gate.outs_of_forward pre mid source fd client address hlisten hopen hmid
  refine ⟨outs, _, hout, Gate.filter_carried hmsgs, ?_⟩
  rw [hbytes, packages_frames] at hpackages
  have hdrop := congrArg (List.drop (Netpack.packages (Gate.received fd pre).2).1.length) hpackages
  rw [List.drop_left, ← List.map_drop] at hdrop
  rw [← hdrop, List.forall₂_map_left_iff]
  exact List.forall₂_same.2 fun m _ stack hnul => m.deserialize_frame stack hnul

/-- without the fields a client need not know -/
def sampleLogin : LoginMessage where
  session := 1
  messageType := 1
  timestamp := some (ascii "1490000000")
  userId := none
  userAccount := some (ascii "owl")
  deviceIdentifier := some (ascii "device")
  clientVersion := none
  clientAppName := none
  clean := by decide
  small := by decide

/-- a client connects, an agent takes it over, and its frame arrives in one piece -/
theorem login_requests_received_sampleLogin : ∃ b bs outs msgs,
    (Machine.run Gate.step Gate.init (Gate.sampleOps.take 2 ++ .forward 9 5 none none :: [.socket (.data 5 b bs)])).out =
        (Gate.step (Machine.run Gate.step Gate.init (Gate.sampleOps.take 2)) (.forward 9 5 none none)).out ++ outs ∧
      outs.filter (fun o => (Gate.carried 5 o).isSome) = msgs.map (.redirect 5 9 (some 0)) ∧
      List.Forall₂ DecodesTo msgs [sampleLogin] := by
  obtain ⟨b, bs, hbytes⟩ : ∃ b bs, Netpack.written sampleLogin.frame.bytes = b :: bs := ⟨_, _, rfl⟩
  refine ⟨b, bs, login_requests_received (Gate.sampleOps.take 2) [.socket (.data 5 b bs)] 9 5 none none [sampleLogin]
    ?_ (by decide) (by simp [Gate.releases]) ?_⟩
  · simp [Gate.sampleOps, Machine.Guarded, Gate.Listening, Gate.step, Gate.init, Gate.emit]
  · rw [List.flatMap_singleton, hbytes]
    rfl

/-! ## To the client -/

/-- a login response with some of its fields, whose package has a length of two bytes -/
structure LoginAnswer where
  session : ℤ
  userId : Option Bytes
  energy : Option (BitVec 64)
  session_lo : -2 ^ 31 ≤ session
  session_hi : session < 2 ^ 31
  small : responseSize userId energy ≤ 65516

def LoginAnswer.table (a : LoginAnswer) : Value := responseTable a.userId a.energy

/-- `serialize` and `send_package` for what was encoded; `none` if they raise -/
def sendResponse (a : LoginAnswer) : Except Stop Bytes → Option Bytes
  | .ok code => ServerPackage.sendPackage
      (ServerPackage.packMessage (ascii "LoginResponse") (BitVec.ofInt 32 a.session) code)
  | .error _ => none

/-- one response after another, with the buffer of `s2cSp:encode` -/
def sendResponses (answers : List LoginAnswer) : Option Bytes :=
  ((answers.zip (encodeRun plainLua server2Client (answers.map fun a : LoginAnswer => (loginResponse, a.table))
    ENCODE_BUFFERSIZE)).mapM fun x => sendResponse x.1 x.2).map List.flatten

/-- what the client reads of a response -/
def Reports (f : ServerPackage.Fields) (a : LoginAnswer) : Prop :=
  f.session = a.session ∧ f.messageName = ascii "LoginResponse" ∧
    ldecode server2Client loginResponse f.payload = .ok (a.table, f.payload.length)

/-- the package of one answer -/
theorem LoginAnswer.sends (a : LoginAnswer) : ∃ r : ServerPackage.Response, Reports r.toFields a ∧
    sendResponse a (encoded plainLua server2Client loginResponse a.table) = some r.bytes := by
  have hsmall := a.small
  have hneed : 22 + (a.userId.getD []).length ≤ largestBuffer := (need_le_of_responseSize hsmall).trans (by decide)
  obtain ⟨code, hcode, hlen, hdecode⟩ := encodes_response plainLua a.userId a.energy hneed
  have hfits : 6 + (ascii "LoginResponse").length + code.length ≤ 65535 := by
    have hname : (ascii "LoginResponse").length = 13 := rfl
    omega
  have hnul : 0#8 ∉ ascii "LoginResponse" := by decide
  let r : ServerPackage.Response := ⟨⟨a.session, ascii "LoginResponse", code⟩, a.session_lo, a.session_hi, hnul, hfits⟩
  refine ⟨r, ⟨rfl, rfl, hdecode⟩, ?_⟩
  rw [LoginAnswer.table, hcode]
  exact ServerPackage.sendPackage_package r

theorem sendResponses_eq (answers : List LoginAnswer) : ∃ rs : List ServerPackage.Response,
    sendResponses answers = some (rs.flatMap ServerPackage.Response.bytes) ∧
      List.Forall₂ (fun r a => Reports r.toFields a) rs answers := by
  have hplain : ∀ m ∈ answers.map (fun a : LoginAnswer => (loginResponse, a.table)), Plain m.1 := by
    intro m hm
    obtain ⟨a, -, rfl⟩ := List.mem_map.1 hm
    exact plain_server2Client _ List.mem_cons_self
  unfold sendResponses
  rw [encodeRun_eq plainLua plain_server2Client _ hplain _ bufferSize_first, List.map_map]
  clear hplain
  induction answers with
  | nil => exact ⟨[], rfl, .nil⟩
  | cons a answers ih =>
    obtain ⟨rs, hrs, hall⟩ := ih
    obtain ⟨r, hr, hsend⟩ := a.sends
    obtain ⟨packages, hpackages, hflat⟩ := Option.map_eq_some_iff.1 hrs
    refine ⟨r :: rs, ?_, .cons hr hall⟩
    rw [List.map_cons, List.zip_cons_cons, List.mapM_cons, hpackages]
    simp only [Function.comp_apply, hsend]
    change some (r.bytes :: packages).flatten = _
    rw [List.flatten_cons, hflat, List.flatMap_cons]

/-- **Login responses arrive as they were sent**, with their sessions and in order. -/
theorem login_responses_received (answers : List LoginAnswer) : ∃ stream fields, sendResponses answers = some stream ∧
    readStream ServerPackage.readResponse stream = some fields ∧ List.Forall₂ Reports fields answers := by
  obtain ⟨rs, hrs, hall⟩ := sendResponses_eq answers
  refine ⟨_, rs.map ServerPackage.Response.toFields, hrs, ?_, List.forall₂_map_left_iff.2 hall⟩
  apply readStream_flatMap
  · intro r _
    exact ServerPackage.readResponse_bytes r
  · intro r _
    simp [ServerPackage.Response.bytes, be16]

end OwliesServer.LoginExchange
