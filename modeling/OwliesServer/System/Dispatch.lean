/-
One client message through the agent's dispatch (Script/Service/owlies_agent.lua): the call of owlies_api, and what the
agent does with the value that comes back. It forwards whatever it gets but nil to `send_package`.

- `finish`: the rest of the dispatch for each reply; `resume_written`: in the server it writes what `resume` writes.
- `encodeResponse`: `s2cSp:encode` for a login response, with sproto's encoder (`Sproto.encoded`).
- `only_packages_iff`: the dispatch completes, and passes on packages only, exactly for logins whose response has fields of
  the right kinds and is short enough, and for the next message of a connection, both with the type ChangeEvent.
-/
import OwliesServer.System.Server
import OwliesServer.Wire.LoginMessages

namespace OwliesServer.Server

open OwliesServer.CChar OwliesServer.LuaTable OwliesServer.Sessions OwliesServer.Handlers OwliesServer.ServerPackage
open OwliesServer.ObjectBase
open OwliesServer.Framing (eq_ok_of_toOption)
open OwliesServer.Sproto (responseSize responseTable)
open OwliesServer.Watchdog (AgentId)

/-! ## Model -/

inductive Ending where
  | completes
  | raises
  /-- in a call that is never answered -/
  | blocked
deriving DecidableEq, Repr

/-- what the dispatch of a message did -/
structure Dispatched where
  /-- the value passed to `send_package` -/
  passed : Option Result
  /-- the bytes written to the socket -/
  written : Option Bytes
  ending : Ending
deriving DecidableEq, Repr

/-- the dispatch after its call of owlies_api; `none` is a failed call, which leads to that of `syncError` -/
def finish : Option Result → Dispatched
  | none => ⟨none, none, .blocked⟩
  | some .nil => ⟨none, none, .completes⟩
  -- `string.pack` takes no booleans
  | some (.bool b) => ⟨some (.bool b), none, .raises⟩
  | some (.package p) =>
    match sendPackage p with
    | none => ⟨some (.package p), none, .raises⟩
    | some bytes => ⟨some (.package p), some bytes, .completes⟩

section Message

variable (codec : Codec) (oracle : Oracle) (m : SessionMap) (fd : Fd) (msg : ClientMsg)

/-- what owlies_api answers to a client message, `none` if it is not called or raises -/
def apiReply : Option Result :=
  (command msg).bind fun cmd =>
    outcome codec oracle m ⟨cmd, fd, msg.clientSession, msg.messageType, msg.messageName, msg.sproto⟩

/-- the dispatch of a client message -/
def dispatch : Dispatched := finish (apiReply codec oracle m fd msg)

/-- the dispatch completes; what it passes on is a serialized package that fits; and it writes nothing if owlies_api
rejects the message or has no reply -/
structure OnlyPackages : Prop where
  completes : (dispatch codec oracle m fd msg).ending = .completes
  packages : ∀ v, (dispatch codec oracle m fd msg).passed = some v → ∃ messageName sprotoObj session p,
    v = .package p ∧ serialize codec messageName sprotoObj session = some p ∧ p.length ≤ 65535
  silent : apiReply codec oracle m fd msg ∈ [none, some .nil, some (.bool false)] →
    (dispatch codec oracle m fd msg).written = none

end Message

section Encode

variable (stringToInteger : Bytes → Option (BitVec 64))

/-- a string field as sproto's encoder takes it: nil is left out, and `lua_tolstring` converts numbers -/
def textField : Option Value → Option (Option Bytes)
  | none => some none
  | v => (concatArg v).map some

/-- an integer field: nil is left out, and `lua_tointegerx` converts floats of the range and strings that are numerals -/
def integerField : Option Value → Option (Option (BitVec 64))
  | none => some none
  | some (.int n) => some (some (BitVec.ofInt 64 n))
  | some (.float n) => if -2 ^ 63 ≤ n ∧ n < 2 ^ 63 then some (some (BitVec.ofInt 64 n)) else none
  | some (.str s) => (stringToInteger s).map some
  | some _ => none

/-- `s2cSp:encode` of a login response, `none` if it raises -/
def encodeResponse (t : Table) : Option Bytes := do
  let userId ← textField (get t (ascii "user_id"))
  let energy ← integerField stringToInteger (get t (ascii "energy"))
  (Sproto.encoded Sproto.plainLua Schemes.server2Client Schemes.loginResponse (responseTable userId energy)).toOption

/-- the codec with the server's scheme; a login response is all that is serialized -/
def sprotoCodec (unpack : Bytes → Option Table) : Codec where
  encode messageName t := if messageName = SprotoNames.LoginResponse then encodeResponse stringToInteger t else none
  unpack := unpack

/-- the user_id and the energy of a response are left out or are converted, and take at most 65516 bytes -/
def ResponseFits (response : Obj) : Prop :=
  ∃ userId energy, textField (response.index (ascii "user_id")) = some userId ∧
    integerField stringToInteger (response.index (ascii "energy")) = some energy ∧ responseSize userId energy ≤ 65516

/-- a message of type ChangeEvent: a login whose response fits, or another message with the next session of its
connection -/
def Served (unpack : Bytes → Option Table) (oracle : Oracle) (m : SessionMap) (fd : Fd) (msg : ClientMsg) : Prop :=
  msg.messageType = MessageRequestType.ChangeEvent ∧
    ((msg.messageName = SprotoNames.LoginRequest ∧
        ∃ response, Builds (sprotoCodec stringToInteger unpack) oracle msg.sproto response ∧
          ResponseFits stringToInteger response) ∨
      (msg.messageName ≠ SprotoNames.LoginRequest ∧ ∃ v, m fd = some v ∧ msg.clientSession.toInt = v.toInt + 1))

end Encode

/-! ## The replies of owlies_api -/

section Message

variable (codec : Codec) (oracle : Oracle) (m : SessionMap) (fd : Fd) (msg : ClientMsg)

theorem length_loginPackage (code : Bytes) :
    (packMessage SprotoNames.LoginResponse 100 code).length = 19 + code.length := by
  have hname : (SprotoNames.LoginResponse.takeWhile (· ≠ 0#8)).length = 13 := by decide
  simp only [packMessage, be32, be16, List.length_append, List.length_cons, List.length_nil, hname]

/-- the reply to a message of the type ChangeEvent -/
theorem apiReply_changeEvent (h : msg.messageType = MessageRequestType.ChangeEvent) :
    apiReply codec oracle m fd msg = outcome codec oracle m
      ⟨.receivedApiCall, fd, msg.clientSession, msg.messageType, msg.messageName, msg.sproto⟩ := by
  rw [apiReply, command, if_pos h, Option.bind_some]

/-- every other message is refused, raises, or is answered with true -/
theorem apiReply_other (h : msg.messageType ≠ MessageRequestType.ChangeEvent) :
    apiReply codec oracle m fd msg = none ∨ ∃ b, apiReply codec oracle m fd msg = some (.bool b) := by
  rw [apiReply, command, if_neg h]
  by_cases hc : msg.messageType = MessageRequestType.ApiCall
  · rw [if_pos hc, Option.bind_some, outcome, handle, receivedChangeEvent]
    rcases admission m _ with _ | ⟨answer, m'⟩
    · exact .inl rfl
    · exact .inr ⟨answer, rfl⟩
  · rw [if_neg hc]
    exact .inl rfl

/-! ## The dispatch -/

variable {codec oracle m fd msg}

theorem not_onlyPackages_of_bool {b : Bool} (h : apiReply codec oracle m fd msg = some (.bool b)) :
    ¬ OnlyPackages codec oracle m fd msg := by
  intro hp
  have hc := hp.completes
  rw [dispatch, h] at hc
  cases hc

theorem not_onlyPackages_of_none (h : apiReply codec oracle m fd msg = none) : ¬ OnlyPackages codec oracle m fd msg := by
  intro hp
  have hc := hp.completes
  rw [dispatch, h] at hc
  cases hc

theorem onlyPackages_of_nil (h : apiReply codec oracle m fd msg = some .nil) : OnlyPackages codec oracle m fd msg := by
  refine ⟨by rw [dispatch, h]; rfl, ?_, fun _ => by rw [dispatch, h]; rfl⟩
  intro v hv
  rw [dispatch, h] at hv
  cases hv

/-- a package is passed on well exactly if its length fits into two bytes -/
theorem onlyPackages_package {p messageName : Bytes} {sprotoObj : Table} {session : BitVec 32}
    (h : apiReply codec oracle m fd msg = some (.package p))
    (hs : serialize codec messageName sprotoObj session = some p) :
    OnlyPackages codec oracle m fd msg ↔ p.length ≤ 65535 := by
  apply Iff.intro
  · intro hp
    have hc := hp.completes
    rw [dispatch, h, finish, sendPackage] at hc
    split_ifs at hc with hlen
    omega
  · intro hlen
    have hd : dispatch codec oracle m fd msg =
        ⟨some (.package p), some (be16 (BitVec.ofNat 16 p.length) ++ p), .completes⟩ := by
      rw [dispatch, h, finish, sendPackage, if_pos (by omega)]
    refine ⟨by rw [hd], ?_, fun hnone => by simp [h] at hnone⟩
    intro v hv
    rw [hd] at hv
    exact ⟨messageName, sprotoObj, session, p, (Option.some.inj hv).symm, hs, hlen⟩

theorem onlyPackages_login (ht : msg.messageType = MessageRequestType.ChangeEvent)
    (hn : msg.messageName = SprotoNames.LoginRequest) :
    OnlyPackages codec oracle m fd msg ↔ ∃ response, Builds codec oracle msg.sproto response ∧
      ∃ code, codec.encode SprotoNames.LoginResponse (toSproto response) = some code ∧ code.length ≤ 65516 := by
  have hreply : apiReply codec oracle m fd msg =
      ((processApiCall codec msg.sproto SprotoNames.LoginRequest).exec oracle 0).map Prod.fst := by
    rw [apiReply_changeEvent codec oracle m fd msg ht, outcome_login codec oracle m _ ⟨rfl, hn⟩]
  -- the package of a response that is built and encoded
  have hpackage {response : Obj} {code : Bytes} (hb : Builds codec oracle msg.sproto response)
      (hcode : codec.encode SprotoNames.LoginResponse (toSproto response) = some code) :
      OnlyPackages codec oracle m fd msg ↔ code.length ≤ 65516 := by
    have hsome := hreply.trans ((exec_login_iff codec oracle msg.sproto _).2 ⟨response, code, hb, hcode, rfl⟩)
    have hserialize : serialize codec SprotoNames.LoginResponse (toSproto response) 100 =
        some (packMessage SprotoNames.LoginResponse 100 code) := by rw [serialize, hcode, Option.map_some]
    rw [onlyPackages_package hsome hserialize, length_loginPackage]
    omega
  apply Iff.intro
  · intro hp
    cases hr : apiReply codec oracle m fd msg with
    | none => exact absurd hp (not_onlyPackages_of_none hr)
    | some r =>
      obtain ⟨response, code, hb, hcode, -⟩ := (exec_login_iff codec oracle msg.sproto r).1 (hreply.symm.trans hr)
      exact ⟨response, hb, code, hcode, (hpackage hb hcode).1 hp⟩
  · rintro ⟨response, hb, code, hcode, hlen⟩
    exact (hpackage hb hcode).2 hlen

theorem onlyPackages_message (ht : msg.messageType = MessageRequestType.ChangeEvent)
    (hn : msg.messageName ≠ SprotoNames.LoginRequest) :
    OnlyPackages codec oracle m fd msg ↔ ∃ v, m fd = some v ∧ msg.clientSession.toInt = v.toInt + 1 := by
  have hreply := apiReply_changeEvent codec oracle m fd msg ht
  rcases handle_cases codec m ⟨.receivedApiCall, fd, msg.clientSession, msg.messageType, msg.messageName, msg.sproto⟩
    with ⟨hl, -⟩ | ⟨-, hm, hh⟩ | ⟨-, ⟨v, hm, hs⟩, hh⟩ | ⟨hl, ⟨v, hm, hs⟩, -⟩
  · exact absurd hl.2 hn
  · rw [outcome, hh] at hreply
    refine iff_of_false (not_onlyPackages_of_none hreply) ?_
    rintro ⟨v, hv, -⟩
    rw [show m fd = none from hm] at hv
    cases hv
  · rw [outcome, hh] at hreply
    refine iff_of_false (not_onlyPackages_of_bool hreply) ?_
    rintro ⟨w, hw, hnext⟩
    rw [show m fd = some v from hm] at hw
    exact hs (Option.some.inj hw ▸ hnext)
  · -- an accepted message that is no login has the reply nil
    have hadmitted := admission_next m _ v hl hm hs
    have hnil : apiReply codec oracle m fd msg = some .nil := by
      simp [hreply, outcome, handle, receivedApiCall, hadmitted, processApiCall, hn]
    exact iff_of_true (onlyPackages_of_nil hnil) ⟨v, hm, hs⟩

end Message

/-! ## The encoded response -/

theorem get_toSproto (o : Obj) {k : Bytes} (hclass : k ≠ ascii "class") (hcolumns : k ≠ ascii "columns") :
    get (toSproto o) k = o.index k := by
  have hfilter := get_filter (fun k => decide (k ≠ ascii "class" ∧ k ≠ ascii "columns")) o.entries k
  rw [if_pos (by simp [hclass, hcolumns])] at hfilter
  exact hfilter

/-- the encoder does not raise, and its bytes are few enough, exactly if the response fits -/
theorem encodeResponse_iff (stringToInteger : Bytes → Option (BitVec 64)) (response : Obj) :
    (∃ code, encodeResponse stringToInteger (toSproto response) = some code ∧ code.length ≤ 65516) ↔
      ResponseFits stringToInteger response := by
  have hid := get_toSproto response (show ascii "user_id" ≠ ascii "class" by decide) (by decide)
  have henergy := get_toSproto response (show ascii "energy" ≠ ascii "class" by decide) (by decide)
  apply Iff.intro
  · rintro ⟨code, hcode, hlen⟩
    obtain ⟨userId, huser, hcode⟩ := Option.bind_eq_some_iff.1 hcode
    obtain ⟨energy, hvalue, hcode⟩ := Option.bind_eq_some_iff.1 hcode
    have hencoded := eq_ok_of_toOption hcode
    rw [Sproto.length_encoded_response hencoded] at hlen
    exact ⟨userId, energy, hid ▸ huser, henergy ▸ hvalue, hlen⟩
  · rintro ⟨userId, energy, huser, hvalue, hsize⟩
    have hneed := (Sproto.need_le_of_responseSize hsize).trans (show 65516 + 20 ≤ Sproto.largestBuffer by decide)
    obtain ⟨code, hcode, hlen, -⟩ := Sproto.encodes_response Sproto.plainLua userId energy hneed
    refine ⟨code, ?_, hlen.trans_le hsize⟩
    simp only [encodeResponse, hid, henergy, huser, hvalue, hcode, Option.bind_eq_bind, Option.bind_some]
    rfl

/-- **When the agent only sends packages.** For every state of the session map, every client message and all replies of
the services: the dispatch completes and passes on only packages that fit exactly if the message is served. -/
theorem only_packages_iff (stringToInteger : Bytes → Option (BitVec 64)) (unpack : Bytes → Option Table) (oracle : Oracle)
    (m : SessionMap) (fd : Fd) (msg : ClientMsg) :
    OnlyPackages (sprotoCodec stringToInteger unpack) oracle m fd msg ↔
      Served stringToInteger unpack oracle m fd msg := by
  by_cases ht : msg.messageType = MessageRequestType.ChangeEvent
  · by_cases hn : msg.messageName = SprotoNames.LoginRequest
    · rw [onlyPackages_login ht hn]
      simp only [sprotoCodec, if_true, encodeResponse_iff]
      simp [Served, ht, hn, sprotoCodec]
    · rw [onlyPackages_message ht hn]
      simp [Served, ht, hn]
  · refine iff_of_false ?_ fun h => ht h.1
    rcases apiReply_other (sprotoCodec stringToInteger unpack) oracle m fd msg ht with hnone | ⟨b, hb⟩
    · exact not_onlyPackages_of_none hnone
    · exact not_onlyPackages_of_bool hb

/-- **The dispatch is that of the server.** When the reply to a request comes back, the agent's coroutine writes the
package that `finish` passes on, and nothing else. -/
theorem resume_written (s : St) (a : AgentId) (r : ReqId) (fd : Fd) (res : Option Result)
    (hb : s.blocked.find? (fun c => c.req = r ∧ c.agent = a) = some ⟨r, a, .calling⟩) (hfd : s.net.clientFd a = some fd) :
    (resume s a r res).written = s.written ++
      match (finish res).passed, (finish res).written with
      | some (.package p), some _ => [⟨a, fd, r, p⟩]
      | _, _ => [] := by
  rw [resume, hb]
  rcases res with _ | _ | b | p
  · simp [finish, request, unblock]
  · simp [finish, unblock]
  · simp [finish, unblock]
  · simp only [finish, unblock, write, hfd]
    cases sendPackage p <;> simp

/-- the next message of a connection, sent as a ChangeEvent -/
def nextMessage : ClientMsg := ⟨[], 2, MessageRequestType.ChangeEvent, ascii "Move"⟩

/-- the same message as an ApiCall -/
def nextApiCall : ClientMsg := { nextMessage with messageType := MessageRequestType.ApiCall }

/-- no string is a numeral, and nothing is cached -/
def plainCodec : Codec := sprotoCodec (fun _ => none) fun _ => none

/-- fd 4 is logged in with session 1 -/
def loggedIn : SessionMap := fun fd => if fd = 4 then some 1 else none

/-- **Booleans reach string.pack, and rejected messages too.** An accepted ApiCall raises on its reply true, a message
with a wrong session on its reply false, and one with an unknown type or from a stranger leaves the dispatch blocked. -/
theorem booleans_sent :
    dispatch plainCodec newUser loggedIn 4 nextApiCall = ⟨some (.bool true), none, .raises⟩ ∧
      dispatch plainCodec newUser loggedIn 4 { nextMessage with clientSession := 9 } = ⟨some (.bool false), none, .raises⟩ ∧
      dispatch plainCodec newUser loggedIn 4 { nextMessage with messageType := 3 } = ⟨none, none, .blocked⟩ ∧
      dispatch plainCodec newUser loggedIn 5 nextMessage = ⟨none, none, .blocked⟩ ∧
      ¬ OnlyPackages plainCodec newUser loggedIn 4 nextApiCall := by
  have hd : dispatch plainCodec newUser loggedIn 4 nextApiCall = ⟨some (.bool true), none, .raises⟩ := by decide
  refine ⟨hd, by decide, by decide, by decide, ?_⟩
  intro h
  have hc := h.completes
  rw [hd] at hc
  cases hc

end OwliesServer.Server
