/-
The handlers of owlies_api (Script/Service/owlies_api.lua). `receivedApiCall` and `receivedChangeEvent` do their
session part first, without yielding (`Sessions.admission`); a login then goes on with `processApiCall`, which calls
MySQL and Redis three to five times and may raise behind any of them. `handle` gives the map right after the first
part and what is left to do; nothing in the rest touches the map.

- `exec_processApiCall`: the result of a login for given replies.
- `LoginOk`: what the message and the replies must be for a login to complete (`login_outcome`).
- `failed_calls_leave_map_iff`: a failed call leaves the map alone, and a refused one answers false, exactly for
  connections with an entry and for logins that complete or repeat the entry; in runs of such calls only completed
  logins make entries.
-/
import OwliesServer.Api.Sessions
import OwliesServer.Data.LoginObjects
import OwliesServer.Wire.ServerPackage

namespace OwliesServer.Handlers

open OwliesServer.CChar OwliesServer.LuaTable OwliesServer.ObjectBase OwliesServer.Sessions OwliesServer.ServerPackage
open OwliesServer.Machine

/-! ## Model -/

/-- the first value a handler returns -/
inductive Result where
  | nil
  | bool (b : Bool)
  | package (p : Bytes)
deriving DecidableEq, Repr

/-- `serialize` -/
def serialize (codec : Codec) (messageName : Bytes) (sprotoObj : Table) (serverSession : BitVec 32) : Option Bytes :=
  (codec.encode messageName sprotoObj).map (packMessage messageName serverSession)

/-- `processApiCall`; the outcome of the upsert is not looked at, and the session in the header is a constant -/
def processApiCall (codec : Codec) (sproto : Table) (sprotoType : Bytes) : ObjectBase.Proc Result :=
  if sprotoType = SprotoNames.LoginRequest then do
    let objb ← newLoginRequestObject sproto
    let _ ← insertOnDuplicate objb
    let response ← newLoginResponseObject codec (objb.index (ascii "user_id"))
    let result ← OwliesServer.Proc.ofOption (serialize codec SprotoNames.LoginResponse (toSproto response) 100)
    pure (.package result)
  else pure .nil

/-- `CMD.receivedApiCall`: the map after its first part, and the rest -/
def receivedApiCall (codec : Codec) (m : SessionMap) (c : Call) : SessionMap × ObjectBase.Proc Result :=
  match admission m c with
  | none => (m, .raise)
  | some (false, m') => (m', .ret (.bool false))
  | some (true, m') => (m', processApiCall codec c.sproto c.sprotoName)

/-- `CMD.receivedChangeEvent` -/
def receivedChangeEvent (m : SessionMap) (c : Call) : SessionMap × ObjectBase.Proc Result :=
  match admission m c with
  | none => (m, .raise)
  | some (answer, m') => (m', .ret (.bool answer))

def handle (codec : Codec) (m : SessionMap) (c : Call) : SessionMap × ObjectBase.Proc Result :=
  match c.cmd with
  | .receivedApiCall => receivedApiCall codec m c
  | .receivedChangeEvent => receivedChangeEvent m c

/-- the map afterwards is that of the session rule -/
theorem handle_map (codec : Codec) (m : SessionMap) (c : Call) : (handle codec m c).1 = Sessions.step m c := by
  unfold handle receivedApiCall receivedChangeEvent Sessions.step
  rcases admission m c with _ | ⟨_ | _, m'⟩ <;> cases c.cmd <;> rfl

/-- everything a handler can be, by the outcome of its session part -/
theorem handle_cases (codec : Codec) (m : SessionMap) (c : Call) :
    (c.IsLogin ∧ handle codec m c =
      (Function.update m c.clientFd (some c.clientSession), processApiCall codec c.sproto SprotoNames.LoginRequest)) ∨
    (¬ c.IsLogin ∧ m c.clientFd = none ∧ handle codec m c = (m, .raise)) ∨
    (¬ c.IsLogin ∧ (∃ v, m c.clientFd = some v ∧ c.clientSession.toInt ≠ v.toInt + 1) ∧
      handle codec m c = (m, .ret (.bool false))) ∨
    (¬ c.IsLogin ∧ (∃ v, m c.clientFd = some v ∧ c.clientSession.toInt = v.toInt + 1) ∧
      ∃ r, (r = .nil ∨ r = .bool true) ∧
        handle codec m c = (Function.update m c.clientFd (some c.clientSession), .ret r)) := by
  by_cases hl : c.IsLogin
  · refine Or.inl ⟨hl, ?_⟩
    simp [handle, receivedApiCall, hl.1, admission_login m c hl, hl.2]
  · refine Or.inr ?_
    cases hm : m c.clientFd with
    | none =>
      refine Or.inl ⟨hl, rfl, ?_⟩
      cases hc : c.cmd <;> simp [handle, receivedApiCall, receivedChangeEvent, hc, admission_unknown m c hl hm]
    | some v =>
      refine Or.inr ?_
      by_cases hs : c.clientSession.toInt = v.toInt + 1
      · refine Or.inr ⟨hl, ⟨v, rfl, hs⟩, ?_⟩
        cases hc : c.cmd with
        | receivedApiCall =>
          have hname : c.sprotoName ≠ SprotoNames.LoginRequest := fun h => hl ⟨hc, h⟩
          exact ⟨.nil, Or.inl rfl, by
            simp [handle, receivedApiCall, hc, admission_next m c v hl hm hs, processApiCall, hname]; rfl⟩
        | receivedChangeEvent =>
          exact ⟨.bool true, Or.inr rfl, by simp [handle, receivedChangeEvent, hc, admission_next m c v hl hm hs]⟩
      · refine Or.inl ⟨hl, ⟨v, rfl, hs⟩, ?_⟩
        cases hc : c.cmd <;> simp [handle, receivedApiCall, receivedChangeEvent, hc, admission_mismatch m c v hl hm hs]

/-- whatever the replies, a package that a handler returns has session 100 in its header -/
theorem handle_header (codec : Codec) (m : SessionMap) (c : Call) :
    (handle codec m c).2.Returns fun res => ∀ p, res = .package p → headerSession p = some 100 := by
  rcases handle_cases codec m c with ⟨-, hh⟩ | ⟨-, -, hh⟩ | ⟨-, -, hh⟩ | ⟨-, -, r, hr, hh⟩
  · rw [hh, processApiCall, if_pos rfl]
    refine Proc.returns_bind _ _ _ fun objb => ?_
    refine Proc.returns_bind _ _ _ fun _ => ?_
    refine Proc.returns_bind _ _ _ fun response => ?_
    refine Proc.returns_ofOption_bind _ _ _ fun result hresult p hp => ?_
    obtain ⟨buf, -, hbuf⟩ := Option.map_eq_some_iff.1 hresult
    cases hp
    rw [← hbuf]
    exact headerSession_packMessage _ _ _
  · rw [hh]; trivial
  · rw [hh]; intro p hp; cases hp
  · rw [hh]; intro p hp
    rcases hr with rfl | rfl <;> cases hp

/-! ## When a login completes -/

section Login

variable (codec : Codec) (oracle : ℕ → (q : Request) → Reply q) (sproto : Table)

/-- the response object a login builds with the replies of the services. Both SHOW COLUMNS answer with rows; the message
gives every column of user_login, and the user_id, a value that concatenates; the cached JSON decodes, or without a hit the
lookup is answered with at most one row. -/
def Builds (response : Obj) : Prop :=
  ∃ columns energyColumns userId values, columnsAt oracle 0 (ascii "user_login") = some columns ∧
    (∃ listed, (loginObject columns sproto).columns = some listed ∧
      ∀ c ∈ listed, (concatArg ((loginObject columns sproto).index c)).isSome) ∧
    columnsAt oracle 2 (ascii "user_energy") = some energyColumns ∧
    concatArg ((loginObject columns sproto).index (ascii "user_id")) = some userId ∧
    loadedValues codec (redisAt oracle 3 (energyKey userId)) (dbAt oracle 4 (energySql userId)) = some values ∧
    response = responseObject energyColumns ((loginObject columns sproto).index (ascii "user_id")) values

/-- the message and the replies let a login complete: a response object is built, and it encodes -/
def LoginOk : Prop :=
  ∃ response, Builds codec oracle sproto response ∧ (codec.encode SprotoNames.LoginResponse (toSproto response)).isSome

theorem exec_processApiCall :
    ((processApiCall codec sproto SprotoNames.LoginRequest).exec oracle 0).map Prod.fst =
      (columnsAt oracle 0 (ascii "user_login")).bind fun columns =>
        ((loginObject columns sproto).columns.bind fun listed =>
          insertSql (ascii "user_login") listed [ascii "user_id"] (loginObject columns sproto).index).bind fun _ =>
        (columnsAt oracle 2 (ascii "user_energy")).bind fun energyColumns =>
        (concatArg ((loginObject columns sproto).index (ascii "user_id"))).bind fun userId =>
        (loadedValues codec (redisAt oracle 3 (energyKey userId)) (dbAt oracle 4 (energySql userId))).bind fun values =>
        (serialize codec SprotoNames.LoginResponse (toSproto (responseObject energyColumns
          ((loginObject columns sproto).index (ascii "user_id")) values)) 100).map Result.package := by
  rw [processApiCall, if_pos rfl, Proc.exec_bind, exec_newLoginRequestObject]
  cases columnsAt oracle 0 (ascii "user_login") with
  | none => rfl
  | some columns =>
    simp only [Option.map_some, Option.bind_some, Proc.exec_bind]
    rw [exec_insertOnDuplicate oracle _ (ascii "user_login") rfl,
      show (loginObject columns sproto).cls.primaryKeys = [ascii "user_id"] from rfl]
    cases (loginObject columns sproto).columns.bind fun listed =>
        insertSql (ascii "user_login") listed [ascii "user_id"] (loginObject columns sproto).index with
    | none => rfl
    | some sql =>
      have hresponse := exec_newLoginResponseObject oracle codec ((loginObject columns sproto).index (ascii "user_id")) 2
      -- past the response object only its value matters, not the number of calls
      have htail : ∀ o : Option (Obj × ℕ), (o.bind fun a =>
          ((OwliesServer.Proc.ofOption (serialize codec SprotoNames.LoginResponse (toSproto a.1) 100) :
            ObjectBase.Proc Bytes).exec oracle a.2).bind fun r =>
              (pure (Result.package r.1) : ObjectBase.Proc Result).exec oracle r.2).map Prod.fst =
          (o.map Prod.fst).bind fun response =>
            (serialize codec SprotoNames.LoginResponse (toSproto response) 100).map Result.package := by
        rintro (_ | ⟨response, n⟩)
        · rfl
        · simp only [Option.map_some, Option.bind_some, Proc.exec_ofOption]
          cases serialize codec SprotoNames.LoginResponse (toSproto response) 100 <;> rfl
      simp only [Option.map_some, Option.bind_some, htail, hresponse]
      cases columnsAt oracle 2 (ascii "user_energy") with
      | none => rfl
      | some energyColumns =>
        cases concatArg ((loginObject columns sproto).index (ascii "user_id")) with
        | none => rfl
        | some userId =>
          simp only [Option.bind_some]
          cases loadedValues codec (redisAt oracle 3 (energyKey userId)) (dbAt oracle 4 (energySql userId)) <;> rfl

/-- a login returns the package around the encoded response, or raises -/
theorem exec_login_iff (r : Result) :
    ((processApiCall codec sproto SprotoNames.LoginRequest).exec oracle 0).map Prod.fst = some r ↔
      ∃ response code, Builds codec oracle sproto response ∧
        codec.encode SprotoNames.LoginResponse (toSproto response) = some code ∧
        r = .package (packMessage SprotoNames.LoginResponse 100 code) := by
  rw [exec_processApiCall]
  apply Iff.intro
  · intro h
    obtain ⟨columns, hcolumns, h⟩ := Option.bind_eq_some_iff.1 h
    obtain ⟨sql, hsql, h⟩ := Option.bind_eq_some_iff.1 h
    obtain ⟨listed, hlisted, hsql⟩ := Option.bind_eq_some_iff.1 hsql
    obtain ⟨energyColumns, henergy, h⟩ := Option.bind_eq_some_iff.1 h
    obtain ⟨userId, huser, h⟩ := Option.bind_eq_some_iff.1 h
    obtain ⟨values, hvalues, h⟩ := Option.bind_eq_some_iff.1 h
    obtain ⟨package, hpackage, rfl⟩ := Option.map_eq_some_iff.1 h
    obtain ⟨code, hcode, rfl⟩ := Option.map_eq_some_iff.1 hpackage
    have hall := (insertSql_isSome _ _ _ _).1 (by rw [hsql]; rfl)
    exact ⟨_, code, ⟨columns, energyColumns, userId, values, hcolumns, ⟨listed, hlisted, hall⟩, henergy, huser, hvalues, rfl⟩,
      hcode, rfl⟩
  · rintro ⟨response, code, ⟨columns, energyColumns, userId, values, hcolumns, ⟨listed, hlisted, hall⟩, henergy, huser,
      hvalues, rfl⟩, hcode, rfl⟩
    have hsome :=
      (insertSql_isSome (ascii "user_login") listed [ascii "user_id"] (loginObject columns sproto).index).2 hall
    obtain ⟨sql, hsql⟩ := Option.isSome_iff_exists.1 hsome
    simp only [hcolumns, hlisted, hsql, henergy, huser, hvalues, serialize, hcode, Option.bind_some, Option.map_some]

theorem login_ok (h : LoginOk codec oracle sproto) :
    ∃ p, ((processApiCall codec sproto SprotoNames.LoginRequest).exec oracle 0).map Prod.fst = some (.package p) := by
  obtain ⟨response, hbuilds, hcode⟩ := h
  obtain ⟨code, hcode⟩ := Option.isSome_iff_exists.1 hcode
  exact ⟨_, (exec_login_iff codec oracle sproto _).2 ⟨response, code, hbuilds, hcode, rfl⟩⟩

theorem login_returned (r : Result)
    (h : ((processApiCall codec sproto SprotoNames.LoginRequest).exec oracle 0).map Prod.fst = some r) :
    LoginOk codec oracle sproto := by
  obtain ⟨response, code, hbuilds, hcode, -⟩ := (exec_login_iff codec oracle sproto r).1 h
  exact ⟨response, hbuilds, by simp [hcode]⟩

/-- a login completes with a package, or raises -/
theorem login_outcome :
    (LoginOk codec oracle sproto ∧
      ∃ p, ((processApiCall codec sproto SprotoNames.LoginRequest).exec oracle 0).map Prod.fst = some (.package p)) ∨
    (¬ LoginOk codec oracle sproto ∧
      ((processApiCall codec sproto SprotoNames.LoginRequest).exec oracle 0).map Prod.fst = none) := by
  by_cases h : LoginOk codec oracle sproto
  · exact Or.inl ⟨h, login_ok codec oracle sproto h⟩
  · refine Or.inr ⟨h, ?_⟩
    by_contra hne
    obtain ⟨r, hr⟩ := Option.ne_none_iff_exists'.1 hne
    exact h (login_returned codec oracle sproto r hr)

end Login

/-! ## Failed calls and the map -/

/-- replies of the services for one call -/
abbrev Oracle := ℕ → (q : Request) → Reply q

/-- what a call returns with the given replies, `none` if it raises -/
def outcome (codec : Codec) (oracle : Oracle) (m : SessionMap) (c : Call) : Option Result :=
  ((handle codec m c).2.exec oracle 0).map Prod.fst

/-- a login gets past the session check -/
theorem outcome_login (codec : Codec) (oracle : Oracle) (m : SessionMap) (c : Call) (hc : c.IsLogin) :
    outcome codec oracle m c =
      ((processApiCall codec c.sproto SprotoNames.LoginRequest).exec oracle 0).map Prod.fst := by
  rcases handle_cases codec m c with ⟨-, hh⟩ | ⟨hl, -⟩ | ⟨hl, -⟩ | ⟨hl, -⟩
  · rw [outcome, hh]
  all_goals exact absurd hc hl

/-- The call fails safely: if it raises or returns false the map is as before, and if it is no login and its session is
not the next one of its connection it returns false. -/
structure FailsSafely (codec : Codec) (oracle : Oracle) (m : SessionMap) (c : Call) : Prop where
  unchanged : outcome codec oracle m c = none ∨ outcome codec oracle m c = some (.bool false) → (handle codec m c).1 = m
  reported : ¬ c.IsLogin → (∀ v, m c.clientFd = some v → c.clientSession.toInt ≠ v.toInt + 1) →
    outcome codec oracle m c = some (.bool false)

/-- a login that can complete or repeats the entry; any other call on a connection with an entry -/
def SafeCall (codec : Codec) (oracle : Oracle) (m : SessionMap) (c : Call) : Prop :=
  (c.IsLogin → LoginOk codec oracle c.sproto ∨ m c.clientFd = some c.clientSession) ∧
    (¬ c.IsLogin → m c.clientFd ≠ none)

theorem failsSafely_iff (codec : Codec) (oracle : Oracle) (m : SessionMap) (c : Call) :
    FailsSafely codec oracle m c ↔ SafeCall codec oracle m c := by
  rcases handle_cases codec m c with ⟨hl, hh⟩ | ⟨hl, hm, hh⟩ | ⟨hl, ⟨v, hm, hs⟩, hh⟩ | ⟨hl, ⟨v, hm, hs⟩, r, hr, hh⟩
  · -- a login: the entry is written whatever happens later
    rcases login_outcome codec oracle c.sproto with ⟨hok, p, hp⟩ | ⟨hok, hp⟩
    · refine ⟨fun _ => ⟨fun _ => Or.inl hok, fun h => absurd hl h⟩, fun _ => ⟨fun h => ?_, fun h => absurd hl h⟩⟩
      rw [outcome, hh, hp] at h
      simp at h
    · constructor
      · intro h
        have hmap := h.unchanged (Or.inl (by rw [outcome, hh, hp]))
        refine ⟨fun _ => Or.inr ?_, fun h => absurd hl h⟩
        rw [← hmap, hh]; simp
      · intro h
        have hm := (h.1 hl).resolve_left hok
        refine ⟨fun _ => ?_, fun h => absurd hl h⟩
        rw [hh, ← hm]; simp
  · -- an unknown connection: the call raises
    refine ⟨fun h => ?_, fun h => absurd hm (h.2 hl)⟩
    have := h.reported hl (by simp [hm])
    rw [outcome, hh] at this
    simp at this
  · refine ⟨fun _ => ⟨fun h => absurd h hl, fun _ => by simp [hm]⟩, fun _ => ⟨fun _ => by rw [hh], fun _ _ => ?_⟩⟩
    rw [outcome, hh]; rfl
  · refine ⟨fun _ => ⟨fun h => absurd h hl, fun _ => by simp [hm]⟩,
      fun _ => ⟨fun h => ?_, fun _ h => absurd hs (h v hm)⟩⟩
    rw [outcome, hh] at h
    rcases hr with rfl | rfl <;> simp at h

/-- a call together with the replies it will get -/
def step (codec : Codec) (m : SessionMap) (x : Call × Oracle) : SessionMap := (handle codec m x.1).1

/-- a login of `fd` that is processed to completion -/
def CompletedLogin (codec : Codec) (fd : Fd) (x : Call × Oracle) : Prop :=
  x.1.IsLogin ∧ x.1.clientFd = fd ∧
    ∃ p, ((processApiCall codec x.1.sproto x.1.sprotoName).exec x.2 0).map Prod.fst = some (.package p)

/-- one safe call: a new entry comes from a completed login -/
theorem step_entry (codec : Codec) (m : SessionMap) (x : Call × Oracle) (fd : Fd) (hx : SafeCall codec x.2 m x.1)
    (h : step codec m x fd ≠ none) : m fd ≠ none ∨ CompletedLogin codec fd x := by
  rw [step, handle_map] at h
  by_cases hfd : x.1.clientFd = fd
  · by_cases hl : x.1.IsLogin
    · rcases hx.1 hl with hok | hm
      · refine Or.inr ⟨hl, hfd, ?_⟩
        rw [hl.2]
        exact login_ok codec x.2 x.1.sproto hok
      · exact Or.inl (by rw [← hfd, hm]; simp)
    · exact Or.inl (hfd ▸ hx.2 hl)
  · exact Or.inl (by rwa [step_other m x.1 fd hfd] at h)

theorem run_entry (codec : Codec) (m : SessionMap) (xs : List (Call × Oracle)) (fd : Fd)
    (hg : Guarded (step codec) (fun m x => SafeCall codec x.2 m x.1) m xs) (h : run (step codec) m xs fd ≠ none) :
    m fd ≠ none ∨ ∃ x ∈ xs, CompletedLogin codec fd x := by
  induction xs generalizing m with
  | nil => exact Or.inl h
  | cons x xs ih =>
    rcases ih _ hg.2 h with hm | ⟨y, hy, hc⟩
    · rcases step_entry codec m x fd hg.1 hm with hm | hc
      · exact Or.inl hm
      · exact Or.inr ⟨x, List.mem_cons_self, hc⟩
    · exact Or.inr ⟨y, List.mem_cons_of_mem _ hy, hc⟩

/-- **Failed calls and the map.** A call fails safely exactly when it is safe; and after any run of safe calls from the
empty map, a connection has an entry only if one of its logins was processed to completion. -/
theorem failed_calls_leave_map_iff (codec : Codec) :
    (∀ oracle m c, FailsSafely codec oracle m c ↔ SafeCall codec oracle m c) ∧
      ∀ xs fd, Guarded (step codec) (fun m x => SafeCall codec x.2 m x.1) noSessions xs →
        run (step codec) noSessions xs fd ≠ none → ∃ x ∈ xs, CompletedLogin codec fd x := by
  refine ⟨failsSafely_iff codec, fun xs fd hg h => ?_⟩
  rcases run_entry codec noSessions xs fd hg h with hm | hx
  · exact absurd rfl hm
  · exact hx

/-- a codec that never raises -/
def lenient : Codec := ⟨fun _ _ => some [], fun _ => some []⟩

def firstLogin : Call := ⟨.receivedApiCall, 4, 1, 1, SprotoNames.LoginRequest, [(ascii "user_id", .str (ascii "7"))]⟩

def changeEvent : Call := ⟨.receivedChangeEvent, 4, 2, 2, ascii "Move", []⟩

/-- both tables have the one column user_id; the cache misses and the user has no energy yet -/
def newUser : Oracle
  | 1, .query _ => DbReply.executed
  | 4, .query _ => DbReply.rows []
  | _, .query _ => DbReply.rows [[(ascii "Field", .str (ascii "user_id"))]]
  | _, .redisGet _ => RedisReply.value none
  | _, .redisSet _ _ => true

/-- MySQL and Redis are down -/
def allDown : Oracle
  | _, .query _ => DbReply.failed
  | _, .redisGet _ => RedisReply.failed
  | _, .redisSet _ _ => false

theorem failed_calls_sample :
    Guarded (step lenient) (fun m x => SafeCall lenient x.2 m x.1) noSessions
        [(firstLogin, newUser), (changeEvent, allDown)] ∧
      ∃ x ∈ [(firstLogin, newUser), (changeEvent, allDown)], CompletedLogin lenient 4 x := by
  have hlogin : LoginOk lenient newUser firstLogin.sproto := by
    refine login_returned lenient newUser _ (.package (packMessage SprotoNames.LoginResponse 100 [])) ?_
    decide
  have hg : Guarded (step lenient) (fun m x => SafeCall lenient x.2 m x.1) noSessions
      [(firstLogin, newUser), (changeEvent, allDown)] := by
    refine ⟨⟨fun _ => Or.inl hlogin, fun h => absurd ⟨rfl, rfl⟩ h⟩, ⟨fun h => ?_, fun _ => ?_⟩, trivial⟩
    · exact absurd h.1 (by decide)
    · decide
  exact ⟨hg, (failed_calls_leave_map_iff lenient).2 _ 4 hg (by decide)⟩

/-- **A failed login stays logged in, and a stranger is not answered.** With the database down the login raises, but its
session is in the map; and a first message that is no login raises where it should be refused. -/
theorem failed_login_keeps_entry :
    outcome lenient allDown noSessions firstLogin = none ∧ (handle lenient noSessions firstLogin).1 4 = some 1 ∧
      ¬ FailsSafely lenient allDown noSessions firstLogin ∧
      outcome lenient newUser noSessions changeEvent = none ∧ ¬ FailsSafely lenient newUser noSessions changeEvent := by
  have hlogin : outcome lenient allDown noSessions firstLogin = none := by decide
  have hevent : outcome lenient newUser noSessions changeEvent = none := by decide
  refine ⟨hlogin, by decide, fun h => ?_, hevent, fun h => ?_⟩
  · have := congrFun (h.unchanged (Or.inl hlogin)) 4
    exact absurd this (by decide)
  · have := h.reported (by decide) (by simp [noSessions])
    rw [hevent] at this
    cases this

end OwliesServer.Handlers
