/-
The whole server: gate, watchdog, agents and owlies_api as services that exchange messages (skynet).

- The gate knows which fds are connected and to which agent their frames go. It reports opens, closes and errors to
  the watchdog (`Watchdog`), in order. An agent's `start` sets its client_fd and has the gate forward the fd to it.
- An agent (Script/Service/owlies_agent.lua) handles every client message in a coroutine of its own: it picks the
  owlies_api command by message type, blocks in `skynet.call`, and writes the package it gets. If the call failed it
  calls `syncError`.
- owlies_api (Script/Service/owlies_api.lua) takes its messages in order. A handler may be suspended in a call to
  MySQL or Redis; their replies come in any order. A handler that returns sends a reply, one that raises an error
  reply. `syncError` is no command of the service: its dispatch finds no function and never answers.

Mailboxes are queues, and requests are numbered in the order in which they are sent. `sent`, `statements` and
`written` record what happened: requests with the client message behind them, SQL texts with the request that issued
them, packages on the sockets. Operations that are not enabled leave the state unchanged.
-/
import OwliesServer.Api.Handlers
import OwliesServer.System.Watchdog

namespace OwliesServer.Server

open OwliesServer.CChar OwliesServer.LuaTable OwliesServer.Sessions OwliesServer.Handlers
open OwliesServer.Watchdog (AgentId)
open OwliesServer.ObjectBase (Codec Request Reply)

/-! ## Gate and watchdog -/

/-- what the gate reports to the watchdog -/
inductive SocketEvent where
  | opened (fd : Fd)
  | closed (fd : Fd)
  | error (fd : Fd)
deriving DecidableEq, Repr

def SocketEvent.op : SocketEvent → Watchdog.Op
  | .opened fd => .socketOpen fd
  | .closed fd => .socketClose fd
  | .error fd => .socketError fd

structure Net where
  dog : Watchdog.St
  /-- socket events on their way from the gate to the watchdog -/
  dogBox : List SocketEvent
  /-- the gate's connections, with the agent the frames are forwarded to -/
  conn : Fd → Option (Option AgentId)
  /-- `client_fd` of each agent -/
  clientFd : AgentId → Option Fd

inductive NetOp where
  | accept (fd : Fd)
  /-- the peer closes the connection, or it breaks -/
  | drop (fd : Fd) (error : Bool)
  /-- the watchdog handles the next socket event -/
  | dogTurn
  /-- somebody sends the watchdog CMD.close -/
  | dogClose (fd : Fd)
  | launched (fd : Fd) (ok : Bool)
  /-- the agent handles `start`; `ok` is false if the forward call fails -/
  | started (fd : Fd) (a : AgentId) (ok : Bool)
deriving DecidableEq, Repr

def netStep (n : Net) : NetOp → Net
  | .accept fd =>
    if n.conn fd = none then
      { n with conn := Function.update n.conn fd (some none), dogBox := n.dogBox ++ [.opened fd] }
    else n
  | .drop fd error =>
    if n.conn fd = none then n
    else
      { n with
        conn := Function.update n.conn fd none
        dogBox := n.dogBox ++ [if error then .error fd else .closed fd] }
  | .dogTurn =>
    match n.dogBox with
    | [] => n
    | e :: rest => { n with dog := Watchdog.step n.dog e.op, dogBox := rest }
  | .dogClose fd => { n with dog := Watchdog.step n.dog (.cmdClose fd) }
  | .launched fd ok => { n with dog := Watchdog.step n.dog (.launchDone fd ok) }
  | .started fd a ok =>
    if .starting fd a ∈ n.dog.suspended then
      { n with
        dog := Watchdog.step n.dog (.startDone fd a)
        clientFd := Function.update n.clientFd a (some fd)
        -- the gate asserts that the connection is still there
        conn := if ok ∧ n.conn fd ≠ none then Function.update n.conn fd (some (some a)) else n.conn }
    else n

/-- the gate's `kick`: the connection is closed, which the watchdog hears of later -/
def kick (n : Net) (fd : Fd) (a : AgentId) : Net :=
  { n with
    dog := Watchdog.step n.dog (.kickDone fd a)
    conn := Function.update n.conn fd none
    dogBox := if n.conn fd = none then n.dogBox else n.dogBox ++ [.closed fd] }

/-! ## Messages -/

abbrev ReqId := ℕ

namespace MessageRequestType

def ChangeEvent : ℤ := 1

def ApiCall : ℤ := 2

end MessageRequestType

/-- a client message as `deserialize` hands it to the agent -/
structure ClientMsg where
  sproto : Table
  clientSession : BitVec 32
  messageType : ℤ
  messageName : Bytes
deriving DecidableEq, Repr

/-- what an agent finds in its mailbox -/
inductive AgentMsg where
  | client (m : ClientMsg)
  /-- the reply to a request; `none` is the error reply of a handler that raised -/
  | reply (r : ReqId) (res : Option Result)
  | disconnect
deriving DecidableEq, Repr

inductive ApiMsg where
  | call (c : Call)
  | syncError
deriving DecidableEq, Repr

/-- a request on its way to owlies_api -/
structure Envelope where
  req : ReqId
  agent : AgentId
  msg : ApiMsg
deriving DecidableEq, Repr

inductive Stage where
  /-- in the first call -/
  | calling
  /-- in the call of `syncError` -/
  | syncing
deriving DecidableEq, Repr

/-- an agent's coroutine blocked in `skynet.call` -/
structure Coroutine where
  req : ReqId
  agent : AgentId
  stage : Stage
deriving DecidableEq, Repr

/-- a suspended handler of owlies_api -/
structure Suspended where
  req : ReqId
  agent : AgentId
  rest : ObjectBase.Proc Result

/-- a package on the socket of `fd`, and the request it answers -/
structure Write where
  agent : AgentId
  fd : Fd
  req : ReqId
  package : Bytes
deriving DecidableEq, Repr

/-! ## The state -/

structure St where
  net : Net
  exited : AgentId → Bool
  inbox : AgentId → List AgentMsg
  blocked : List Coroutine
  apiBox : List Envelope
  networkSessionMap : SessionMap
  handlers : List Suspended
  next : ReqId
  sent : List (ReqId × AgentId × ClientMsg)
  statements : List (ReqId × Bytes)
  written : List Write

def init : St :=
  ⟨⟨Watchdog.init, [], fun _ => none, fun _ => none⟩, fun _ => false, fun _ => [], [], [], noSessions, [], 0, [], [], []⟩

inductive Op where
  | net (o : NetOp)
  /-- the gate executes a kick, and the watchdog sends the agent disconnect -/
  | kicked (fd : Fd) (a : AgentId)
  /-- a frame of `fd` arrives -/
  | frame (fd : Fd) (m : ClientMsg)
  /-- the agent takes the next message out of its mailbox -/
  | agentTurn (a : AgentId)
  /-- owlies_api takes the next message out of its mailbox -/
  | apiTurn
  /-- MySQL or Redis answers the handler of a request -/
  | serviceReply (r : ReqId) (answer : (q : Request) → Reply q)

/-! ## Steps -/

/-- a message to an agent; one that has exited gets nothing -/
def post (s : St) (a : AgentId) (msg : AgentMsg) : St :=
  { s with inbox := if s.exited a then s.inbox else Function.update s.inbox a (s.inbox a ++ [msg]) }

/-- an agent has taken a message out of its mailbox -/
def take (s : St) (a : AgentId) (rest : List AgentMsg) : St := { s with inbox := Function.update s.inbox a rest }

/-- the next request is for client message m -/
def log (s : St) (a : AgentId) (m : ClientMsg) : St := { s with sent := s.sent ++ [(s.next, a, m)] }

/-- a blocked coroutine goes on -/
def unblock (s : St) (c : Coroutine) : St := { s with blocked := s.blocked.erase c }

/-- an agent calls owlies_api and blocks -/
def request (s : St) (a : AgentId) (msg : ApiMsg) (stage : Stage) : St :=
  { s with
    blocked := s.blocked ++ [⟨s.next, a, stage⟩]
    apiBox := s.apiBox ++ [⟨s.next, a, msg⟩]
    next := s.next + 1 }

/-- `send_package`: `string.pack` raises for a package that is too long -/
def write (s : St) (a : AgentId) (r : ReqId) (package : Bytes) : St :=
  { s with
    written :=
      match s.net.clientFd a, ServerPackage.sendPackage package with
      | some fd, some _ => s.written ++ [⟨a, fd, r, package⟩]
      | _, _ => s.written }

/-- the command for a client message, by its type; `none` for types that are neither -/
def command (m : ClientMsg) : Option Cmd :=
  if m.messageType = MessageRequestType.ChangeEvent then some .receivedApiCall
  else if m.messageType = MessageRequestType.ApiCall then some .receivedChangeEvent
  else none

/-- the agent's dispatch of a client message up to its first call -/
def receive (s : St) (a : AgentId) (m : ClientMsg) : St :=
  match s.net.clientFd a with
  | none => s
  | some fd =>
    match command m with
    | some cmd => request (log s a m) a (.call ⟨cmd, fd, m.clientSession, m.messageType, m.messageName, m.sproto⟩) .calling
    | none => request (log s a m) a .syncError .syncing

/-- the rest of the dispatch, when the call of request r comes back -/
def resume (s : St) (a : AgentId) (r : ReqId) (res : Option Result) : St :=
  match s.blocked.find? (fun c => c.req = r ∧ c.agent = a) with
  | none => s
  | some c =>
    match c.stage, res with
    | .calling, none => request (unblock s c) a .syncError .syncing
    | .calling, some (.package p) => write (unblock s c) a r p
    -- nil is not sent; for a boolean `string.pack` raises
    | .calling, some _ => unblock s c
    | .syncing, _ => unblock s c

/-- `CMD.disconnect`: the service ends, and its coroutines and mailbox with it -/
def exit (s : St) (a : AgentId) : St :=
  { s with
    exited := Function.update s.exited a true
    inbox := Function.update s.inbox a []
    blocked := s.blocked.filter fun c => c.agent ≠ a }

def agentTurn (s : St) (a : AgentId) : St :=
  match s.inbox a with
  | [] => s
  | msg :: rest =>
    match msg with
    | .client m => receive (take s a rest) a m
    | .reply r res => resume (take s a rest) a r res
    | .disconnect => exit (take s a rest) a

/-- a handler of owlies_api has run until its end or its next call -/
def settle (s : St) (r : ReqId) (a : AgentId) : ObjectBase.Proc Result → St
  | .ret res => post s a (.reply r (some res))
  | .raise => post s a (.reply r none)
  | .call q k =>
    { s with
      handlers := s.handlers ++ [⟨r, a, .call q k⟩]
      statements :=
        match q with
        | .query sql => s.statements ++ [(r, sql)]
        | _ => s.statements }

def apiTurn (codec : Codec) (s : St) : St :=
  match s.apiBox with
  | [] => s
  | e :: rest =>
    let s' := { s with apiBox := rest }
    match e.msg with
    | .syncError => s'
    | .call c =>
      let h := handle codec s.networkSessionMap c
      settle { s' with networkSessionMap := h.1 } e.req e.agent h.2

def serviceReply (s : St) (r : ReqId) (answer : (q : Request) → Reply q) : St :=
  match s.handlers.find? (fun h => h.req = r) with
  | none => s
  | some h =>
    match h.rest with
    | .call q k => settle { s with handlers := s.handlers.eraseP fun h => h.req = r } r h.agent (k (answer q))
    | _ => s

def step (codec : Codec) (s : St) : Op → St
  | .net o => { s with net := netStep s.net o }
  | .kicked fd a =>
    if .kicking fd a ∈ s.net.dog.suspended then post { s with net := kick s.net fd a } a .disconnect else s
  | .frame fd m =>
    match s.net.conn fd with
    | some (some a) => post s a (.client m)
    | _ => s
  | .agentTurn a => agentTurn s a
  | .apiTurn => apiTurn codec s
  | .serviceReply r answer => serviceReply s r answer

/-! ## What a step does -/

/-- everything a step can do, with the condition under which it does it -/
inductive Effect (codec : Codec) (s : St) : Op → St → Prop
  | idle (o : Op) : Effect codec s o s
  | net (o : NetOp) : Effect codec s (.net o) { s with net := netStep s.net o }
  | kicked (fd : Fd) (a : AgentId) (hk : .kicking fd a ∈ s.net.dog.suspended) :
      Effect codec s (.kicked fd a) (post { s with net := kick s.net fd a } a .disconnect)
  | frame (fd : Fd) (m : ClientMsg) (a : AgentId) (hc : s.net.conn fd = some (some a)) :
      Effect codec s (.frame fd m) (post s a (.client m))
  | ignores (a : AgentId) (msg : AgentMsg) (rest : List AgentMsg) (hi : s.inbox a = msg :: rest)
      (hm : ∀ c ∈ s.blocked, ∀ res, msg = .reply c.req res → c.agent ≠ a) :
      Effect codec s (.agentTurn a) (take s a rest)
  | calls (a : AgentId) (m : ClientMsg) (rest : List AgentMsg) (hi : s.inbox a = .client m :: rest) (fd : Fd)
      (hfd : s.net.clientFd a = some fd) (cmd : Cmd) (hc : command m = some cmd) :
      Effect codec s (.agentTurn a) (request (log (take s a rest) a m) a
        (.call ⟨cmd, fd, m.clientSession, m.messageType, m.messageName, m.sproto⟩) .calling)
  | unknown (a : AgentId) (m : ClientMsg) (rest : List AgentMsg) (hi : s.inbox a = .client m :: rest)
      (hc : command m = none) :
      Effect codec s (.agentTurn a) (request (log (take s a rest) a m) a .syncError .syncing)
  | finishes (a : AgentId) (res : Option Result) (rest : List AgentMsg) (c : Coroutine)
      (hi : s.inbox a = .reply c.req res :: rest) (hb : c ∈ s.blocked) (ha : c.agent = a)
      (hres : c.stage = .calling → res ≠ none) :
      Effect codec s (.agentTurn a) (unblock (take s a rest) c)
  | writes (a : AgentId) (p : Bytes) (rest : List AgentMsg) (c : Coroutine)
      (hi : s.inbox a = .reply c.req (some (.package p)) :: rest) (hb : c ∈ s.blocked) (ha : c.agent = a) :
      Effect codec s (.agentTurn a) (write (unblock (take s a rest) c) a c.req p)
  | syncs (a : AgentId) (rest : List AgentMsg) (c : Coroutine) (hi : s.inbox a = .reply c.req none :: rest)
      (hb : c ∈ s.blocked) (ha : c.agent = a) :
      Effect codec s (.agentTurn a) (request (unblock (take s a rest) c) a .syncError .syncing)
  | exits (a : AgentId) (rest : List AgentMsg) (hi : s.inbox a = .disconnect :: rest) :
      Effect codec s (.agentTurn a) (exit (take s a rest) a)
  | unanswered (e : Envelope) (rest : List Envelope) (hb : s.apiBox = e :: rest) (he : e.msg = .syncError) :
      Effect codec s .apiTurn { s with apiBox := rest }
  | handles (e : Envelope) (rest : List Envelope) (hb : s.apiBox = e :: rest) (c : Call) (he : e.msg = .call c) :
      Effect codec s .apiTurn
        (settle { s with apiBox := rest, networkSessionMap := (handle codec s.networkSessionMap c).1 } e.req e.agent
          (handle codec s.networkSessionMap c).2)
  | replied (h : Suspended) (answer : (q : Request) → Reply q) (hf : s.handlers.find? (fun x => x.req = h.req) = some h)
      (q : Request) (k : Reply q → ObjectBase.Proc Result) (hr : h.rest = .call q k) :
      Effect codec s (.serviceReply h.req answer)
        (settle { s with handlers := s.handlers.eraseP fun x => x.req = h.req } h.req h.agent (k (answer q)))

theorem resume_effect (codec : Codec) (s : St) (a : AgentId) (r : ReqId) (res : Option Result) (rest : List AgentMsg)
    (hi : s.inbox a = .reply r res :: rest) : Effect codec s (.agentTurn a) (resume (take s a rest) a r res) := by
  unfold resume
  cases hf : (take s a rest).blocked.find? (fun c => c.req = r ∧ c.agent = a) with
  | none =>
    refine .ignores a _ rest hi fun c hc res' hmsg hagent => ?_
    have := List.find?_eq_none.1 hf c hc
    simp only [AgentMsg.reply.injEq] at hmsg
    simp [hmsg.1, hagent] at this
  | some c =>
    have hmem : c ∈ s.blocked := List.mem_of_find?_eq_some hf
    obtain ⟨rfl, rfl⟩ : c.req = r ∧ c.agent = a := by simpa using List.find?_some hf
    cases hs : c.stage with
    | syncing => simp only [hs]; exact .finishes _ res rest c hi hmem rfl (by simp [hs])
    | calling =>
      rcases res with _ | _ | b | p <;> simp only [hs]
      · exact .syncs _ rest c hi hmem rfl
      · exact .finishes _ _ rest c hi hmem rfl (by simp)
      · exact .finishes _ _ rest c hi hmem rfl (by simp)
      · exact .writes _ p rest c hi hmem rfl

theorem step_effect (codec : Codec) (s : St) (o : Op) : Effect codec s o (step codec s o) := by
  cases o with
  | net o => exact .net o
  | kicked fd a =>
    simp only [step]
    split_ifs with hk
    · exact .kicked fd a hk
    · exact .idle _
  | frame fd m =>
    simp only [step]
    split
    · rename_i a hc; exact .frame fd m a hc
    · exact .idle _
  | agentTurn a =>
    simp only [step, agentTurn]
    cases hi : s.inbox a with
    | nil => exact .idle _
    | cons msg rest =>
      cases msg with
      | client m =>
        simp only [receive]
        cases hfd : (take s a rest).net.clientFd a with
        | none => exact .ignores a _ rest hi (by simp)
        | some fd =>
          cases hc : command m with
          | none => exact .unknown a m rest hi hc
          | some cmd => exact .calls a m rest hi fd hfd cmd hc
      | reply r res => exact resume_effect codec s a r res rest hi
      | disconnect => exact .exits a rest hi
  | apiTurn =>
    simp only [step, apiTurn]
    cases hb : s.apiBox with
    | nil => exact .idle _
    | cons e rest =>
      cases he : e.msg with
      | syncError => simp only [he]; exact .unanswered e rest hb he
      | call c => simp only [he]; exact .handles e rest hb c he
  | serviceReply r answer =>
    simp only [step, serviceReply]
    cases hf : s.handlers.find? (fun h => h.req = r) with
    | none => exact .idle _
    | some h =>
      obtain rfl : h.req = r := by simpa using List.find?_some hf
      cases hr : h.rest with
      | ret res => simp only [hr]; exact .idle _
      | raise => simp only [hr]; exact .idle _
      | call q k => simp only [hr]; exact .replied h answer hf q k hr

/-! ## Mailboxes -/

theorem mem_post (s : St) (a b : AgentId) (msg x : AgentMsg) (h : x ∈ (post s a msg).inbox b) :
    x ∈ s.inbox b ∨ b = a ∧ x = msg := by
  simp only [post] at h
  split_ifs at h
  · exact Or.inl h
  · by_cases hb : b = a
    · subst hb
      rw [Function.update_self] at h
      exact (List.mem_append.1 h).imp id fun hx => ⟨rfl, List.mem_singleton.1 hx⟩
    · exact Or.inl (by rwa [Function.update_of_ne hb] at h)

theorem mem_take (s : St) (a b : AgentId) (msg x : AgentMsg) (rest : List AgentMsg) (hi : s.inbox a = msg :: rest)
    (h : x ∈ (take s a rest).inbox b) : x ∈ s.inbox b := by
  simp only [take] at h
  by_cases hb : b = a
  · subst hb
    rw [Function.update_self] at h
    rw [hi]; exact List.mem_cons_of_mem _ h
  · rwa [Function.update_of_ne hb] at h

theorem post_inbox (s : St) (a b : AgentId) (msg : AgentMsg) :
    (post s a msg).inbox b = if b = a ∧ s.exited a = false then s.inbox b ++ [msg] else s.inbox b := by
  simp only [post]
  cases he : s.exited a with
  | true => simp
  | false =>
    by_cases hb : b = a
    · subst hb; simp
    · simp [hb]

theorem take_inbox (s : St) (a b : AgentId) (rest : List AgentMsg) :
    (take s a rest).inbox b = if b = a then rest else s.inbox b := by
  by_cases hb : b = a
  · subst hb; simp [take]
  · simp [take, hb]

theorem mem_exit (s : St) (a b : AgentId) (x : AgentMsg) (h : x ∈ (exit s a).inbox b) : x ∈ s.inbox b := by
  simp only [exit] at h
  by_cases hb : b = a
  · subst hb; simp at h
  · rwa [Function.update_of_ne hb] at h

end OwliesServer.Server
