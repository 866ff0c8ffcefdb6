/-
How a client message is routed. The agent compares the type with ChangeEvent first and sends such messages to
`receivedApiCall`; messages of type ApiCall go to `receivedChangeEvent` (owlies_agent.lua, lines 38 to 42). So
everything a login does, it does for messages of the other type:

- `Origins`: every SQL statement and every package belongs to a request made for a message of type ChangeEvent;
- `api_call_never_served`: in no run is a statement issued or a package written for a message of type ApiCall,
  whatever its name, session and fields and whatever else happens; and every request that starts a session was made
  for a message of type ChangeEvent.
-/
import OwliesServer.System.Server

namespace OwliesServer.Server

open OwliesServer.CChar OwliesServer.LuaTable OwliesServer.Sessions OwliesServer.Handlers OwliesServer.Machine
open OwliesServer.Watchdog (AgentId)
open OwliesServer.ObjectBase (Codec Request Reply)

/-! ## Where statements and packages come from -/

/-- request r was made for a client message of type ChangeEvent -/
def FromChangeEvent (s : St) (r : ReqId) : Prop :=
  ∃ a m, (r, a, m) ∈ s.sent ∧ m.messageType = MessageRequestType.ChangeEvent

structure Origins (s : St) : Prop where
  box : ∀ e ∈ s.apiBox, ∀ c, e.msg = .call c → c.cmd = .receivedApiCall → FromChangeEvent s e.req
  handlers : ∀ h ∈ s.handlers, FromChangeEvent s h.req
  statements : ∀ x ∈ s.statements, FromChangeEvent s x.1
  packages : ∀ a r p, .reply r (some (.package p)) ∈ s.inbox a → FromChangeEvent s r
  written : ∀ w ∈ s.written, FromChangeEvent s w.req
  numbered : ∀ x ∈ s.sent, x.1 < s.next
  once : (s.sent.map Prod.fst).Nodup

theorem origins_init : Origins init := by
  constructor <;> simp [init]

/-- nothing new is on its way -/
theorem Origins.shrink {s s' : St} (h : Origins s) (hb : ∀ e ∈ s'.apiBox, e ∈ s.apiBox)
    (hh : ∀ x ∈ s'.handlers, x ∈ s.handlers) (hi : ∀ a, ∀ msg ∈ s'.inbox a, msg ∈ s.inbox a)
    (hst : s'.statements = s.statements) (hw : s'.written = s.written) (hs : s'.sent = s.sent)
    (hn : s'.next = s.next) : Origins s' := by
  have hfrom : ∀ r, FromChangeEvent s r → FromChangeEvent s' r := by
    intro r ⟨a, m, hm, ht⟩
    exact ⟨a, m, hs ▸ hm, ht⟩
  refine ⟨?_, ?_, ?_, ?_, ?_, ?_, ?_⟩
  · intro e he c hc hcmd
    exact hfrom _ (h.box e (hb e he) c hc hcmd)
  · intro x hx
    exact hfrom _ (h.handlers x (hh x hx))
  · intro x hx
    exact hfrom _ (h.statements x (hst ▸ hx))
  · intro a r p hp
    exact hfrom _ (h.packages a r p (hi a _ hp))
  · intro w hmem
    exact hfrom _ (h.written w (hw ▸ hmem))
  · rw [hs, hn]; exact h.numbered
  · rw [hs]; exact h.once

theorem origins_post (s : St) (a : AgentId) (msg : AgentMsg) (h : Origins s)
    (hm : ∀ r p, msg = .reply r (some (.package p)) → FromChangeEvent s r) : Origins (post s a msg) := by
  refine ⟨h.box, h.handlers, h.statements, fun b r p hp => ?_, h.written, h.numbered, h.once⟩
  rcases mem_post s a b msg _ hp with hold | ⟨-, hnew⟩
  · exact h.packages b r p hold
  · exact hm r p hnew.symm

theorem origins_take (s : St) (a : AgentId) (msg : AgentMsg) (rest : List AgentMsg) (hi : s.inbox a = msg :: rest)
    (h : Origins s) : Origins (take s a rest) :=
  h.shrink (fun _ he => he) (fun _ hx => hx) (fun b x hx => mem_take s a b msg x rest hi hx) rfl rfl rfl rfl

theorem origins_unblock (s : St) (c : Coroutine) (h : Origins s) : Origins (unblock s c) :=
  h.shrink (fun _ he => he) (fun _ hx => hx) (fun _ _ hx => hx) rfl rfl rfl rfl

/-- a request without a new client message -/
theorem origins_sync (s : St) (a : AgentId) (stage : Stage) (h : Origins s) :
    Origins (request s a .syncError stage) := by
  refine ⟨fun e he c hc hcmd => ?_, h.handlers, h.statements, h.packages, h.written,
    fun x hx => Nat.lt_succ_of_lt (h.numbered x hx), h.once⟩
  rcases List.mem_append.1 he with he | he
  · exact h.box e he c hc hcmd
  · rw [List.mem_singleton.1 he] at hc; cases hc

theorem FromChangeEvent.log {s : St} {r : ReqId} (h : FromChangeEvent s r) (a : AgentId) (m : ClientMsg) (msg : ApiMsg)
    (stage : Stage) : FromChangeEvent (request (Server.log s a m) a msg stage) r := by
  obtain ⟨b, m', hm, ht⟩ := h
  exact ⟨b, m', List.mem_append_left _ hm, ht⟩

/-- the request for a new client message; its number is a new one -/
theorem origins_request (s : St) (a : AgentId) (m : ClientMsg) (msg : ApiMsg) (stage : Stage) (h : Origins s)
    (hm : ∀ c, msg = .call c → c.cmd = .receivedApiCall → m.messageType = MessageRequestType.ChangeEvent) :
    Origins (request (Server.log s a m) a msg stage) := by
  refine ⟨fun e he c hc hcmd => ?_, fun x hx => (h.handlers x hx).log a m msg stage,
    fun x hx => (h.statements x hx).log a m msg stage, fun b r p hp => (h.packages b r p hp).log a m msg stage,
    fun w hw => (h.written w hw).log a m msg stage, fun x hx => ?_, ?_⟩
  · rcases List.mem_append.1 he with he | he
    · exact (h.box e he c hc hcmd).log a m msg stage
    · rw [List.mem_singleton.1 he] at hc ⊢
      exact ⟨a, m, List.mem_append_right _ (List.mem_singleton.2 rfl), hm c hc hcmd⟩
  · rcases List.mem_append.1 hx with hx | hx
    · exact Nat.lt_succ_of_lt (h.numbered x hx)
    · rw [List.mem_singleton.1 hx]; exact Nat.lt_succ_self _
  · have hfresh : s.next ∉ s.sent.map Prod.fst := fun hmem => by
      obtain ⟨x, hx, hxn⟩ := List.mem_map.1 hmem
      exact absurd (h.numbered x hx) (by rw [hxn]; exact lt_irrefl _)
    simp only [request, Server.log, List.map_append, List.map_cons, List.map_nil]
    exact List.nodup_append.2 ⟨h.once, by simp, by
      intro x hx y hy
      rw [List.mem_singleton.1 hy]
      rintro rfl
      exact hfresh hx⟩

theorem origins_write (s : St) (a : AgentId) (r : ReqId) (p : Bytes) (h : Origins s) (hr : FromChangeEvent s r) :
    Origins (write s a r p) := by
  refine ⟨h.box, h.handlers, h.statements, h.packages, fun w hw => ?_, h.numbered, h.once⟩
  simp only [write] at hw
  split at hw
  · rcases List.mem_append.1 hw with hw | hw
    · exact h.written w hw
    · rw [List.mem_singleton.1 hw]; exact hr
  · exact h.written w hw

/-- a handler goes on; only those of ChangeEvent messages call services or return packages -/
theorem origins_settle (s : St) (r : ReqId) (a : AgentId) (p : ObjectBase.Proc Result) (h : Origins s)
    (hp : FromChangeEvent s r ∨ p = .raise ∨ ∃ b, p = .ret (.bool b)) : Origins (settle s r a p) := by
  cases p with
  | ret res =>
    refine origins_post s a _ h fun r' p' he => ?_
    simp only [AgentMsg.reply.injEq, Option.some.injEq] at he
    obtain ⟨rfl, rfl⟩ := he
    rcases hp with hp | hp | ⟨b, hp⟩
    · exact hp
    · cases hp
    · cases hp
  | raise => exact origins_post s a _ h (by simp)
  | call q k =>
    have hr : FromChangeEvent s r := by
      rcases hp with hp | hp | ⟨b, hp⟩
      · exact hp
      · cases hp
      · cases hp
    refine ⟨h.box, fun x hx => ?_, fun x hx => ?_, h.packages, h.written, h.numbered, h.once⟩
    · rcases List.mem_append.1 hx with hx | hx
      · exact h.handlers x hx
      · rw [List.mem_singleton.1 hx]; exact hr
    · simp only [settle] at hx
      split at hx
      · rcases List.mem_append.1 hx with hx | hx
        · exact h.statements x hx
        · rw [List.mem_singleton.1 hx]; exact hr
      · exact h.statements x hx

/-- `receivedChangeEvent` answers or raises at once -/
theorem handle_changeEvent (codec : Codec) (m : SessionMap) (c : Call) (h : c.cmd ≠ .receivedApiCall) :
    (handle codec m c).2 = .raise ∨ ∃ b, (handle codec m c).2 = .ret (.bool b) := by
  cases hc : c.cmd with
  | receivedApiCall => exact absurd hc h
  | receivedChangeEvent =>
    simp only [handle, hc, receivedChangeEvent]
    rcases admission m c with _ | ⟨b, m'⟩
    · exact Or.inl rfl
    · exact Or.inr ⟨b, rfl⟩

theorem command_receivedApiCall (m : ClientMsg) (h : command m = some .receivedApiCall) :
    m.messageType = MessageRequestType.ChangeEvent := by
  unfold command at h
  split_ifs at h with h1 h2
  · exact h1
  · cases h

theorem step_origins (codec : Codec) (s : St) (o : Op) (h : Origins s) : Origins (step codec s o) := by
  have he := step_effect codec s o
  generalize step codec s o = s' at he ⊢
  cases he with
  | idle => exact h
  | net o => exact h.shrink (fun _ he => he) (fun _ hx => hx) (fun _ _ hx => hx) rfl rfl rfl rfl
  | kicked fd a hk =>
    refine origins_post _ a _ ?_ (by simp)
    exact h.shrink (fun _ he => he) (fun _ hx => hx) (fun _ _ hx => hx) rfl rfl rfl rfl
  | frame fd m a hc => exact origins_post s a _ h (by simp)
  | ignores a msg rest hi hm => exact origins_take s a msg rest hi h
  | calls a m rest hi fd hfd cmd hc =>
    refine origins_request _ a m _ _ (origins_take s a _ rest hi h) fun c he hcmd => ?_
    cases he
    exact command_receivedApiCall m (hcmd ▸ hc)
  | unknown a m rest hi hc => exact origins_request _ a m _ _ (origins_take s a _ rest hi h) (by simp)
  | finishes a res rest c hi hb ha hres => exact origins_unblock _ c (origins_take s a _ rest hi h)
  | writes a p rest c hi hb ha =>
    refine origins_write _ a c.req p (origins_unblock _ c (origins_take s a _ rest hi h)) ?_
    exact h.packages a c.req p (by rw [hi]; exact List.mem_cons_self)
  | syncs a rest c hi hb ha => exact origins_sync _ a _ (origins_unblock _ c (origins_take s a _ rest hi h))
  | exits a rest hi =>
    have ht := origins_take s a _ rest hi h
    exact ht.shrink (fun _ he => he) (fun _ hx => hx) (fun b x hx => mem_exit _ a b x hx) rfl rfl rfl rfl
  | unanswered e rest hb he =>
    have hrest : ∀ e' ∈ rest, e' ∈ s.apiBox := fun e' he' => hb ▸ List.mem_cons_of_mem e he'
    exact h.shrink hrest (fun _ hx => hx) (fun _ _ hx => hx) rfl rfl rfl rfl
  | handles e rest hb c he =>
    have hrest : ∀ e' ∈ rest, e' ∈ s.apiBox := fun e' he' => hb ▸ List.mem_cons_of_mem e he'
    refine origins_settle _ e.req e.agent _ (h.shrink hrest (fun _ hx => hx) (fun _ _ hx => hx) rfl rfl rfl rfl) ?_
    by_cases hc : c.cmd = .receivedApiCall
    · exact Or.inl (h.box e (by rw [hb]; exact List.mem_cons_self) c he hc)
    · exact Or.inr (handle_changeEvent codec s.networkSessionMap c hc)
  | replied x answer hf q k hr =>
    refine origins_settle _ x.req x.agent _ ?_ (Or.inl (h.handlers x (List.mem_of_find?_eq_some hf)))
    exact h.shrink (fun _ he => he) (fun y hy => List.mem_of_mem_eraseP hy) (fun _ _ hx => hx) rfl rfl rfl rfl

theorem run_origins (codec : Codec) (ops : List Op) : Origins (run (step codec) init ops) :=
  run_inv (step codec) Origins (step_origins codec) init ops origins_init

/-! ## Logins of the two types -/

/-- a request number belongs to one client message -/
theorem Origins.unique {s : St} (h : Origins s) {r : ReqId} {a b : AgentId} {m m' : ClientMsg} (h1 : (r, a, m) ∈ s.sent)
    (h2 : (r, b, m') ∈ s.sent) : m = m' := by
  have := List.inj_on_of_nodup_map h.once h1 h2 rfl
  simp only [Prod.mk.injEq] at this
  exact this.2.2

/-- **A message of type ApiCall is never served.** In every run: no statement is issued and no package written for a
request made for a message of type ApiCall; and each request that starts a session, whether or not its fd had one, was
made for a message of type ChangeEvent. -/
theorem api_call_never_served (codec : Codec) (ops : List Op) :
    (∀ r a m, (r, a, m) ∈ (run (step codec) init ops).sent → m.messageType = MessageRequestType.ApiCall →
      (∀ x ∈ (run (step codec) init ops).statements, x.1 ≠ r) ∧
        ∀ w ∈ (run (step codec) init ops).written, w.req ≠ r) ∧
    ∀ e rest c, (run (step codec) init ops).apiBox = e :: rest → e.msg = .call c → c.IsLogin →
      FromChangeEvent (run (step codec) init ops) e.req ∧
        (step codec (run (step codec) init ops) .apiTurn).networkSessionMap c.clientFd = some c.clientSession := by
  have h := run_origins codec ops
  constructor
  · intro r a m hm ht
    have hno : ¬ FromChangeEvent (run (step codec) init ops) r := by
      rintro ⟨b, m', hm', ht'⟩
      rw [← h.unique hm hm', ht] at ht'
      exact absurd ht' (by decide)
    exact ⟨fun x hx he => hno (he ▸ h.statements x hx), fun w hw he => hno (he ▸ h.written w hw)⟩
  · intro e rest c hb he hl
    refine ⟨h.box e (by rw [hb]; exact List.mem_cons_self) c he hl.1, ?_⟩
    have hmap : (handle codec (run (step codec) init ops).networkSessionMap c).1 c.clientFd = some c.clientSession := by
      rw [handle_map, step_of_admission (admission_login _ c hl), Function.update_self]
    simp only [step, apiTurn, hb, he]
    cases hp : (handle codec (run (step codec) init ops).networkSessionMap c).2 <;> simpa [settle, post] using hmap

/-- connection 4 is open, and agent 0 is its agent -/
def connected : List Op := [.net (.accept 4), .net .dogTurn, .net (.launched 4 true), .net (.started 4 0 true)]

/-- a login with all columns of user_login -/
def loginMsg (messageType : ℤ) (clientSession : BitVec 32) : ClientMsg :=
  ⟨[(ascii "user_id", .str (ascii "7")), (ascii "user_account", .str (ascii "ann")),
    (ascii "device_identifier", .str (ascii "d")), (ascii "client_version", .str (ascii "1")),
    (ascii "client_app_name", .str (ascii "owlies"))], clientSession, messageType, SprotoNames.LoginRequest⟩

/-- a login of type ApiCall, until nothing more can happen -/
def apiCallLogin : List Op :=
  connected ++ [.frame 4 (loginMsg MessageRequestType.ApiCall 1), .agentTurn 0, .apiTurn, .agentTurn 0, .apiTurn]

/-- a login of type ChangeEvent, until owlies_api has taken it -/
def changeEventLogin : List Op :=
  connected ++ [.frame 4 (loginMsg MessageRequestType.ChangeEvent 1), .agentTurn 0, .apiTurn]

theorem api_call_sample :
    (0, 0, loginMsg MessageRequestType.ApiCall 1) ∈ (run (step lenient) init apiCallLogin).sent ∧
      ∀ w ∈ (run (step lenient) init apiCallLogin).written, w.req ≠ 0 := by
  have hm : (0, 0, loginMsg MessageRequestType.ApiCall 1) ∈ (run (step lenient) init apiCallLogin).sent := by decide
  exact ⟨hm, ((api_call_never_served lenient apiCallLogin).1 0 0 _ hm rfl).2⟩

/-- **A login of type ApiCall gets nowhere**: no session, no upsert, no response, and the agent is blocked for good.
The same login as a ChangeEvent creates the session of a connection that had none. -/
theorem api_call_login_fails :
    (run (step lenient) init apiCallLogin).networkSessionMap 4 = none ∧
      (run (step lenient) init apiCallLogin).statements = [] ∧ (run (step lenient) init apiCallLogin).written = [] ∧
      (run (step lenient) init apiCallLogin).blocked = [⟨1, 0, .syncing⟩] ∧
      (run (step lenient) init apiCallLogin).apiBox = [] ∧ (run (step lenient) init apiCallLogin).inbox 0 = [] ∧
      (run (step lenient) init connected).networkSessionMap 4 = none ∧
      (run (step lenient) init changeEventLogin).networkSessionMap 4 = some 1 := by
  decide

end OwliesServer.Server
