/-
Does a session end with its connection? Nobody tells owlies_api of a disconnect: the watchdog only kicks the
connection and stops the agent, and `clientDisconnect`, which names an undefined variable, has no caller. So the entry
of an fd stays, and the next connection with this number inherits it.

- `Front`: the gate forwards an fd only to the agent that was started for it.
- `Tied`: an fd with a session, or with a login on its way to owlies_api, is connected.
- `sessions_end_with_connections`: in runs in which connections close only without a session and without a login on
  the way (that is, before the client has logged in), every fd with a session is connected, and for an fd that is not
  connected no message is accepted before a login.
- `session_outlives_connection`: after a login and a disconnect the entry is still there, and the next client on this
  fd goes on with the session without logging in.
-/
import OwliesServer.System.Replies

namespace OwliesServer.Server

open OwliesServer.CChar OwliesServer.LuaTable OwliesServer.Sessions OwliesServer.Handlers OwliesServer.Machine
open OwliesServer.Watchdog (AgentId)
open OwliesServer.ObjectBase (Codec Request Reply)

/-! ## Gate and watchdog -/

structure Front (n : Net) : Prop where
  starting_known : ∀ a ∈ Watchdog.starting n.dog.suspended, a < n.dog.launched
  starting_once : (Watchdog.starting n.dog.suspended).Nodup
  unstarted : ∀ a ∈ Watchdog.starting n.dog.suspended, n.clientFd a = none
  unborn : ∀ a, n.dog.launched ≤ a → n.clientFd a = none
  forwarded : ∀ fd a, n.conn fd = some (some a) → n.clientFd a = some fd

theorem front_init : Front init.net := by
  constructor <;> simp [init, Watchdog.init, Watchdog.starting]

/-- a step of the watchdog that is no start -/
theorem front_dog (n n' : Net) (o : Watchdog.Op) (hd : n'.dog = Watchdog.step n.dog o) (hc : n'.clientFd = n.clientFd)
    (ho : ∀ fd a, o ≠ .startDone fd a) (hfw : ∀ fd a, n'.conn fd = some (some a) → n.conn fd = some (some a))
    (h : Front n) : Front n' := by
  have hforward : ∀ fd a, n'.conn fd = some (some a) → n'.clientFd a = some fd :=
    fun fd a ha => by rw [hc]; exact h.forwarded fd a (hfw fd a ha)
  rcases Watchdog.step_starting n.dog o with ⟨hs, hl⟩ | ⟨hs, hl⟩ | ⟨fd, a, rfl, -, -⟩
  · rw [← hd] at hs hl
    refine ⟨fun a ha => ?_, hs.nodup_iff.2 h.starting_once, fun a ha => ?_, fun a ha => ?_, hforward⟩
    · rw [hl]; exact h.starting_known a (hs.subset ha)
    · rw [hc]; exact h.unstarted a (hs.subset ha)
    · rw [hc]; exact h.unborn a (hl ▸ ha)
  · rw [← hd] at hs hl
    refine ⟨fun a ha => ?_, hs.nodup_iff.2 (List.nodup_cons.2 ⟨fun hm => ?_, h.starting_once⟩), fun a ha => ?_,
      fun a ha => ?_, hforward⟩
    · rw [hl]
      rcases List.mem_cons.1 (hs.subset ha) with rfl | ha
      · exact Nat.lt_succ_self _
      · exact Nat.lt_succ_of_lt (h.starting_known a ha)
    · exact absurd (h.starting_known _ hm) (lt_irrefl _)
    · rw [hc]
      rcases List.mem_cons.1 (hs.subset ha) with rfl | ha
      · exact h.unborn _ le_rfl
      · exact h.unstarted a ha
    · rw [hl] at ha; rw [hc]; exact h.unborn a (Nat.le_of_succ_le ha)
  · exact absurd rfl (ho fd a)

theorem front_kick (n : Net) (fd : Fd) (a : AgentId) (h : Front n) : Front (kick n fd a) := by
  refine front_dog n _ (.kickDone fd a) rfl rfl (by simp) (fun fd' b hb => ?_) h
  by_cases hfd : fd' = fd
  · subst hfd; simp [kick] at hb
  · simpa [kick, Function.update_of_ne hfd] using hb

theorem front_started (n : Net) (fd : Fd) (a : AgentId) (ok : Bool) (hm : .starting fd a ∈ n.dog.suspended)
    (h : Front n) :
    n.clientFd a = none ∧ Front (netStep n (.started fd a ok)) := by
  have hperm : (Watchdog.starting n.dog.suspended).Perm
      (a :: Watchdog.starting (n.dog.suspended.erase (.starting fd a))) := Watchdog.starting_erase _ _ hm
  have hnone : n.clientFd a = none := h.unstarted a (hperm.symm.subset List.mem_cons_self)
  have hnodup := hperm.nodup_iff.1 h.starting_once
  have hother : ∀ b, b ≠ a → Function.update n.clientFd a (some fd) b = n.clientFd b :=
    fun b hb => Function.update_of_ne hb _ _
  refine ⟨hnone, ?_⟩
  simp only [netStep, if_pos hm, Watchdog.step]
  refine ⟨fun b hb => h.starting_known b (hperm.symm.subset (List.mem_cons_of_mem _ hb)), (List.nodup_cons.1 hnodup).2,
    fun b hb => ?_, fun b hb => ?_, fun fd' b hb => ?_⟩
  · have hne : b ≠ a := fun e => (List.nodup_cons.1 hnodup).1 (e ▸ hb)
    exact (hother b hne).trans (h.unstarted b (hperm.symm.subset (List.mem_cons_of_mem _ hb)))
  · have hne : b ≠ a := fun e =>
      absurd (h.starting_known a (hperm.symm.subset List.mem_cons_self)) (Nat.not_lt.2 (e ▸ hb))
    exact (hother b hne).trans (h.unborn b hb)
  · have hold : n.conn fd' = some (some b) → Function.update n.clientFd a (some fd) b = some fd' := by
      intro hc
      have hb' := h.forwarded fd' b hc
      rw [hother b (fun e => by rw [e, hnone] at hb'; cases hb')]
      exact hb'
    simp only at hb
    split_ifs at hb
    · by_cases hfd : fd' = fd
      · subst hfd
        rw [Function.update_self, Option.some.injEq, Option.some.injEq] at hb
        subst hb
        exact Function.update_self _ _ _
      · exact hold (by rwa [Function.update_of_ne hfd] at hb)
    · exact hold hb

theorem front_step (n : Net) (o : NetOp) (h : Front n) : Front (netStep n o) := by
  have hsame : ∀ n' : Net, n'.dog = n.dog → n'.clientFd = n.clientFd →
      (∀ fd a, n'.conn fd = some (some a) → n.conn fd = some (some a)) → Front n' := by
    intro n' hd hc hfw
    refine ⟨?_, ?_, ?_, ?_, fun fd a ha => ?_⟩
    · rw [hd]; exact h.starting_known
    · rw [hd]; exact h.starting_once
    · rw [hd, hc]; exact h.unstarted
    · rw [hd, hc]; exact h.unborn
    · rw [hc]; exact h.forwarded fd a (hfw fd a ha)
  cases o with
  | accept fd =>
    simp only [netStep]
    split_ifs
    · refine hsame _ rfl rfl fun fd' a ha => ?_
      by_cases hfd : fd' = fd
      · subst hfd; simp at ha
      · simpa [Function.update_of_ne hfd] using ha
    · exact h
  | drop fd error =>
    simp only [netStep]
    split_ifs
    · exact h
    all_goals
      refine hsame _ rfl rfl fun fd' a ha => ?_
      by_cases hfd : fd' = fd
      · subst hfd; simp at ha
      · simpa [Function.update_of_ne hfd] using ha
  | dogTurn =>
    simp only [netStep]
    cases n.dogBox with
    | nil => exact h
    | cons e rest => exact front_dog n _ e.op rfl rfl (by cases e <;> simp [SocketEvent.op]) (fun _ _ ha => ha) h
  | dogClose fd => exact front_dog n _ (.cmdClose fd) rfl rfl (by simp) (fun _ _ ha => ha) h
  | launched fd ok => exact front_dog n _ (.launchDone fd ok) rfl rfl (by simp) (fun _ _ ha => ha) h
  | started fd a ok =>
    by_cases hm : .starting fd a ∈ n.dog.suspended
    · exact (front_started n fd a ok hm h).2
    · simpa [netStep, hm] using h

/-! ## Sessions and connections -/

/-- a message that will start a session -/
def ClientMsg.IsLogin (m : ClientMsg) : Prop :=
  m.messageType = MessageRequestType.ChangeEvent ∧ m.messageName = SprotoNames.LoginRequest

structure Tied (s : St) : Prop where
  front : Front s.net
  entry : ∀ fd, s.networkSessionMap fd ≠ none → s.net.conn fd ≠ none
  inbox : ∀ a m, .client m ∈ s.inbox a → m.IsLogin → ∃ fd, s.net.clientFd a = some fd ∧ s.net.conn fd ≠ none
  box : ∀ e ∈ s.apiBox, ∀ c, e.msg = .call c → c.IsLogin → s.net.conn c.clientFd ≠ none

/-- `fd` has no session, and no login of `fd` is on its way to owlies_api -/
structure Unused (s : St) (fd : Fd) : Prop where
  entry : s.networkSessionMap fd = none
  inbox : ∀ a m, .client m ∈ s.inbox a → m.IsLogin → s.net.clientFd a ≠ some fd
  box : ∀ e ∈ s.apiBox, ∀ c, e.msg = .call c → c.IsLogin → c.clientFd ≠ fd

theorem tied_init : Tied init :=
  ⟨front_init, by simp [init, noSessions], by simp [init], by simp [init]⟩

/-- gate and watchdog change; only unused fds are disconnected -/
theorem tied_net (s : St) (n : Net) (h : Tied s) (hn : Front n)
    (hc : ∀ fd, s.net.conn fd ≠ none → n.conn fd ≠ none ∨ Unused s fd)
    (hf : ∀ a fd, s.net.clientFd a = some fd → n.clientFd a = some fd) : Tied { s with net := n } := by
  refine ⟨hn, fun fd he => ?_, fun a m hm hl => ?_, fun e he c hec hl => ?_⟩
  · exact (hc fd (h.entry fd he)).resolve_right fun hu => he hu.entry
  · obtain ⟨fd, hfd, hconn⟩ := h.inbox a m hm hl
    exact ⟨fd, hf a fd hfd, (hc fd hconn).resolve_right fun hu => hu.inbox a m hm hl hfd⟩
  · exact (hc _ (h.box e he c hec hl)).resolve_right fun hu => hu.box e he c hec hl rfl

theorem tied_post (s : St) (b : AgentId) (msg : AgentMsg) (h : Tied s)
    (hm : ∀ m, msg = .client m → m.IsLogin → ∃ fd, s.net.clientFd b = some fd ∧ s.net.conn fd ≠ none) :
    Tied (post s b msg) := by
  refine ⟨h.front, h.entry, fun a m hmem hl => ?_, h.box⟩
  rcases mem_post s b a msg _ hmem with hold | ⟨rfl, hnew⟩
  · exact h.inbox a m hold hl
  · exact hm m hnew.symm hl

theorem tied_take (s : St) (b : AgentId) (msg : AgentMsg) (rest : List AgentMsg) (hi : s.inbox b = msg :: rest)
    (h : Tied s) : Tied (take s b rest) :=
  ⟨h.front, h.entry, fun a m hm => h.inbox a m (mem_take s b a msg _ rest hi hm), h.box⟩

theorem tied_request (s : St) (b : AgentId) (msg : ApiMsg) (stage : Stage) (h : Tied s)
    (hm : ∀ c, msg = .call c → c.IsLogin → s.net.conn c.clientFd ≠ none) : Tied (request s b msg stage) := by
  refine ⟨h.front, h.entry, h.inbox, fun e he c hec hl => ?_⟩
  rcases List.mem_append.1 he with he | he
  · exact h.box e he c hec hl
  · rw [List.mem_singleton.1 he] at hec; exact hm c hec hl

theorem tied_settle (s : St) (r : ReqId) (b : AgentId) (p : ObjectBase.Proc Result) (h : Tied s) :
    Tied (settle s r b p) := by
  cases p with
  | ret res => exact tied_post s b _ h (by simp)
  | raise => exact tied_post s b _ h (by simp)
  | call q k => exact ⟨h.front, h.entry, h.inbox, h.box⟩

/-- only a login makes an entry where there was none -/
theorem entry_of_step (m : SessionMap) (c : Call) (fd : Fd) (h : Sessions.step m c fd ≠ none) :
    m fd ≠ none ∨ c.clientFd = fd ∧ c.IsLogin := by
  by_cases hfd : c.clientFd = fd
  · by_cases hl : c.IsLogin
    · exact Or.inr ⟨hfd, hl⟩
    · refine Or.inl fun hm => h ?_
      rw [step_refused m c (accepts_unknown m c hl (hfd ▸ hm)), hm]
  · exact Or.inl (by rwa [step_other m c fd hfd] at h)

/-! ## Guarded steps -/

/-- the fd whose connection an operation closes -/
def closesConn : Op → Option Fd
  | .net (.drop fd _) => some fd
  | .kicked fd _ => some fd
  | _ => none

/-- connections are closed only while unused -/
def ClosedUnused (s : St) (o : Op) : Prop := ∀ fd, closesConn o = some fd → Unused s fd

theorem netStep_conn (n : Net) (o : NetOp) (fd : Fd) (h : n.conn fd ≠ none) :
    (netStep n o).conn fd ≠ none ∨ ∃ error, o = .drop fd error := by
  have hset : ∀ fd' x, x ≠ none → Function.update n.conn fd' x fd ≠ none := by
    intro fd' x hx
    by_cases hfd : fd = fd'
    · subst hfd; rwa [Function.update_self]
    · rwa [Function.update_of_ne hfd]
  cases o with
  | accept fd' =>
    refine Or.inl ?_
    simp only [netStep]
    split_ifs
    · exact hset fd' _ (by simp)
    · exact h
  | drop fd' error =>
    by_cases hfd : fd = fd'
    · exact Or.inr ⟨error, by rw [hfd]⟩
    · refine Or.inl ?_
      simp only [netStep]
      split_ifs
      · exact h
      all_goals simpa [Function.update_of_ne hfd] using h
  | dogTurn =>
    refine Or.inl ?_
    simp only [netStep]
    cases n.dogBox <;> exact h
  | dogClose fd' => exact Or.inl h
  | launched fd' ok => exact Or.inl h
  | started fd' a ok =>
    refine Or.inl ?_
    simp only [netStep]
    split_ifs
    · exact hset fd' _ (by simp)
    · exact h
    · exact h

theorem netStep_clientFd (n : Net) (o : NetOp) (hf : Front n) (a : AgentId) (fd : Fd) (h : n.clientFd a = some fd) :
    (netStep n o).clientFd a = some fd := by
  cases o with
  | accept fd' => simp only [netStep]; split_ifs <;> exact h
  | drop fd' error => simp only [netStep]; split_ifs <;> exact h
  | dogTurn => simp only [netStep]; cases n.dogBox <;> exact h
  | dogClose fd' => exact h
  | launched fd' ok => exact h
  | started fd' b ok =>
    by_cases hm : .starting fd' b ∈ n.dog.suspended
    · -- an agent that has a client_fd is not started again
      have hne : a ≠ b := by
        rintro rfl
        rw [(front_started n fd' a ok hm hf).1] at h
        cases h
      simp only [netStep, if_pos hm]
      rwa [Function.update_of_ne hne]
    · simpa [netStep, hm] using h

theorem step_tied (codec : Codec) (s : St) (o : Op) (hg : ClosedUnused s o) (h : Tied s) : Tied (step codec s o) := by
  have he := step_effect codec s o
  generalize step codec s o = s' at he ⊢
  cases he with
  | idle => exact h
  | net o =>
    refine tied_net s _ h (front_step s.net o h.front) (fun fd hfd => ?_) (netStep_clientFd s.net o h.front)
    rcases netStep_conn s.net o fd hfd with hc | ⟨error, rfl⟩
    · exact Or.inl hc
    · exact Or.inr (hg fd rfl)
  | kicked fd a hk =>
    refine tied_post _ a _ (tied_net s _ h (front_kick s.net fd a h.front) (fun fd' hfd' => ?_) fun _ _ hc => hc)
      (by simp)
    by_cases hfd : fd' = fd
    · exact Or.inr (hfd ▸ hg fd rfl)
    · exact Or.inl (by simpa [kick, Function.update_of_ne hfd] using hfd')
  | frame fd m a hc =>
    exact tied_post s a _ h fun m' _ _ => ⟨fd, h.front.forwarded fd a hc, by rw [hc]; simp⟩
  | ignores a msg rest hi hm => exact tied_take s a msg rest hi h
  | calls a m rest hi fd hfd cmd hc =>
    have ht := tied_take s a _ rest hi h
    refine tied_request (log (take s a rest) a m) a _ _ ⟨ht.front, ht.entry, ht.inbox, ht.box⟩ fun c he hl => ?_
    cases he
    have hlogin : m.IsLogin := ⟨command_receivedApiCall m (hl.1 ▸ hc), hl.2⟩
    obtain ⟨fd', hfd', hconn⟩ := h.inbox a m (by rw [hi]; exact List.mem_cons_self) hlogin
    rw [hfd, Option.some.injEq] at hfd'
    exact hfd' ▸ hconn
  | unknown a m rest hi hc =>
    have ht := tied_take s a _ rest hi h
    exact tied_request (log (take s a rest) a m) a _ _ ⟨ht.front, ht.entry, ht.inbox, ht.box⟩ (by simp)
  | finishes a res rest c hi hb ha hres =>
    have ht := tied_take s a _ rest hi h
    exact ⟨ht.front, ht.entry, ht.inbox, ht.box⟩
  | writes a p rest c hi hb ha =>
    have ht := tied_take s a _ rest hi h
    exact ⟨ht.front, ht.entry, ht.inbox, ht.box⟩
  | syncs a rest c hi hb ha =>
    have ht := tied_take s a _ rest hi h
    exact tied_request (unblock (take s a rest) c) a _ _ ⟨ht.front, ht.entry, ht.inbox, ht.box⟩ (by simp)
  | exits a rest hi =>
    have ht := tied_take s a _ rest hi h
    exact ⟨ht.front, ht.entry, fun b m hm => ht.inbox b m (mem_exit _ a b _ hm), ht.box⟩
  | unanswered e rest hb he =>
    exact ⟨h.front, h.entry, h.inbox, fun e' he' => h.box e' (by rw [hb]; exact List.mem_cons_of_mem _ he')⟩
  | handles e rest hb c he =>
    refine tied_settle _ e.req e.agent _ ⟨h.front, fun fd hfd => ?_, h.inbox,
      fun e' he' => h.box e' (by rw [hb]; exact List.mem_cons_of_mem _ he')⟩
    simp only [handle_map] at hfd
    rcases entry_of_step s.networkSessionMap c fd hfd with hold | ⟨rfl, hl⟩
    · exact h.entry fd hold
    · exact h.box e (by rw [hb]; exact List.mem_cons_self) c he hl
  | replied x answer hf q k hr => exact tied_settle _ x.req x.agent _ ⟨h.front, h.entry, h.inbox, h.box⟩

/-- **Sessions end with their connections** in every run that closes connections only while they are unused: an fd with a
session is connected; and when an fd is not connected, of all messages of this fd that owlies_api handles from then on
none is accepted before a login. -/
theorem sessions_end_with_connections (codec : Codec) (ops : List Op)
    (hg : Guarded (step codec) ClosedUnused init ops) :
    (∀ fd, (run (step codec) init ops).networkSessionMap fd ≠ none → (run (step codec) init ops).net.conn fd ≠ none) ∧
      ∀ fd, (run (step codec) init ops).net.conn fd = none → ∀ cs : List Call,
        (∀ c ∈ cs, c.clientFd = fd → ¬ c.IsLogin) →
          acceptedSessions fd (run (step codec) init ops).networkSessionMap cs = [] := by
  have h := guarded_inv (step codec) ClosedUnused Tied (step_tied codec) init ops hg tied_init
  refine ⟨h.entry, fun fd hfd cs hcs => ?_⟩
  have hnone : (run (step codec) init ops).networkSessionMap fd = none := by
    by_contra hne
    exact h.entry fd hne hfd
  exact (before_login fd _ cs hnone hcs).1

theorem guarded_of_no_close (codec : Codec) (s : St) (ops : List Op) (h : ∀ o ∈ ops, closesConn o = none) :
    Guarded (step codec) ClosedUnused s ops := by
  induction ops generalizing s with
  | nil => trivial
  | cons o ops ih =>
    obtain ⟨ho, hops⟩ := List.forall_mem_cons.1 h
    refine ⟨fun fd hfd => ?_, ih _ hops⟩
    rw [ho] at hfd
    cases hfd

/-- while a client is logged in on fd 4, another one connects -/
def visited : List Op :=
  servedLogin ++ [.agentTurn 0, .net (.accept 5), .net .dogTurn, .net (.launched 5 true), .net (.started 5 1 true)]

/-- it leaves without logging in -/
def passerBy : List Op := visited ++ [.net (.drop 5 false)]

theorem sessions_end_sample :
    Guarded (step lenient) ClosedUnused init passerBy ∧ (run (step lenient) init passerBy).networkSessionMap 4 = some 1 ∧
      ∀ cs : List Call, (∀ c ∈ cs, c.clientFd = 5 → ¬ c.IsLogin) →
        acceptedSessions 5 (run (step lenient) init passerBy).networkSessionMap cs = [] := by
  have hg : Guarded (step lenient) ClosedUnused init passerBy := by
    rw [passerBy, guarded_append]
    refine ⟨guarded_of_no_close lenient init visited (by decide), fun fd hfd => ?_, trivial⟩
    cases hfd
    refine ⟨by decide, fun a m hm => ?_, fun e he => ?_⟩
    · rcases a with _ | _ | a
      · cases hm
      · cases hm
      · cases hm
    · cases he
  exact ⟨hg, by decide, (sessions_end_with_connections lenient passerBy hg).2 5 (by decide)⟩

/-- a client logs in and leaves; watchdog and agent finish -/
def loginAndLeave : List Op :=
  servedLogin ++ [.agentTurn 0, .net (.drop 4 false), .net .dogTurn, .kicked 4 0, .agentTurn 0]

/-- the next client gets the same fd and sends session 2, without logging in -/
def heir : List Op :=
  loginAndLeave ++ [.net (.accept 4), .net .dogTurn, .net (.launched 4 true), .net (.started 4 1 true),
    .frame 4 ⟨[], 2, MessageRequestType.ApiCall, ascii "Move"⟩, .agentTurn 1, .apiTurn]

/-- **A session outlives its connection.** After the disconnect everything is quiet and connection 4 is closed, but its
session is still there; the first message of the next client on this fd, no login, is accepted. -/
theorem session_outlives_connection :
    Quiet (run (step lenient) init loginAndLeave) ∧
      (run (step lenient) init loginAndLeave).net.dog.suspended = [] ∧
      (run (step lenient) init loginAndLeave).net.dogBox = [] ∧
      (run (step lenient) init loginAndLeave).net.conn 4 = none ∧
      (run (step lenient) init loginAndLeave).networkSessionMap 4 = some 1 ∧
      (run (step lenient) init heir).networkSessionMap 4 = some 2 := by
  refine ⟨⟨by decide, rfl, fun a => ?_⟩, by decide, by decide, by decide, by decide, by decide⟩
  cases a <;> rfl

end OwliesServer.Server
