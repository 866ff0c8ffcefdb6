/-
The gate service: the packet filter (`Netpack`), the connection table of gateserver.lua and the one of gate.lua
(3rd/skynet/lualib/snax/gateserver.lua, 3rd/skynet/service/gate.lua).

`step` handles one message, of the socket thread or of another service, and appends what the gate does to `out`. The
handlers of gate.lua never yield, so a message is handled to its end, and the packages queued by the filter are all
dispatched before the next one: `dispatch_queue` forks itself before the first one, so a failing handler would not stop
the others. Log texts are left out, except that a dropped package is an output. Before it is opened the gate has no
watchdog, and a send to it raises; connections come in only behind a listen socket (`Listening`).

- `gate_delivers_packages`: whatever the cuts and the interleaving of the connections, the packages the gate hands on
  (or drops) for an fd are exactly the packages its peers have written, in order.
- `gate_tables_agree`: the two tables have the same connections, the counter counts them and stays below the limit, and
  no message of the socket thread makes a handler fail.
- `forwarded_until_released`: after a forward, every package of the fd goes to the agent until the connection is closed
  or given away.
-/
import OwliesServer.Core.Machine
import OwliesServer.Net.Netpack

namespace OwliesServer.Gate

open OwliesServer.CChar OwliesServer.Framing OwliesServer.Netpack OwliesServer.Machine

/-! ## Model -/

abbrev Handle := ℕ

/-- an entry of gate.lua's `connection` -/
structure Connection where
  ip : Bytes
  agent : Option Handle
  client : Option ℕ
deriving DecidableEq, Repr

/-- what the gate tells the watchdog -/
inductive Event where
  | opened (fd : Fd) (addr : Bytes)
  | data (fd : Fd) (msg : Bytes)
  | close (fd : Fd)
  | error (fd : Fd) (msg : Bytes)
  | warning (fd : Fd) (size : ℕ)
deriving DecidableEq, Repr

inductive Out where
  /-- a package of `fd` goes to the agent, in the name of the client -/
  | redirect (fd : Fd) (agent : Handle) (client : Option ℕ) (msg : Bytes)
  | send (watchdog : Handle) (e : Event)
  /-- "Drop message from fd" -/
  | drop (fd : Fd) (msg : Bytes)
  /-- the calls of the socket driver -/
  | start (fd : Fd)
  | close (fd : Fd)
  | nodelay (fd : Fd)
  /-- the reply to a command -/
  | ret
  /-- the coroutine ends with a Lua error -/
  | raised
deriving DecidableEq, Repr

structure Conf where
  port : Option ℕ
  maxclient : Option ℕ
  nodelay : Bool
  watchdog : Option Handle
deriving DecidableEq, Repr

structure St where
  /-- the listen socket -/
  socket : Option Fd
  queue : Option Queue
  maxclient : Option ℕ
  clientNumber : ℤ
  nodelay : Bool
  /-- gateserver.lua's `connection`: true while packages are dispatched, false once the gate has closed the fd -/
  opened : Fd → Option Bool
  /-- gate.lua's `connection` -/
  connection : Fd → Option Connection
  watchdog : Option Handle
  out : List Out

def init : St := ⟨none, none, none, 0, false, fun _ => none, fun _ => none, none, []⟩

def emit (s : St) (outs : List Out) : St := { s with out := s.out ++ outs }

inductive Op where
  | socket (m : SocketMessage)
  /-- CMD.open; `listen` is the answer of the socket driver, `none` if it fails -/
  | open_ (source : Handle) (conf : Conf) (listen : Option Fd)
  | close
  | forward (source : Handle) (fd : Fd) (client : Option ℕ) (address : Option Handle)
  | accept (fd : Fd)
  | kick (fd : Fd)
  /-- a command that is neither in gateserver.lua nor in gate.lua -/
  | unknown

/-! ### gate.lua -/

/-- `skynet.send(watchdog, ...)`, which raises without an address -/
def tell (s : St) (e : Event) : Out :=
  match s.watchdog with
  | some watchdog => .send watchdog e
  | none => .raised

/-- `handler.message` -/
def message (s : St) (fd : Fd) (msg : Bytes) : Out :=
  match s.connection fd with
  | none => .raised
  | some c =>
    match c.agent with
    | some agent => .redirect fd agent c.client msg
    | none => tell s (.data fd msg)

def unforward (c : Connection) : Connection :=
  match c.agent with
  | some _ => { c with agent := none, client := none }
  | none => c

/-- `handler.connect` -/
def connect (s : St) (fd : Fd) (addr : Bytes) : St :=
  emit { s with connection := Function.update s.connection fd (some ⟨addr, none, none⟩) } [tell s (.opened fd addr)]

/-- `handler.disconnect` and `handler.error`: the entry is removed, and the watchdog is told -/
def disconnect (s : St) (fd : Fd) (e : Event) : St :=
  emit { s with connection := Function.update s.connection fd none } [tell s e]

/-! ### gateserver.lua -/

def openclient (s : St) (fd : Fd) : St := if s.opened fd = some true then emit s [.start fd] else s

def closeclient (s : St) (fd : Fd) : St :=
  if s.opened fd = some true then emit { s with opened := Function.update s.opened fd (some false) } [.close fd] else s

def dispatchMsg (s : St) (fd : Fd) (msg : Bytes) : Out :=
  if s.opened fd = some true then message s fd msg else .drop fd msg

/-- the packages popped by `dispatch_queue`, until the queue is empty -/
def popAll : ℕ → Option Queue → List Pack × Option Queue
  | 0, q => ([], q)
  | n + 1, q =>
    match pop q with
    | none => ([], q)
    | some (p, q') => (p :: (popAll n q').1, (popAll n q').2)

def dispatchQueue (s : St) : St :=
  let (packs, q) := popAll (getQueue s.queue).queue.length s.queue
  emit { s with queue := q } (packs.map fun p => dispatchMsg s p.id p.buffer)

/-- `close_fd` of gateserver.lua -/
def closeFd (s : St) (fd : Fd) : St :=
  if s.opened fd ≠ none then
    { s with opened := Function.update s.opened fd none, clientNumber := s.clientNumber - 1 }
  else s

/-- the handler of gate.lua, and `close_fd` if it has not raised -/
def disconnectFd (s : St) (fd : Fd) (e : Event) : St :=
  match s.watchdog with
  | some _ => closeFd (disconnect s fd e) fd
  | none => disconnect s fd e

/-- `MSG.open` -/
def msgOpen (s : St) (fd : Fd) (addr : Bytes) : St :=
  match s.maxclient with
  -- nil is not compared with a number
  | none => emit s [.raised]
  | some maxclient =>
    if (maxclient : ℤ) ≤ s.clientNumber then emit s [.close fd]
    else
      let s := if s.nodelay then emit s [.nodelay fd] else s
      connect { s with opened := Function.update s.opened fd (some true), clientNumber := s.clientNumber + 1 } fd addr

/-- `MSG[type](...)` -/
def handle (s : St) : Message → St
  | .data fd msg => emit s [dispatchMsg s fd msg]
  | .more => dispatchQueue s
  | .opened fd addr => msgOpen s fd addr
  | .close fd => if s.socket ≠ some fd then disconnectFd s fd (.close fd) else { s with socket := none }
  | .error fd msg => if s.socket = some fd then emit s [.close fd] else disconnectFd s fd (.error fd msg)
  | .warning fd size => emit s [tell s (.warning fd size)]

/-- a message of the socket thread -/
def dispatch (s : St) (m : SocketMessage) : St :=
  match filter s.queue m with
  | (q, none) => { s with queue := q }
  | (q, some msg) => handle { s with queue := q } msg

def step (s : St) : Op → St
  | .socket m => dispatch s m
  | .open_ source conf listen =>
    match s.socket, conf.port with
    | none, some _ =>
      let s := { s with maxclient := some (conf.maxclient.getD 1024), nodelay := conf.nodelay }
      match listen with
      | none => emit s [.raised]
      | some socket => emit { s with socket := some socket, watchdog := some (conf.watchdog.getD source) } [.start socket, .ret]
    | _, _ => emit s [.raised]
  | .close =>
    match s.socket with
    | none => emit s [.raised]
    | some socket => emit s [.close socket, .ret]
  | .forward source fd client address =>
    match s.connection fd with
    | none => emit s [.raised]
    | some c =>
      let c := { unforward c with client := some (client.getD 0), agent := some (address.getD source) }
      emit (openclient { s with connection := Function.update s.connection fd (some c) } fd) [.ret]
  | .accept fd =>
    match s.connection fd with
    | none => emit s [.raised]
    | some c => emit (openclient { s with connection := Function.update s.connection fd (some (unforward c)) } fd) [.ret]
  | .kick fd => emit (closeclient s fd) [.ret]
  | .unknown => emit s [.raised]

/-! ## What the socket thread reported about an fd -/

/-- the bytes of the connections of `fd` that are over, and those of the current one -/
def receive (fd : Fd) (acc : List Bytes × Bytes) : Op → List Bytes × Bytes
  | .socket (.data id b bs) => if id = fd then (acc.1, acc.2 ++ b :: bs) else acc
  | .socket (.close id) => if id = fd then (acc.1 ++ [acc.2], []) else acc
  | .socket (.error id _) => if id = fd then (acc.1 ++ [acc.2], []) else acc
  | _ => acc

def received (fd : Fd) (ops : List Op) : List Bytes × Bytes := ops.foldl (receive fd) ([], [])

/-- the package of `fd` that an output hands on or drops -/
def carried (fd : Fd) : Out → Option Bytes
  | .redirect fd' _ _ msg => if fd' = fd then some msg else none
  | .send _ (.data fd' msg) => if fd' = fd then some msg else none
  | .drop fd' msg => if fd' = fd then some msg else none
  | _ => none

/-- connections come in once the gate is open -/
def Listening (s : St) : Op → Prop
  | .socket (.accept _ _) => s.watchdog ≠ none
  | _ => True

/-! ## The two tables -/

@[simp] theorem emit_opened (s : St) (outs : List Out) : (emit s outs).opened = s.opened := rfl

@[simp] theorem emit_connection (s : St) (outs : List Out) : (emit s outs).connection = s.connection := rfl

@[simp] theorem emit_watchdog (s : St) (outs : List Out) : (emit s outs).watchdog = s.watchdog := rfl

@[simp] theorem emit_queue (s : St) (outs : List Out) : (emit s outs).queue = s.queue := rfl

@[simp] theorem emit_out (s : St) (outs : List Out) : (emit s outs).out = s.out ++ outs := rfl

/-- two tables with entries for the same fds -/
def SameKeys {α β : Type} (t : Fd → Option α) (u : Fd → Option β) : Prop := ∀ fd, t fd = none ↔ u fd = none

section SameKeys

variable {α β : Type} {t : Fd → Option α} {u : Fd → Option β} (h : SameKeys t u) (fd : Fd)

include h

theorem SameKeys.update {x : Option α} {y : Option β} (hxy : x = none ↔ y = none) :
    SameKeys (Function.update t fd x) (Function.update u fd y) := by
  intro fd'
  by_cases hfd : fd' = fd
  · rw [hfd, Function.update_self, Function.update_self]
    exact hxy
  · rw [Function.update_of_ne hfd, Function.update_of_ne hfd]
    exact h fd'

theorem SameKeys.update_left {x : Option α} (hx : x = none ↔ u fd = none) : SameKeys (Function.update t fd x) u := by
  have hboth := h.update fd hx
  rwa [Function.update_eq_self] at hboth

theorem SameKeys.update_right {y : Option β} (hy : t fd = none ↔ y = none) : SameKeys t (Function.update u fd y) := by
  have hboth := h.update fd hy
  rwa [Function.update_eq_self] at hboth

end SameKeys

/-- gateserver.lua and gate.lua know the same connections -/
def Agree (s : St) : Prop := SameKeys s.opened s.connection

/-- there are no connections without a watchdog, and no watchdog without a limit -/
def Watched (s : St) : Prop :=
  (s.watchdog = none → ∀ fd, s.opened fd = none) ∧ (s.watchdog ≠ none → s.maxclient ≠ none)

theorem agree_openclient {s : St} (hs : Agree s) (fd : Fd) : Agree (openclient s fd) := by
  unfold openclient
  split_ifs
  · exact hs
  · exact hs

theorem agree_closeclient {s : St} (hs : Agree s) (fd : Fd) : Agree (closeclient s fd) := by
  unfold closeclient
  split_ifs with h
  · apply hs.update_left fd
    rw [← hs fd, h]
    simp
  · exact hs

/-- the entry of an fd is removed from gate.lua's table, then from gateserver.lua's -/
theorem agree_disconnectFd {s : St} (hs : Agree s) (hw : Watched s) (fd : Fd) (e : Event) : Agree (disconnectFd s fd e) := by
  unfold disconnectFd
  cases hwatch : s.watchdog with
  | none => exact hs.update_right fd (iff_of_true (hw.1 hwatch fd) rfl)
  | some watchdog =>
    simp only [closeFd]
    split_ifs with h
    · exact hs.update fd (by simp)
    · apply hs.update_right fd
      simpa [disconnect] using h

theorem agree_msgOpen {s : St} (hs : Agree s) (fd : Fd) (addr : Bytes) : Agree (msgOpen s fd addr) := by
  unfold msgOpen
  split
  · exact hs
  · split_ifs
    · exact hs
    · exact hs.update fd (by simp)
    · exact hs.update fd (by simp)

theorem agree_handle {s : St} (hs : Agree s) (hw : Watched s) (m : Message) : Agree (handle s m) := by
  cases m with
  | data fd msg => exact hs
  | more => exact hs
  | opened fd addr => exact agree_msgOpen hs fd addr
  | close fd =>
    simp only [handle]
    split_ifs
    · exact agree_disconnectFd hs hw fd _
    · exact hs
  | error fd msg =>
    simp only [handle]
    split_ifs
    · exact hs
    · exact agree_disconnectFd hs hw fd _
  | warning fd size => exact hs

theorem agree_dispatch {s : St} (hs : Agree s) (hw : Watched s) (m : SocketMessage) : Agree (dispatch s m) := by
  unfold dispatch
  split
  · exact hs
  · rename_i q msg _
    exact agree_handle (s := { s with queue := q }) hs hw msg

theorem agree_step {s : St} (hs : Agree s) (hw : Watched s) (o : Op) : Agree (step s o) := by
  cases o with
  | socket m => exact agree_dispatch hs hw m
  | open_ source conf listen =>
    simp only [step]
    split
    · split
      · exact hs
      · exact hs
    · exact hs
  | close =>
    simp only [step]
    split
    · exact hs
    · exact hs
  | forward source fd client address =>
    simp only [step]
    split
    · exact hs
    · rename_i c hc
      refine agree_openclient ?_ fd
      exact hs.update_right fd (by simp [hs fd, hc])
  | accept fd =>
    simp only [step]
    split
    · exact hs
    · rename_i c hc
      refine agree_openclient ?_ fd
      exact hs.update_right fd (by simp [hs fd, hc])
  | kick fd => exact agree_closeclient hs fd
  | unknown => exact hs

/-! ## The watchdog -/

theorem watched_openclient {s : St} (h : Watched s) (fd : Fd) : Watched (openclient s fd) := by
  unfold openclient
  split_ifs
  · exact h
  · exact h

theorem watched_disconnectFd {s : St} (h : Watched s) (fd : Fd) (e : Event) : Watched (disconnectFd s fd e) := by
  unfold disconnectFd
  cases hwatch : s.watchdog with
  | none => exact h
  | some watchdog =>
    simp only [closeFd]
    split_ifs
    · exact ⟨fun hnone => absurd (hwatch.symm.trans hnone) (by simp), h.2⟩
    · exact h

/-- bytes change nothing but the packet filter and the outputs: their packages are dispatched, if there are any -/
theorem dispatch_data (s : St) (id : Fd) (b : Byte) (bs : Bytes) :
    ∃ (q : Option Queue) (packs : List Pack), dispatch s (.data id b bs) =
      emit { s with queue := q } (packs.map fun p => dispatchMsg s p.id p.buffer) := by
  have hm := filterData_message s.queue id b bs
  unfold dispatch
  rw [filter]
  generalize filterData s.queue id b bs = r at hm
  obtain ⟨q, m⟩ := r
  rcases hm with rfl | rfl | ⟨msg, rfl⟩
  · exact ⟨q, [], by simp [emit]⟩
  · exact ⟨_, _, rfl⟩
  · exact ⟨q, [⟨id, msg⟩], rfl⟩

theorem watched_step {s : St} (h : Watched s) (o : Op) (ho : Listening s o) : Watched (step s o) := by
  cases o with
  | socket m =>
    cases m with
    | data id b bs =>
      obtain ⟨q, packs, hd⟩ := dispatch_data s id b bs
      rw [step, hd]
      exact h
    | connect id => exact h
    | close id =>
      simp only [step, dispatch, filter, handle]
      split_ifs
      · exact watched_disconnectFd (s := { s with queue := closeUncomplete s.queue id }) h id _
      · exact h
    | accept ud addr =>
      simp only [step, dispatch, filter, handle, msgOpen]
      split
      · exact h
      · split_ifs
        · exact h
        · exact ⟨fun hnone => absurd hnone ho, h.2⟩
        · exact ⟨fun hnone => absurd hnone ho, h.2⟩
    | error id msg =>
      simp only [step, dispatch, filter, handle]
      split_ifs
      · exact h
      · exact watched_disconnectFd (s := { s with queue := closeUncomplete s.queue id }) h id _
    | warning id ud => exact h
  | open_ source conf listen =>
    simp only [step]
    split
    · split
      · exact ⟨h.1, fun _ hnone => absurd hnone (by simp [emit])⟩
      · exact ⟨fun hnone => absurd hnone (by simp), fun _ hnone => absurd hnone (by simp [emit])⟩
    · exact h
  | close =>
    simp only [step]
    split
    · exact h
    · exact h
  | forward source fd client address =>
    simp only [step]
    split
    · exact h
    · refine watched_openclient ?_ fd
      exact h
  | accept fd =>
    simp only [step]
    split
    · exact h
    · refine watched_openclient ?_ fd
      exact h
  | kick fd =>
    simp only [step, closeclient]
    split_ifs with hopen
    · refine ⟨fun hnone => ?_, h.2⟩
      rw [h.1 hnone fd] at hopen
      exact absurd hopen (by simp)
    · exact h
  | unknown => exact h

/-- the two tables agree, and there are a watchdog and a limit for what is in them -/
structure Sound (s : St) : Prop where
  agree : Agree s
  watched : Watched s

theorem sound_step {s : St} (h : Sound s) (o : Op) (ho : Listening s o) : Sound (step s o) :=
  ⟨agree_step h.agree h.watched o, watched_step h.watched o ho⟩

theorem sound_init : Sound init := ⟨fun _ => ⟨fun _ => rfl, fun _ => rfl⟩, fun _ _ => rfl, fun h => absurd rfl h⟩

theorem sound_run (ops : List Op) (h : Guarded step Listening init ops) : Sound (run step init ops) :=
  guarded_inv step Listening Sound (fun _ o ho hs => sound_step hs o ho) init ops h sound_init

/-- while a connection is open the watchdog is told -/
theorem tell_of_opened {s : St} (hs : Sound s) {fd : Fd} {b : Bool} (h : s.opened fd = some b) :
    ∃ watchdog, ∀ e, tell s e = .send watchdog e := by
  cases hwatch : s.watchdog with
  | none => exact absurd (h.symm.trans (hs.watched.1 hwatch fd)) (by simp)
  | some watchdog => exact ⟨watchdog, fun e => by rw [tell, hwatch]⟩

/-! ## Delivery -/

theorem popAll_spec {q : Option Queue} {rest : Fd → Bytes} {packs : List Pack} (hq : Is q rest packs) (n : ℕ)
    (hn : packs.length ≤ n) : (popAll n q).1 = packs ∧ Is (popAll n q).2 rest [] := by
  induction n generalizing q packs with
  | zero =>
    obtain rfl : packs = [] := by simpa using hn
    exact ⟨rfl, hq⟩
  | succ n ih =>
    rcases pop_spec hq with ⟨hp, rfl⟩ | ⟨p, q', packs', hp, rfl, hq'⟩
    · rw [popAll, hp]
      exact ⟨rfl, hq⟩
    · obtain ⟨h1, h2⟩ := ih hq' (by simpa using hn)
      rw [popAll, hp]
      exact ⟨congrArg (p :: ·) h1, h2⟩

/-- the handler finds the connection of a package that is dispatched -/
theorem message_of_opened {s : St} (hs : Sound s) (fd : Fd) (msg : Bytes) (h : s.opened fd = some true) :
    (∃ agent client, message s fd msg = .redirect fd agent client msg) ∨
      ∃ watchdog, message s fd msg = .send watchdog (.data fd msg) := by
  have hne : s.connection fd ≠ none := by
    intro hc
    rw [(hs.agree fd).2 hc] at h
    exact absurd h (by simp)
  obtain ⟨c, hc⟩ := Option.ne_none_iff_exists'.1 hne
  cases hagent : c.agent with
  | some agent => exact .inl ⟨agent, c.client, by simp only [message, hc, hagent]⟩
  | none =>
    obtain ⟨watchdog, htell⟩ := tell_of_opened hs h
    exact .inr ⟨watchdog, by simp only [message, hc, hagent, htell]⟩

/-- a package that is dispatched is handed on or dropped -/
theorem carried_dispatchMsg {s : St} (hs : Sound s) (fd fd' : Fd) (msg : Bytes) :
    carried fd (dispatchMsg s fd' msg) = if fd' = fd then some msg else none := by
  unfold dispatchMsg
  by_cases hopen : s.opened fd' = some true
  · rw [if_pos hopen]
    rcases message_of_opened hs fd' msg hopen with ⟨agent, client, h⟩ | ⟨watchdog, h⟩
    · rw [h]
      rfl
    · rw [h]
      rfl
  · rw [if_neg hopen]
    rfl

/-- only data carry a package -/
theorem carried_tell (s : St) (fd : Fd) {e : Event} (he : ∀ fd msg, e ≠ .data fd msg) : carried fd (tell s e) = none := by
  unfold tell
  cases s.watchdog with
  | none => rfl
  | some watchdog =>
    cases e with
    | data fd' msg => exact absurd rfl (he fd' msg)
    | _ => rfl

theorem carried_nodelay (fd fd' : Fd) : carried fd (.nodelay fd') = none := rfl

theorem filterMap_carried {s : St} (hs : Sound s) (fd fd' : Fd) (msgs : List Bytes) :
    ((msgs.map (Pack.mk fd')).map fun p => dispatchMsg s p.id p.buffer).filterMap (carried fd) =
      if fd' = fd then msgs else [] := by
  rw [List.filterMap_map, List.filterMap_map]
  simp only [Function.comp_def, carried_dispatchMsg hs]
  split_ifs with h
  · exact List.filterMap_some
  · simp

/-- the packet filter is not touched, and no package is handed on -/
structure Quiet (s s' : St) : Prop where
  queue : s'.queue = s.queue
  out : ∀ fd, s'.out.filterMap (carried fd) = s.out.filterMap (carried fd)

theorem quiet_emit {s s' : St} (h : Quiet s s') (outs : List Out) (hc : ∀ fd, outs.filterMap (carried fd) = []) :
    Quiet s (emit s' outs) := by
  refine ⟨h.queue, fun fd => ?_⟩
  rw [emit_out, List.filterMap_append, hc, List.append_nil]
  exact h.out fd

theorem quiet_disconnectFd (s : St) (fd : Fd) {e : Event} (he : ∀ fd msg, e ≠ .data fd msg) :
    Quiet s (disconnectFd s fd e) := by
  have hd : Quiet s (disconnect s fd e) := ⟨rfl, fun fd' => by simp [disconnect, carried_tell s fd' he]⟩
  unfold disconnectFd closeFd
  split
  · split_ifs
    · exact ⟨hd.queue, hd.out⟩
    · exact hd
  · exact hd

theorem quiet_handle_close (s : St) (fd : Fd) : Quiet s (handle s (.close fd)) := by
  simp only [handle]
  split_ifs
  · exact quiet_disconnectFd s fd (by simp)
  · exact ⟨rfl, fun _ => rfl⟩

theorem quiet_handle_error (s : St) (fd : Fd) (msg : Bytes) : Quiet s (handle s (.error fd msg)) := by
  simp only [handle]
  split_ifs
  · exact quiet_emit ⟨rfl, fun _ => rfl⟩ _ fun _ => rfl
  · exact quiet_disconnectFd s fd (by simp)

theorem quiet_msgOpen (s : St) (fd : Fd) (addr : Bytes) : Quiet s (msgOpen s fd addr) := by
  have hs : Quiet s s := ⟨rfl, fun _ => rfl⟩
  unfold msgOpen
  split
  · exact quiet_emit hs _ fun _ => rfl
  · split_ifs
    · exact quiet_emit hs _ fun _ => rfl
    · exact ⟨rfl, fun fd' => by simp [connect, carried_nodelay, carried_tell]⟩
    · exact ⟨rfl, fun fd' => by simp [connect, carried_tell]⟩

theorem quiet_openclient {s s' : St} (h : Quiet s s') (fd : Fd) : Quiet s (openclient s' fd) := by
  unfold openclient
  split_ifs
  · exact quiet_emit h _ fun _ => rfl
  · exact h

/-- the commands of other services -/
theorem quiet_command (s : St) (o : Op) (ho : ∀ m, o ≠ .socket m) : Quiet s (step s o) := by
  have hs : Quiet s s := ⟨rfl, fun _ => rfl⟩
  cases o with
  | socket m => exact absurd rfl (ho m)
  | open_ source conf listen =>
    simp only [step]
    split
    · split
      · exact ⟨rfl, fun fd => by simp [carried]⟩
      · exact ⟨rfl, fun fd => by simp [carried]⟩
    · exact quiet_emit hs _ fun _ => rfl
  | close =>
    simp only [step]
    split
    · exact quiet_emit hs _ fun _ => rfl
    · exact quiet_emit hs _ fun _ => rfl
  | forward source fd client address =>
    simp only [step]
    split
    · exact quiet_emit hs _ fun _ => rfl
    · refine quiet_emit (quiet_openclient ?_ fd) [.ret] fun _ => rfl
      exact ⟨rfl, fun _ => rfl⟩
  | accept fd =>
    simp only [step]
    split
    · exact quiet_emit hs _ fun _ => rfl
    · refine quiet_emit (quiet_openclient ?_ fd) [.ret] fun _ => rfl
      exact ⟨rfl, fun _ => rfl⟩
  | kick fd =>
    simp only [step, closeclient]
    split_ifs
    · exact ⟨rfl, fun fd => by simp [carried]⟩
    · exact quiet_emit hs _ fun _ => rfl
  | unknown => exact quiet_emit hs _ fun _ => rfl

/-- `acc fd` are the bytes the socket thread has reported for `fd`: the unfinished package waits in the filter, and the
finished ones have been handed on -/
structure Delivered (acc : Fd → List Bytes × Bytes) (s : St) : Prop where
  sound : Sound s
  queue : Is s.queue (fun fd => (packages (acc fd).2).2) []
  out : ∀ fd, s.out.filterMap (carried fd) = (acc fd).1.flatMap (fun b => (packages b).1) ++ (packages (acc fd).2).1

theorem Delivered.quiet {acc : Fd → List Bytes × Bytes} {s s' : St} (h : Delivered acc s) (hq : Quiet s s')
    (ha : Sound s') : Delivered acc s' :=
  ⟨ha, hq.queue ▸ h.queue, fun fd => (hq.out fd).trans (h.out fd)⟩

/-- bytes of one fd arrive: those of the others are left alone -/
theorem Delivered.data {acc : Fd → List Bytes × Bytes} {s : St} (h : Delivered acc s) (id : Fd) (b : Byte) (bs : Bytes) :
    Delivered (fun fd => receive fd (acc fd) (.socket (.data id b bs))) (dispatch s (.data id b bs)) := by
  obtain ⟨packs, hq, hd⟩ := filterData_spec h.queue id b bs
  -- the packages of the fd so far, and those that are complete now
  have happ := split_append streaming_readPack (acc id).2 (b :: bs)
  set new := packages ((packages (acc id).2).2 ++ b :: bs)
  have hall : packages ((acc id).2 ++ b :: bs) = ((packages (acc id).2).1 ++ new.1, new.2) := happ
  have hrest : (fun fd => (packages (receive fd (acc fd) (.socket (.data id b bs))).2).2) =
      Function.update (fun fd => (packages (acc fd).2).2) id new.2 := by
    funext fd
    by_cases hfd : id = fd
    · subst hfd
      simp [receive, hall]
    · simp [receive, hfd, Function.update_of_ne (Ne.symm hfd)]
  have hout : ∀ fd, (acc fd).1.flatMap (fun b => (packages b).1) ++ (packages (acc fd).2).1 ++
      (if id = fd then new.1 else []) = (receive fd (acc fd) (.socket (.data id b bs))).1.flatMap
        (fun b => (packages b).1) ++ (packages (receive fd (acc fd) (.socket (.data id b bs))).2).1 := by
    intro fd
    by_cases hfd : id = fd
    · subst hfd
      simp [receive, hall]
    · simp [receive, hfd]
  have hsound : Sound (dispatch s (.data id b bs)) := sound_step h.sound (.socket (.data id b bs)) trivial
  rw [dispatch, filter] at hsound ⊢
  generalize filterData s.queue id b bs = r at *
  obtain ⟨q, m⟩ := r
  cases hd with
  | nothing hnil =>
    refine ⟨hsound, hrest ▸ hq, fun fd => ?_⟩
    rw [← hout fd, hnil, ite_self, List.append_nil]
    exact h.out fd
  | returned msg hmsg =>
    refine ⟨hsound, hrest ▸ hq, fun fd => ?_⟩
    have hc := carried_dispatchMsg (s := { s with queue := q }) ⟨h.sound.agree, h.sound.watched⟩ fd id msg
    rw [← hout fd, hmsg, ← h.out fd]
    simp only [handle, emit_out, List.filterMap_append]
    split_ifs at hc ⊢ with hfd
    · simp [hc]
    · simp [hc]
  | queued =>
    have hlen : (getQueue q).queue.length = (new.1.map (Pack.mk id)).length := by
      rw [← Ring.length_contents, hq.packs_eq]
      rfl
    obtain ⟨hpop, hempty⟩ := popAll_spec hq (getQueue q).queue.length hlen.ge
    refine ⟨hsound, hrest ▸ hempty, fun fd => ?_⟩
    have hc := filterMap_carried (s := { s with queue := q }) ⟨h.sound.agree, h.sound.watched⟩ fd id new.1
    rw [← hout fd, ← hc, ← h.out fd]
    simp only [handle, dispatchQueue, emit_out, List.filterMap_append, hpop]
    rfl

/-- a connection is over: its unfinished package is forgotten -/
theorem Delivered.over {acc : Fd → List Bytes × Bytes} {s s' : St} (h : Delivered acc s) (id : Fd)
    (hq : Quiet { s with queue := closeUncomplete s.queue id } s') (ha : Sound s') :
    Delivered (fun fd => if id = fd then ((acc fd).1 ++ [(acc fd).2], []) else acc fd) s' := by
  have hrest : (fun fd => (packages (if id = fd then ((acc fd).1 ++ [(acc fd).2], []) else acc fd).2).2) =
      Function.update (fun fd => (packages (acc fd).2).2) id [] := by
    funext fd
    by_cases hfd : id = fd
    · subst hfd
      simp [packages_nil]
    · simp [hfd, Function.update_of_ne (Ne.symm hfd)]
  refine ⟨ha, ?_, fun fd => ?_⟩
  · rw [hrest, hq.queue]
    exact is_closeUncomplete h.queue id
  · rw [hq.out fd]
    refine (h.out fd).trans ?_
    by_cases hfd : id = fd
    · simp [hfd, packages_nil]
    · simp [hfd]

theorem delivered_step {acc : Fd → List Bytes × Bytes} {s : St} (h : Delivered acc s) (o : Op) (ho : Listening s o) :
    Delivered (fun fd => receive fd (acc fd) o) (step s o) := by
  have hsound := sound_step h.sound o ho
  cases o with
  | socket m =>
    cases m with
    | data id b bs => exact h.data id b bs
    | connect id => exact h
    | close id => exact h.over id (quiet_handle_close _ id) hsound
    | accept ud addr => exact h.quiet (quiet_msgOpen _ _ _) hsound
    | error id msg => exact h.over id (quiet_handle_error _ id msg) hsound
    | warning id ud =>
      exact h.quiet (quiet_emit ⟨rfl, fun _ => rfl⟩ [tell s (.warning id ud)] fun fd => by simp [carried_tell]) hsound
  | open_ source conf listen => exact h.quiet (quiet_command s _ (by simp)) hsound
  | close => exact h.quiet (quiet_command s _ (by simp)) hsound
  | forward source fd client address => exact h.quiet (quiet_command s _ (by simp)) hsound
  | accept fd => exact h.quiet (quiet_command s _ (by simp)) hsound
  | kick fd => exact h.quiet (quiet_command s _ (by simp)) hsound
  | unknown => exact h.quiet (quiet_command s _ (by simp)) hsound

theorem delivered_run (ops : List Op) (h : Guarded step Listening init ops) :
    Delivered (fun fd => received fd ops) (run step init ops) := by
  suffices hall : ∀ ops s acc, Guarded step Listening s ops → Delivered acc s →
      Delivered (fun fd => ops.foldl (receive fd) (acc fd)) (run step s ops) from
    hall ops init (fun _ => ([], [])) h ⟨sound_init, is_none, fun _ => rfl⟩
  intro ops
  induction ops with
  | nil => exact fun s acc _ h => h
  | cons o ops ih => exact fun s acc hg h => ih _ _ hg.2 (delivered_step h o hg.1)

/-- one client of at most one: it connects, an agent takes it over, and a package arrives -/
def sampleOps : List Op :=
  [.open_ 7 ⟨some 8888, some 1, true, none⟩ (some 1), .socket (.accept 5 (ascii "peer")), .forward 9 5 none none,
    .socket (.data 5 0 [1, 65])]

/-- **The gate hands on what the peers have written.** However the bytes of the connections are cut and interleaved, and
whatever commands come in between: the bytes of each connection of an fd are written packages of less than 2^16 bytes and
an unfinished one, and the packages handed on or dropped for the fd are the written ones of its successive connections, in
order. -/
theorem gate_delivers_packages (ops : List Op) (hops : Guarded step Listening init ops) (fd : Fd) :
    ∃ conns : List (List Bytes × Bytes),
      (received fd ops).1 ++ [(received fd ops).2] = conns.map (fun c => c.1.flatMap written ++ c.2) ∧
      (∀ c ∈ conns, (∀ msg ∈ c.1, msg.length < 2 ^ 16) ∧ readPack c.2 = none) ∧
      (run step init ops).out.filterMap (carried fd) = conns.flatMap Prod.fst := by
  refine ⟨((received fd ops).1 ++ [(received fd ops).2]).map packages, ?_, ?_, ?_⟩
  · rw [List.map_map]
    exact ((List.map_congr_left fun s _ => packages_append s).trans (List.map_id _)).symm
  · intro c hc
    obtain ⟨s, -, rfl⟩ := List.mem_map.1 hc
    exact ⟨length_packages s, read_split_snd streaming_readPack s⟩
  · rw [(delivered_run ops hops).out fd, List.flatMap_map, List.flatMap_append, List.flatMap_singleton]

theorem gate_delivers_packages_sample : Guarded step Listening init sampleOps ∧ ∃ conns : List (List Bytes × Bytes),
    (received 5 sampleOps).1 ++ [(received 5 sampleOps).2] = conns.map (fun c => c.1.flatMap written ++ c.2) ∧
      (∀ c ∈ conns, (∀ msg ∈ c.1, msg.length < 2 ^ 16) ∧ readPack c.2 = none) ∧
      (run step init sampleOps).out.filterMap (carried 5) = conns.flatMap Prod.fst := by
  have hops : Guarded step Listening init sampleOps := by simp [sampleOps, Guarded, Listening, step, init, emit]
  exact ⟨hops, gate_delivers_packages sampleOps hops 5⟩

/-! ## Counting the connections -/

/-- what the rest of the system keeps to: the socket thread reports connections, ends and warnings only once the gate is
open, and a new connection under an fd that is not in use; the limit is not set below the number of clients -/
def Disciplined (s : St) : Op → Prop
  | .socket (.accept fd _) => s.watchdog ≠ none ∧ s.opened fd = none
  | .socket (.close _) => s.watchdog ≠ none
  | .socket (.error _ _) => s.watchdog ≠ none
  | .socket (.warning _ _) => s.watchdog ≠ none
  | .open_ _ conf _ => s.clientNumber ≤ (conf.maxclient.getD 1024 : ℕ)
  | _ => True

/-- `client_number` is the number of fds in the table, and not above the limit -/
def Counted (s : St) : Prop :=
  ∃ fds : Finset Fd, (∀ fd, fd ∈ fds ↔ s.opened fd ≠ none) ∧ s.clientNumber = fds.card ∧
    ∀ maxclient, s.maxclient = some maxclient → s.clientNumber ≤ maxclient

theorem Disciplined.listening {s : St} {o : Op} (h : Disciplined s o) : Listening s o := by
  cases o with
  | socket m =>
    cases m with
    | accept fd addr => exact h.1
    | _ => trivial
  | _ => trivial

theorem counted_of_eq {s s' : St} (h : Counted s) (ho : ∀ fd, s'.opened fd = none ↔ s.opened fd = none)
    (hn : s'.clientNumber = s.clientNumber) (hm : s'.maxclient = s.maxclient) : Counted s' := by
  obtain ⟨fds, hmem, hcard, hmax⟩ := h
  refine ⟨fds, fun fd => ?_, hn.trans hcard, fun maxclient h => ?_⟩
  · rw [hmem fd, ne_eq, ne_eq, ho fd]
  · rw [hn]
    exact hmax maxclient (hm ▸ h)

theorem counted_closeFd {s : St} (h : Counted s) (fd : Fd) : Counted (closeFd s fd) := by
  unfold closeFd
  split_ifs with hopen
  · obtain ⟨fds, hmem, hcard, hmax⟩ := h
    have hfd : fd ∈ fds := (hmem fd).2 hopen
    have hpos : 0 < fds.card := Finset.card_pos.2 ⟨fd, hfd⟩
    refine ⟨fds.erase fd, fun fd' => ?_, ?_, fun maxclient hmc => ?_⟩
    · rw [Finset.mem_erase, hmem fd']
      by_cases hfd' : fd' = fd
      · simp [hfd']
      · simp [hfd']
    · show s.clientNumber - 1 = _
      rw [Finset.card_erase_of_mem hfd, hcard]
      omega
    · show s.clientNumber - 1 ≤ _
      have := hmax maxclient hmc
      omega
  · exact h

/-- `MSG.open` either leaves the tables as they are or adds the fd, below the limit -/
theorem msgOpen_cases (s : St) (fd : Fd) (addr : Bytes) :
    ((msgOpen s fd addr).opened = s.opened ∧ (msgOpen s fd addr).clientNumber = s.clientNumber ∧
      (msgOpen s fd addr).maxclient = s.maxclient) ∨
    ∃ maxclient : ℕ, s.maxclient = some maxclient ∧ s.clientNumber < maxclient ∧
      (msgOpen s fd addr).opened = Function.update s.opened fd (some true) ∧
      (msgOpen s fd addr).clientNumber = s.clientNumber + 1 ∧ (msgOpen s fd addr).maxclient = s.maxclient := by
  unfold msgOpen
  split
  · exact .inl ⟨rfl, rfl, rfl⟩
  · rename_i maxclient hmax
    split_ifs with hfull
    · exact .inl ⟨rfl, rfl, rfl⟩
    · exact .inr ⟨maxclient, hmax, not_le.1 hfull, rfl, rfl, rfl⟩
    · exact .inr ⟨maxclient, hmax, not_le.1 hfull, rfl, rfl, rfl⟩

theorem counted_disconnectFd {s : St} (h : Counted s) (fd : Fd) (e : Event) : Counted (disconnectFd s fd e) := by
  unfold disconnectFd
  split
  · refine counted_closeFd ?_ fd
    exact h
  · exact h

theorem counted_msgOpen {s : St} (h : Counted s) (fd : Fd) (addr : Bytes) (hfd : s.opened fd = none) :
    Counted (msgOpen s fd addr) := by
  rcases msgOpen_cases s fd addr with ⟨ho, hn, hm⟩ | ⟨maxclient, hmax, hlt, ho, hn, hm⟩
  · exact counted_of_eq h (fun fd' => by rw [ho]) hn hm
  · obtain ⟨fds, hmem, hcard, -⟩ := h
    have hnew : fd ∉ fds := fun hin => (hmem fd).1 hin hfd
    refine ⟨insert fd fds, fun fd' => ?_, ?_, fun maxclient' hmax' => ?_⟩
    · rw [Finset.mem_insert, hmem fd', ho]
      by_cases hfd' : fd' = fd
      · simp [hfd']
      · simp [hfd']
    · rw [hn, hcard, Finset.card_insert_of_notMem hnew]
      push_cast
      rfl
    · rw [hm, hmax, Option.some.injEq] at hmax'
      rw [hn, ← hmax']
      omega

theorem counted_openclient {s : St} (h : Counted s) (fd : Fd) : Counted (openclient s fd) := by
  unfold openclient
  split_ifs
  · exact h
  · exact h

theorem counted_closeclient {s : St} (h : Counted s) (fd : Fd) : Counted (closeclient s fd) := by
  unfold closeclient
  split_ifs with hopen
  · refine counted_of_eq h (fun fd' => ?_) rfl rfl
    by_cases hfd : fd' = fd
    · simp [hfd, hopen]
    · simp [hfd]
  · exact h

theorem counted_step {s : St} (h : Counted s) (o : Op) (ho : Disciplined s o) : Counted (step s o) := by
  cases o with
  | socket m =>
    cases m with
    | data id b bs =>
      obtain ⟨q, packs, hd⟩ := dispatch_data s id b bs
      rw [step, hd]
      exact h
    | connect id => exact h
    | close id =>
      simp only [step, dispatch, filter, handle]
      split_ifs
      · exact counted_disconnectFd (s := { s with queue := closeUncomplete s.queue id }) h id _
      · exact h
    | accept ud addr => exact counted_msgOpen h ud addr ho.2
    | error id msg =>
      simp only [step, dispatch, filter, handle]
      split_ifs
      · exact h
      · exact counted_disconnectFd (s := { s with queue := closeUncomplete s.queue id }) h id _
    | warning id ud => exact h
  | open_ source conf listen =>
    obtain ⟨fds, hmem, hcard, hmax⟩ := h
    have hnew : ∀ maxclient, some (conf.maxclient.getD 1024) = some maxclient → s.clientNumber ≤ maxclient := by
      intro maxclient hmc
      rw [← Option.some.inj hmc]
      exact ho
    simp only [step]
    split
    · split
      · exact ⟨fds, hmem, hcard, hnew⟩
      · exact ⟨fds, hmem, hcard, hnew⟩
    · exact ⟨fds, hmem, hcard, hmax⟩
  | close =>
    simp only [step]
    split
    · exact h
    · exact h
  | forward source fd client address =>
    simp only [step]
    split
    · exact h
    · refine counted_openclient ?_ fd
      exact h
  | accept fd =>
    simp only [step]
    split
    · exact h
    · refine counted_openclient ?_ fd
      exact h
  | kick fd => exact counted_closeclient h fd
  | unknown => exact h

/-! ## Handlers that do not fail -/

theorem dispatchMsg_ne_raised {s : St} (hs : Sound s) (fd : Fd) (msg : Bytes) : dispatchMsg s fd msg ≠ .raised := by
  intro h
  have hc := carried_dispatchMsg hs fd fd msg
  rw [h, if_pos rfl] at hc
  exact absurd hc (by simp [carried])

theorem tell_ne_raised {s : St} (h : s.watchdog ≠ none) (e : Event) : tell s e ≠ .raised := by
  obtain ⟨watchdog, hw⟩ := Option.ne_none_iff_exists'.1 h
  simp [tell, hw]

theorem count_raised_disconnectFd {s : St} (h : s.watchdog ≠ none) (fd : Fd) (e : Event) :
    (disconnectFd s fd e).out.count .raised = s.out.count .raised := by
  have htell := tell_ne_raised h e
  unfold disconnectFd closeFd
  split
  · split_ifs
    · simp [disconnect, htell]
    · simp [disconnect, htell]
  · simp [disconnect, htell]

/-- a message of the socket thread makes no handler fail -/
theorem count_raised_socket {s : St} (hs : Sound s) (m : SocketMessage) (hm : Disciplined s (.socket m)) :
    (step s (.socket m)).out.count .raised = s.out.count .raised := by
  cases m with
  | data id b bs =>
    obtain ⟨q, packs, hd⟩ := dispatch_data s id b bs
    have hnot : Out.raised ∉ packs.map fun p => dispatchMsg s p.id p.buffer := by
      intro hmem
      obtain ⟨p, -, hp⟩ := List.mem_map.1 hmem
      exact dispatchMsg_ne_raised hs p.id p.buffer hp
    rw [step, hd, emit_out, List.count_append, List.count_eq_zero_of_not_mem hnot, Nat.add_zero]
  | connect id => rfl
  | close id =>
    simp only [step, dispatch, filter, handle]
    split_ifs
    · exact count_raised_disconnectFd (s := { s with queue := closeUncomplete s.queue id }) hm id _
    · rfl
  | accept ud addr =>
    obtain ⟨maxclient, hmax⟩ := Option.ne_none_iff_exists'.1 (hs.watched.2 hm.1)
    obtain ⟨watchdog, hw⟩ := Option.ne_none_iff_exists'.1 hm.1
    simp only [step, dispatch, filter, handle, msgOpen, hmax]
    split_ifs
    · simp
    · simp [connect, tell, hw]
    · simp [connect, tell, hw]
  | error id msg =>
    simp only [step, dispatch, filter, handle]
    split_ifs
    · simp
    · exact count_raised_disconnectFd (s := { s with queue := closeUncomplete s.queue id }) hm id _
  | warning id ud =>
    obtain ⟨watchdog, hw⟩ := Option.ne_none_iff_exists'.1 (show s.watchdog ≠ none from hm)
    simp [step, dispatch, filter, handle, tell, hw]

/-- **The gate's bookkeeping.** In every state the gate reaches while the rest of the system is disciplined: the tables of
gateserver.lua and gate.lua have the same connections, `client_number` counts them and is not above the limit, and no
message of the socket thread makes a handler fail. -/
theorem gate_tables_agree (ops : List Op) (h : Guarded step Disciplined init ops) :
    Agree (run step init ops) ∧ Counted (run step init ops) ∧
      ∀ m, Disciplined (run step init ops) (.socket m) →
        (step (run step init ops) (.socket m)).out.count .raised = (run step init ops).out.count .raised := by
  have hsound := sound_run ops (guarded_mono step (fun _ _ hd => hd.listening) init ops h)
  refine ⟨hsound.agree, ?_, fun m hm => count_raised_socket hsound m hm⟩
  refine guarded_inv step Disciplined Counted (fun s o ho hs => counted_step hs o ho) init ops h ?_
  exact ⟨∅, by simp [init], rfl, by simp [init]⟩

theorem gate_tables_agree_sample : Guarded step Disciplined init sampleOps ∧ Counted (run step init sampleOps) := by
  have hg : Guarded step Disciplined init sampleOps := by
    simp [sampleOps, Guarded, Disciplined, step, init, emit]
  exact ⟨hg, (gate_tables_agree sampleOps hg).2.1⟩

/-! ## Forwarding -/

/-- the operations that end or change what happens to the packages of `fd` -/
def releases (fd : Fd) : Op → Bool
  | .socket (.close id) => id = fd
  | .socket (.error id _) => id = fd
  | .socket (.accept ud _) => ud = fd
  | .forward _ fd' _ _ => fd' = fd
  | .accept fd' => fd' = fd
  | .kick fd' => fd' = fd
  | _ => false

/-- the packages of `fd` go to `agent`, in the name of `client` -/
def Forwards (fd : Fd) (agent : Handle) (client : ℕ) (s : St) : Prop :=
  s.opened fd = some true ∧ ∃ ip, s.connection fd = some ⟨ip, some agent, some client⟩

/-- a continuation of `s` that forwards, and has handed on packages of `fd` to the agent only -/
structure Forwarded (fd : Fd) (agent : Handle) (client : ℕ) (s s' : St) : Prop where
  holds : Forwards fd agent client s'
  out : ∃ outs, s'.out = s.out ++ outs ∧ ∀ o ∈ outs, ∀ msg, carried fd o = some msg → o = .redirect fd agent (some client) msg

section Forwarding

variable {fd : Fd} {agent : Handle} {client : ℕ} {s : St}

/-- the entry of the fd stays, and the new outputs carry no package of it -/
theorem forwarded_of {s' : St} (h : Forwards fd agent client s) (ho : s'.opened fd = s.opened fd)
    (hc : s'.connection fd = s.connection fd) (outs : List Out) (hout : s'.out = s.out ++ outs)
    (hnone : ∀ o ∈ outs, carried fd o = none) : Forwarded fd agent client s s' := by
  refine ⟨⟨ho.trans h.1, ?_⟩, outs, hout, fun o hmem msg hmsg => ?_⟩
  · obtain ⟨ip, hip⟩ := h.2
    exact ⟨ip, hc.trans hip⟩
  · rw [hnone o hmem] at hmsg
    exact absurd hmsg (by simp)

theorem dispatchMsg_forwards (h : Forwards fd agent client s) (fd' : Fd) (msg : Bytes) (hs : Sound s) (m : Bytes)
    (hm : carried fd (dispatchMsg s fd' msg) = some m) : dispatchMsg s fd' msg = .redirect fd agent (some client) m := by
  rw [carried_dispatchMsg hs] at hm
  split_ifs at hm with hfd
  obtain ⟨hopen, ip, hip⟩ := h
  rw [Option.some.injEq] at hm
  rw [hfd, dispatchMsg, if_pos hopen, message, hip, hm]

theorem forwarded_disconnectFd (h : Forwards fd agent client s) (id : Fd) {e : Event} (hne : id ≠ fd)
    (he : ∀ fd msg, e ≠ .data fd msg) : Forwarded fd agent client s (disconnectFd s id e) := by
  have hconn : Function.update s.connection id none fd = s.connection fd := Function.update_of_ne hne.symm _ _
  have hnone : ∀ o ∈ [tell s e], carried fd o = none := by simpa using carried_tell s fd he
  unfold disconnectFd closeFd
  split
  · split_ifs
    · exact forwarded_of h (Function.update_of_ne hne.symm _ _) hconn [tell s e] rfl hnone
    · exact forwarded_of h rfl hconn [tell s e] rfl hnone
  · exact forwarded_of h rfl hconn [tell s e] rfl hnone

theorem forwarded_openclient {s' : St} (h : Forwards fd agent client s) (fd' : Fd) (ho : s'.opened fd = s.opened fd)
    (hc : s'.connection fd = s.connection fd) (hout : s'.out = s.out) :
    Forwarded fd agent client s (emit (openclient s' fd') [.ret]) := by
  unfold openclient
  split_ifs
  · exact forwarded_of h ho hc [.start fd', .ret] (by simp [hout]) (by simp [carried])
  · exact forwarded_of h ho hc [.ret] (by simp [hout]) (by simp [carried])

theorem forwarded_command (h : Forwards fd agent client s) (o : Op) (hm : ∀ m, o ≠ .socket m)
    (ho : releases fd o = false) : Forwarded fd agent client s (step s o) := by
  cases o with
  | socket m => exact absurd rfl (hm m)
  | open_ source conf listen =>
    simp only [step]
    split
    · split
      · exact forwarded_of h rfl rfl _ rfl (by simp [carried])
      · exact forwarded_of h rfl rfl _ rfl (by simp [carried])
    · exact forwarded_of h rfl rfl _ rfl (by simp [carried])
  | close =>
    simp only [step]
    split
    · exact forwarded_of h rfl rfl _ rfl (by simp [carried])
    · exact forwarded_of h rfl rfl _ rfl (by simp [carried])
  | forward source fd' client' address =>
    have hne : fd ≠ fd' := by simpa [releases, eq_comm] using ho
    simp only [step]
    split
    · exact forwarded_of h rfl rfl _ rfl (by simp [carried])
    · exact forwarded_openclient h fd' rfl (Function.update_of_ne hne _ _) rfl
  | accept fd' =>
    have hne : fd ≠ fd' := by simpa [releases, eq_comm] using ho
    simp only [step]
    split
    · exact forwarded_of h rfl rfl _ rfl (by simp [carried])
    · exact forwarded_openclient h fd' rfl (Function.update_of_ne hne _ _) rfl
  | kick fd' =>
    have hne : fd ≠ fd' := by simpa [releases, eq_comm] using ho
    simp only [step, closeclient]
    split_ifs
    · exact forwarded_of h (Function.update_of_ne hne _ _) rfl [.close fd', .ret] (by simp) (by simp [carried])
    · exact forwarded_of h rfl rfl _ rfl (by simp [carried])
  | unknown => exact forwarded_of h rfl rfl _ rfl (by simp [carried])

theorem forwarded_msgOpen (h : Forwards fd agent client s) (ud : Fd) (addr : Bytes) (hne : fd ≠ ud) :
    Forwarded fd agent client s (msgOpen s ud addr) := by
  unfold msgOpen
  split
  · exact forwarded_of h rfl rfl _ rfl (by simp [carried])
  · split_ifs
    · exact forwarded_of h rfl rfl _ rfl (by simp [carried])
    · exact forwarded_of h (Function.update_of_ne hne _ _) (Function.update_of_ne hne _ _)
        [.nodelay ud, tell s (.opened ud addr)] (by simp [connect, emit, tell]) (by simp [carried_nodelay, carried_tell])
    · exact forwarded_of h (Function.update_of_ne hne _ _) (Function.update_of_ne hne _ _)
        [tell s (.opened ud addr)] (by simp [connect, emit, tell]) (by simp [carried_tell])

theorem forwarded_step (hs : Sound s) (h : Forwards fd agent client s) (o : Op) (ho : releases fd o = false) :
    Forwarded fd agent client s (step s o) := by
  cases o with
  | socket m =>
    cases m with
    | data id b bs =>
      obtain ⟨q, packs, hd⟩ := dispatch_data s id b bs
      rw [step, hd]
      refine ⟨h, _, rfl, fun o hmem msg hmsg => ?_⟩
      obtain ⟨p, -, rfl⟩ := List.mem_map.1 hmem
      exact dispatchMsg_forwards h p.id p.buffer hs msg hmsg
    | connect id => exact forwarded_of h rfl rfl [] (by simp [step, dispatch, filter]) (by simp)
    | close id =>
      have hne : id ≠ fd := by simpa [releases] using ho
      simp only [step, dispatch, filter, handle]
      split_ifs
      · have hclosed := forwarded_disconnectFd (s := { s with queue := closeUncomplete s.queue id }) (e := .close id) h id
          hne (by simp)
        exact ⟨hclosed.holds, hclosed.out⟩
      · exact forwarded_of h rfl rfl [] (by simp) (by simp)
    | accept ud addr =>
      have hne : fd ≠ ud := by simpa [releases, eq_comm] using ho
      exact forwarded_msgOpen h ud addr hne
    | error id msg =>
      have hne : id ≠ fd := by simpa [releases] using ho
      simp only [step, dispatch, filter, handle]
      split_ifs
      · exact forwarded_of h rfl rfl _ rfl (by simp [carried])
      · have hclosed := forwarded_disconnectFd (s := { s with queue := closeUncomplete s.queue id }) (e := .error id msg) h id
          hne (by simp)
        exact ⟨hclosed.holds, hclosed.out⟩
    | warning id ud => exact forwarded_of h rfl rfl _ rfl (by simp [carried_tell])
  | open_ source conf listen => exact forwarded_command h _ (by simp) ho
  | close => exact forwarded_command h _ (by simp) ho
  | forward source fd' client' address => exact forwarded_command h _ (by simp) ho
  | accept fd' => exact forwarded_command h _ (by simp) ho
  | kick fd' => exact forwarded_command h _ (by simp) ho
  | unknown => exact forwarded_command h _ (by simp) ho

theorem forwarded_run (hs : Sound s) (h : Forwards fd agent client s) (ops : List Op)
    (hlisten : Guarded step Listening s ops) (hops : ∀ o ∈ ops, releases fd o = false) : Forwarded fd agent client s (run step s ops) := by
  induction ops generalizing s with
  | nil => exact ⟨h, [], by simp, by simp⟩
  | cons o ops ih =>
    obtain ⟨ho, hrest⟩ := List.forall_mem_cons.1 hops
    obtain ⟨h1, outs1, hout1, hmsg1⟩ := forwarded_step hs h o ho
    obtain ⟨h2, outs2, hout2, hmsg2⟩ := ih (sound_step hs o hlisten.1) h1 hlisten.2 hrest
    refine ⟨h2, outs1 ++ outs2, ?_, fun o' hmem => ?_⟩
    · rw [run_cons, hout2, hout1, List.append_assoc]
    · rcases List.mem_append.1 hmem with hmem | hmem
      · exact hmsg1 o' hmem
      · exact hmsg2 o' hmem

/-- outputs that carry a package of `fd` only by redirecting it are these packages, redirected -/
theorem filter_carried {outs : List Out}
    (h : ∀ o ∈ outs, ∀ msg, carried fd o = some msg → o = .redirect fd agent (some client) msg) :
    outs.filter (fun o => (carried fd o).isSome) = (outs.filterMap (carried fd)).map (.redirect fd agent (some client)) := by
  induction outs with
  | nil => rfl
  | cons o outs ih =>
    obtain ⟨ho, hrest⟩ := List.forall_mem_cons.1 h
    cases hc : carried fd o with
    | none => rw [List.filter_cons_of_neg (by simp [hc]), List.filterMap_cons_none hc, ih hrest]
    | some msg =>
      rw [List.filter_cons_of_pos (by simp [hc]), List.filterMap_cons_some hc, List.map_cons, ih hrest, ← ho msg hc]

end Forwarding

/-- no connection of the fd ends while it is not released -/
theorem received_of_not_releases (fd : Fd) (ops : List Op) (hops : ∀ o ∈ ops, releases fd o = false)
    (acc : List Bytes × Bytes) : (ops.foldl (receive fd) acc).1 = acc.1 := by
  induction ops generalizing acc with
  | nil => rfl
  | cons o ops ih =>
    obtain ⟨ho, hrest⟩ := List.forall_mem_cons.1 hops
    rw [List.foldl_cons, ih hrest]
    cases o with
    | socket m =>
      cases m with
      | data id b bs =>
        rw [receive]
        split_ifs <;> rfl
      | close id => rw [receive, if_neg (by simpa [releases] using ho)]
      | error id msg => rw [receive, if_neg (by simpa [releases] using ho)]
      | _ => rfl
    | _ => rfl

/-- the outputs behind a forward of an open connection that is not released -/
theorem outs_of_forward (pre mid : List Op) (source : Handle) (fd : Fd) (client : Option ℕ) (address : Option Handle)
    (hlisten : Guarded step Listening init (pre ++ .forward source fd client address :: mid))
    (hopen : (run step init pre).opened fd = some true) (hmid : ∀ o ∈ mid, releases fd o = false) :
    ∃ outs, (run step init (pre ++ .forward source fd client address :: mid)).out =
        (step (run step init pre) (.forward source fd client address)).out ++ outs ∧
      (∀ o ∈ outs, ∀ msg, carried fd o = some msg → o = .redirect fd (address.getD source) (some (client.getD 0)) msg) ∧
      (packages (received fd (pre ++ .forward source fd client address :: mid)).2).1 =
        (packages (received fd pre).2).1 ++ outs.filterMap (carried fd) := by
  set s := run step init pre
  set fwd : Op := .forward source fd client address
  obtain ⟨hpre, hafter⟩ := (guarded_append step Listening init pre (fwd :: mid)).1 hlisten
  have hs : Sound s := sound_run pre hpre
  have hne : s.connection fd ≠ none := by
    intro hc
    rw [(hs.agree fd).2 hc] at hopen
    exact absurd hopen (by simp)
  obtain ⟨c, hc⟩ := Option.ne_none_iff_exists'.1 hne
  have hfwd : Forwards fd (address.getD source) (client.getD 0) (step s fwd) := by
    simp only [fwd, step, hc, openclient, hopen, if_true]
    exact ⟨hopen, _, Function.update_self _ _ _⟩
  obtain ⟨-, outs, hout, hmsgs⟩ := forwarded_run (sound_step hs fwd trivial) hfwd mid hafter.2 hmid
  have hrun : run step init (pre ++ fwd :: mid) = run step (step s fwd) mid := by rw [run_append, run_cons]
  refine ⟨outs, by rw [hrun, hout], hmsgs, ?_⟩
  -- the packages handed on before, and those handed on since
  have hbefore := (delivered_run pre hpre).out fd
  have hall := (delivered_run (pre ++ fwd :: mid) hlisten).out fd
  have hquiet := (quiet_command s fwd (by simp [fwd])).out fd
  have hsame : (received fd (pre ++ fwd :: mid)).1 = (received fd pre).1 := by
    rw [received, List.foldl_append, List.foldl_cons]
    exact received_of_not_releases fd mid hmid _
  rw [hrun, hout, List.filterMap_append, hquiet, hbefore, hsame, List.append_assoc] at hall
  exact (List.append_cancel_left hall).symm

/-- **What an agent has taken over goes to it.** After a forward of an open connection, in whatever state, and as long as
the connection is not closed, kicked or forwarded again: the gate hands on the packages of the fd to the agent alone, and
they are the packages that are completed from then on. -/
theorem forwarded_until_released (pre mid : List Op) (source : Handle) (fd : Fd) (client : Option ℕ)
    (address : Option Handle)
    (hlisten : Guarded step Listening init (pre ++ .forward source fd client address :: mid))
    (hopen : (run step init pre).opened fd = some true) (hmid : ∀ o ∈ mid, releases fd o = false) :
    ∃ outs msgs, (run step init (pre ++ .forward source fd client address :: mid)).out =
        (step (run step init pre) (.forward source fd client address)).out ++ outs ∧
      outs.filter (fun o => (carried fd o).isSome) =
        msgs.map (.redirect fd (address.getD source) (some (client.getD 0))) ∧
      (packages (received fd (pre ++ .forward source fd client address :: mid)).2).1 =
        (packages (received fd pre).2).1 ++ msgs := by
  obtain ⟨outs, hout, hmsgs, hpackages⟩ := outs_of_forward pre mid source fd client address hlisten hopen hmid
  exact ⟨outs, _, hout, filter_carried hmsgs, hpackages⟩

theorem forwarded_until_released_sample :
    ∃ outs msgs, (run step init sampleOps).out =
        (step (run step init (sampleOps.take 2)) (.forward 9 5 none none)).out ++ outs ∧
      outs.filter (fun o => (carried 5 o).isSome) = msgs.map (.redirect 5 9 (some 0)) ∧
      (packages (received 5 sampleOps).2).1 = (packages (received 5 (sampleOps.take 2)).2).1 ++ msgs :=
  forwarded_until_released (sampleOps.take 2) (sampleOps.drop 3) 9 5 none none
    (by simp [sampleOps, Guarded, Listening, step, init, emit]) (by decide) (by decide)

end OwliesServer.Gate
