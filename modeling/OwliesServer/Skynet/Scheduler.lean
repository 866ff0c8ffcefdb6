/-
How services get their messages (3rd/skynet/skynet-src: skynet_mq.c, skynet_server.c, skynet_handle.c, and the worker loop
of skynet_start.c). A service has a context, counted by references, and a message queue. Queues with messages stand in a
global queue; worker threads take them from there, handle some messages and put them back. Senders, launchers and killers
of services run at the same time, on any thread.

The flag `in_global` of a queue says that it is in the global queue or with a worker. The first message into a queue
without the flag puts it into the global queue; a worker that finds it empty clears the flag. A killed service leaves its
queue behind: whoever drops the last reference to the context marks the queue (`mark_release`), and the worker that finds
the context gone drops the remaining messages and frees the queue.

The threads are those of `Threads`, with one action for each part of the code between two points where another thread
can come in: what is done under a lock, an atomic decrement, or a step on thread-local data. `Thread` lists these
program points. Two things are more liberal here than in the code, so that every run of the code is among the runs here:
any number of workers and of calls is running at any time, and `delete_context` goes on in a thread of its own. Handles
are not reused, and nobody uses a handle before its queue is created. The sleep of idle workers, log messages and overload
warnings are left out.
-/
import OwliesServer.Core.CChar
import OwliesServer.Core.Ring
import OwliesServer.Core.Threads

namespace OwliesServer.Scheduler

open OwliesServer.CChar OwliesServer.Threads

/-! ## Model -/

/-- a service: its handle, its context and its queue -/
abbrev Service := ℕ

def PTYPE_ERROR : ℕ := 7

def DEFAULT_QUEUE_SIZE : ℕ := 64

/-- `struct skynet_message`; a source is `none` for handle 0, which is no service -/
structure Message where
  source : Option Service
  session : ℤ
  type : ℕ
  data : Bytes
deriving DecidableEq, Repr, Inhabited

/-- `struct message_queue` -/
structure Queue where
  ring : Ring Message
  inGlobal : Bool
  release : Bool

/-- `expand_queue` doubles the capacity -/
def expandQueue : Ring.Growth := ⟨fun cap => cap * 2, fun cap h => by omega⟩

def emptyRing : Ring Message := Ring.empty DEFAULT_QUEUE_SIZE (fun _ => default) (by decide)

/-- `pushed`, `handled` and `dropped` record what happened to the messages of each service -/
structure Shared where
  /-- the services below are those launched so far -/
  next : Service
  /-- the handle is in the handle table -/
  registered : Service → Bool
  ref : Service → ℤ
  init : Service → Bool
  queue : Service → Queue
  /-- the queue has been freed -/
  freed : Service → Bool
  global : List Service
  pushed : Service → List Message
  handled : Service → List Message
  dropped : Service → List Message

def start : Shared :=
  ⟨0, fun _ => false, fun _ => 0, fun _ => false, fun _ => ⟨emptyRing, false, false⟩, fun _ => false, [],
    fun _ => [], fun _ => [], fun _ => []⟩

/-- where a worker is in `skynet_context_message_dispatch`; `c` is the context it has grabbed -/
inductive Pc where
  /-- without a queue, about to pop the global queue -/
  | idle
  /-- with a queue, about to grab its context -/
  | own (q : Service)
  /-- about to pop the queue, the `i`-th time of `n` -/
  | loop (c : Service) (i n : ℕ)
  /-- with a message, about to look at the queue's length -/
  | popped (c : Service) (i n : ℕ) (msg : Message)
  /-- handling the message -/
  | running (c : Service) (i n : ℕ) (msg : Message)
  /-- after the loop, about to pop the global queue -/
  | yield (c : Service)
  /-- with another queue, about to put its own back -/
  | putBack (c q : Service)
  /-- about to release the context and go on with the queue `q` -/
  | leave (c q : Service)
  /-- the queue was empty: about to release the context and go on without a queue -/
  | drained (c : Service)
deriving DecidableEq, Repr

/-- `weight` is −1 (`none`) or the number of halvings of the queue's length -/
inductive Thread where
  | worker (weight : Option ℕ) (pc : Pc)
  /-- `skynet_mq_release`, of a worker or of a failed launch (`none`) -/
  | orphan (back : Option (Option ℕ)) (q : Service)
  /-- `_drop_queue`: about to pop a message; about to free the queue -/
  | discard (back : Option (Option ℕ)) (q : Service)
  | free (back : Option (Option ℕ)) (q : Service)
  /-- `skynet_context_push`: about to grab the context; with the context, about to push -/
  | send (handle : Service) (msg : Message)
  | push (c : Service) (msg : Message)
  /-- `skynet_context_release` -/
  | release (c : Service)
  /-- `delete_context`, at `skynet_mq_mark_release` -/
  | delete (c : Service)
  /-- `skynet_handle_retire` -/
  | retire (handle : Service)
  /-- `skynet_context_new`; `ok` says whether the module's init function succeeds -/
  | launch (ok : Bool)
  /-- the init function has returned, about to release the launcher's reference -/
  | launched (c : Service) (ok : Bool)
  /-- about to set the context's `init` -/
  | mark (c : Service)
  /-- about to push the queue into the global queue -/
  | publish (q : Service)
  /-- the launch has failed, about to retire the handle -/
  | failed (c : Service)
deriving DecidableEq, Repr

/-! ### skynet_mq.c -/

def globalmqPush (s : Shared) (q : Service) : Shared := { s with global := s.global ++ [q] }

def globalmqPop (s : Shared) : Option Service × Shared :=
  match s.global with
  | [] => (none, s)
  | q :: rest => (some q, { s with global := rest })

def setQueue (s : Shared) (q : Service) (x : Queue) : Shared := { s with queue := Function.update s.queue q x }

def mqPush (s : Shared) (q : Service) (msg : Message) : Shared :=
  let s' := { s with pushed := Function.update s.pushed q (s.pushed q ++ [msg]) }
  let ring := (s.queue q).ring.push expandQueue (fun _ => default) msg
  if (s.queue q).inGlobal then setQueue s' q { s.queue q with ring }
  else globalmqPush (setQueue s' q { s.queue q with ring, inGlobal := true }) q

def mqPop (s : Shared) (q : Service) : Option Message × Shared :=
  match (s.queue q).ring.pop with
  | none => (none, setQueue s q { s.queue q with inGlobal := false })
  | some (msg, ring) => (some msg, setQueue s q { s.queue q with ring })

def mqLength (s : Shared) (q : Service) : ℕ := (s.queue q).ring.length

def mqMarkRelease (s : Shared) (q : Service) : Shared :=
  let s' := setQueue s q { s.queue q with release := true }
  if (s.queue q).inGlobal then s' else globalmqPush s' q

/-! ### skynet_server.c and skynet_handle.c -/

def contextGrab (s : Shared) (c : Service) : Shared := { s with ref := Function.update s.ref c (s.ref c + 1) }

/-- the context is deleted with the last reference -/
def contextRelease (s : Shared) (c : Service) : Shared × List Thread :=
  ({ s with ref := Function.update s.ref c (s.ref c - 1) }, if s.ref c - 1 = 0 then [.delete c] else [])

/-- the table's own reference is released outside its lock -/
def handleRetire (s : Shared) (handle : Service) : Shared × List Thread :=
  if s.registered handle then
    ({ s with registered := Function.update s.registered handle false }, [.release handle])
  else (s, [])

/-- the error that the sender of a dropped message gets -/
def dropMessage (q : Service) : Message := ⟨some q, 0, PTYPE_ERROR, []⟩

/-- registers the context, for the table and for the launcher, and creates its queue -/
def contextNew (s : Shared) : Shared :=
  { s with
    next := s.next + 1
    registered := Function.update s.registered s.next true
    ref := Function.update s.ref s.next 2
    queue := Function.update s.queue s.next ⟨emptyRing, true, false⟩ }

/-- what the thread does after it has got rid of a queue -/
def resume : Option (Option ℕ) → List Thread
  | none => []
  | some weight => [.worker weight .idle]

/-- `skynet_context_message_dispatch` -/
def dispatch (s : Shared) (weight : Option ℕ) : Pc → Shared × List Thread
  | .idle =>
    match globalmqPop s with
    | (none, s) => (s, [.worker weight .idle])
    | (some q, s) => (s, [.worker weight (.own q)])
  | .own q =>
    if s.registered q then (contextGrab s q, [.worker weight (.loop q 0 1)]) else (s, [.orphan (some weight) q])
  | .loop c i n =>
    match mqPop s c with
    | (none, s) => (s, [.worker weight (.drained c)])
    | (some msg, s) => (s, [.worker weight (.popped c i n msg)])
  | .popped c i n msg =>
    match i, weight with
    | 0, some w => (s, [.worker weight (.running c i (mqLength s c >>> w) msg)])
    | _, _ => (s, [.worker weight (.running c i n msg)])
  | .running c i n msg =>
    ({ s with handled := Function.update s.handled c (s.handled c ++ [msg]) },
      [.worker weight (if i + 1 < n then .loop c (i + 1) n else .yield c)])
  | .yield c =>
    match globalmqPop s with
    | (none, s) => (s, [.worker weight (.leave c c)])
    | (some q, s) => (s, [.worker weight (.putBack c q)])
  | .putBack c q => (globalmqPush s c, [.worker weight (.leave c q)])
  | .leave c q => ((contextRelease s c).1, .worker weight (.own q) :: (contextRelease s c).2)
  | .drained c => ((contextRelease s c).1, .worker weight .idle :: (contextRelease s c).2)

def act (s : Shared) : Thread → Shared × List Thread
  | .worker weight pc => dispatch s weight pc
  | .orphan back q => if (s.queue q).release then (s, [.discard back q]) else (globalmqPush s q, resume back)
  | .discard back q =>
    match mqPop s q with
    | (some msg, s) =>
      ({ s with dropped := Function.update s.dropped q (s.dropped q ++ [msg]) },
        .discard back q :: msg.source.toList.map fun source => .send source (dropMessage q))
    | (none, s) => (s, [.free back q])
  | .free back q => ({ s with freed := Function.update s.freed q true }, resume back)
  | .send handle msg => if s.registered handle then (contextGrab s handle, [.push handle msg]) else (s, [])
  | .push c msg => (mqPush s c msg, [.release c])
  | .release c => contextRelease s c
  | .delete c => (mqMarkRelease s c, [])
  | .retire handle => handleRetire s handle
  | .launch ok => (contextNew s, [.launched s.next ok])
  | .launched c ok =>
    ((contextRelease s c).1,
      (if !ok then .failed c else if (contextRelease s c).2 = [] then .mark c else .publish c) :: (contextRelease s c).2)
  | .mark c => ({ s with init := Function.update s.init c true }, [.publish c])
  | .publish q => (globalmqPush s q, [])
  | .failed c => ((handleRetire s c).1, .orphan none c :: (handleRetire s c).2)

/-- the calls that other code may make at any time, and the workers -/
def entry : Thread → Bool
  | .worker _ .idle => true
  | .send _ _ => true
  | .retire _ => true
  | .launch _ => true
  | _ => false

abbrev Runtime := Pool Shared Thread

def boot : Runtime := ⟨start, []⟩

def step : Runtime → Op Thread → Runtime := Threads.step act entry

/-! ## Who has what -/

/-- what a thread has, and no other thread may have -/
inductive Claim where
  /-- the queue -/
  | own (q : Service)
  /-- a reference to the context that it has to release -/
  | hold (c : Service)
  /-- the deletion of the context -/
  | delete (c : Service)
  /-- the queue of a deleted context, of which messages are dropped -/
  | discard (q : Service)
  /-- an empty queue that is about to be freed -/
  | free (q : Service)
deriving DecidableEq, Repr

def Pc.claims : Pc → List Claim
  | .idle => []
  | .own q => [.own q]
  | .loop c _ _ => [.own c, .hold c]
  | .popped c _ _ _ => [.own c, .hold c]
  | .running c _ _ _ => [.own c, .hold c]
  | .yield c => [.own c, .hold c]
  | .putBack c q => [.own c, .own q, .hold c]
  | .leave c q => [.own q, .hold c]
  | .drained c => [.hold c]

def Thread.claims : Thread → List Claim
  | .worker _ pc => pc.claims
  | .orphan _ q => [.own q]
  | .discard _ q => [.own q, .discard q]
  | .free _ q => [.own q, .free q]
  | .send _ _ => []
  | .push c _ => [.hold c]
  | .release c => [.hold c]
  | .delete c => [.delete c]
  | .retire _ => []
  | .launch _ => []
  | .launched c _ => [.own c, .hold c]
  | .mark c => [.own c]
  | .publish q => [.own q]
  | .failed c => [.own c]

/-- the global queue has the queues in it -/
def claims (s : Shared) (ts : List Thread) : List Claim := s.global.map .own ++ held Thread.claims ts

/-! ## One service -/

/-- all that concerns one service: its data, and how often its queue, references to its context and so on are claimed -/
structure View where
  launched : Bool
  registered : Bool
  ref : ℤ
  contents : List Message
  inGlobal : Bool
  release : Bool
  freed : Bool
  owners : ℕ
  holders : ℕ
  deleters : ℕ
  discarders : ℕ
  frees : ℕ

def view (s : Shared) (l : List Claim) (d : Service) : View where
  launched := d.blt s.next
  registered := s.registered d
  ref := s.ref d
  contents := (s.queue d).ring.contents
  inGlobal := (s.queue d).inGlobal
  release := (s.queue d).release
  freed := s.freed d
  owners := l.count (.own d)
  holders := l.count (.hold d)
  deleters := l.count (.delete d)
  discarders := l.count (.discard d)
  frees := l.count (.free d)

/-- the queue is in one place while it has the flag or its context is deleted, and nowhere otherwise; the context is
deleted, by one thread, when nobody refers to it -/
structure Ok (v : View) : Prop where
  fresh : v.launched = false → v.registered = false ∧ v.owners = 0 ∧ v.holders = 0 ∧ v.deleters = 0 ∧ v.freed = false ∧
    v.contents = [] ∧ v.inGlobal = false ∧ v.release = false
  refs : v.ref = v.registered.toNat + v.holders
  token : v.freed = false → v.owners = (v.inGlobal || v.release).toNat
  freed : v.freed = true → v.owners = 0 ∧ v.release = true
  wake : v.contents ≠ [] → v.inGlobal = true
  alive : v.ref ≠ 0 → v.deleters = 0 ∧ v.release = false
  dead : v.launched = true → v.ref = 0 → v.deleters + v.release.toNat = 1
  discard : v.discarders + v.frees ≠ 0 → v.release = true
  empty : v.frees ≠ 0 ∨ v.freed = true → v.contents = []

namespace Ok

variable {v : View}

/-- a service somebody holds a reference to is alive -/
theorem of_holders (h : Ok v) (hh : v.holders ≠ 0) :
    v.launched = true ∧ 0 < v.ref ∧ v.deleters = 0 ∧ v.release = false ∧ v.freed = false := by
  have href : 0 < v.ref := by
    have := h.refs
    omega
  obtain ⟨hdel, hrel⟩ := h.alive href.ne'
  refine ⟨?_, href, hdel, hrel, ?_⟩
  · cases hl : v.launched with
    | true => rfl
    | false => exact absurd (h.fresh hl).2.2.1 hh
  · cases hf : v.freed with
    | false => rfl
    | true => exact absurd (h.freed hf).2 (by simp [hrel])

/-- a context that is being deleted has no reference left, and its queue is not marked yet -/
theorem of_deleters (h : Ok v) (hd : v.deleters ≠ 0) :
    v.launched = true ∧ v.ref = 0 ∧ v.deleters = 1 ∧ v.release = false ∧ v.freed = false := by
  have href : v.ref = 0 := by
    by_contra hne
    exact hd (h.alive hne).1
  have hl : v.launched = true := by
    cases hl : v.launched with
    | true => rfl
    | false => exact absurd (h.fresh hl).2.2.2.1 hd
  have hone := h.dead hl href
  have hrel : v.release = false := by
    cases hr : v.release with
    | false => rfl
    | true =>
      rw [hr, Bool.toNat_true] at hone
      omega
  refine ⟨hl, href, by simpa [hrel] using hone, hrel, ?_⟩
  cases hf : v.freed with
  | false => rfl
  | true => exact absurd (h.freed hf).2 (by simp [hrel])

/-- no queue is in two places -/
theorem owners_le (h : Ok v) : v.owners ≤ 1 := by
  cases hf : v.freed with
  | true => simp [(h.freed hf).1]
  | false =>
    rw [h.token hf]
    exact Bool.toNat_le _

theorem grab (h : Ok v) (hr : v.registered = true) : Ok { v with ref := v.ref + 1, holders := v.holders + 1 } := by
  obtain ⟨fresh, refs, token, freed, wake, alive, dead, discard, empty⟩ := h
  refine ⟨?_, ?_, token, freed, wake, ?_, ?_, discard, empty⟩ <;> grind

theorem push (h : Ok v) (hh : v.holders ≠ 0) (msg : Message) :
    Ok { v with
      contents := v.contents ++ [msg], inGlobal := true, owners := v.owners + (!v.inGlobal).toNat } := by
  obtain ⟨hl, href, hdel, hrel, hf⟩ := h.of_holders hh
  obtain ⟨fresh, refs, token, freed, wake, alive, dead, discard, empty⟩ := h
  refine ⟨by simp [hl], refs, ?_, by simp [hf], by simp, alive, dead, discard, ?_⟩
  · have := token hf
    cases hg : v.inGlobal <;> simp_all
  · intro hfree
    have : v.frees = 0 := by grind
    grind

/-- a reference is released; the last one is followed by the deletion -/
theorem release (h : Ok v) {n : ℕ} (hh : v.holders = n + 1) :
    Ok { v with ref := v.ref - 1, holders := n, deleters := v.deleters + if v.ref - 1 = 0 then 1 else 0 } := by
  obtain ⟨hl, href, hdel, hrel, hf⟩ := h.of_holders (by omega)
  obtain ⟨fresh, refs, token, freed, wake, alive, dead, discard, empty⟩ := h
  refine ⟨by simp [hl], ?_, token, freed, wake, ?_, ?_, discard, empty⟩ <;> grind

theorem delete (h : Ok v) {n : ℕ} (hd : v.deleters = n + 1) :
    Ok { v with release := true, deleters := n, owners := v.owners + (!v.inGlobal).toNat } := by
  obtain ⟨hl, href, hone, hrel, hf⟩ := h.of_deleters (by omega)
  obtain ⟨fresh, refs, token, freed, wake, alive, dead, discard, empty⟩ := h
  refine ⟨by simp [hl], refs, ?_, by simp [hf], wake, by simp [href], ?_, by simp, empty⟩
  · have := token hf
    cases hg : v.inGlobal <;> simp_all
  · intro _ _
    simp only [Bool.toNat_true]
    omega

theorem retire (h : Ok v) (hr : v.registered = true) : Ok { v with registered := false, holders := v.holders + 1 } := by
  obtain ⟨fresh, refs, token, freed, wake, alive, dead, discard, empty⟩ := h
  refine ⟨?_, ?_, token, freed, wake, alive, dead, discard, empty⟩ <;> grind

theorem launch (h : Ok v) (hl : v.launched = false) :
    Ok { v with
      launched := true, registered := true, ref := 2, contents := [], inGlobal := true, release := false,
      owners := v.owners + 1, holders := v.holders + 1 } := by
  obtain ⟨hreg, hown, hhold, hdel, hf, -, -, hrel⟩ := h.fresh hl
  obtain ⟨fresh, refs, token, freed, wake, alive, dead, discard, empty⟩ := h
  refine ⟨?_, ?_, ?_, ?_, ?_, ?_, ?_, ?_, ?_⟩ <;> grind

/-- a message is taken out -/
theorem pop (h : Ok v) {msg : Message} {rest : List Message} (hc : v.contents = msg :: rest) : Ok { v with contents := rest } := by
  obtain ⟨fresh, refs, token, freed, wake, alive, dead, discard, empty⟩ := h
  refine ⟨?_, refs, token, freed, ?_, alive, dead, discard, ?_⟩ <;> grind

/-- a worker finds the queue empty and lets go of it -/
theorem popEmpty (h : Ok v) (hh : v.holders ≠ 0) {n : ℕ} (ho : v.owners = n + 1) (hc : v.contents = []) :
    Ok { v with inGlobal := false, owners := n } := by
  obtain ⟨hl, href, hdel, hrel, hf⟩ := h.of_holders hh
  have hle := h.owners_le
  obtain ⟨fresh, refs, token, freed, wake, alive, dead, discard, empty⟩ := h
  refine ⟨by simp [hl], refs, ?_, by simp [hf], by simp [hc], alive, dead, discard, empty⟩
  intro _
  simp only [hrel, Bool.or_self, Bool.toNat_false]
  omega

/-- the queue of a deleted context is taken up -/
theorem takeUp (h : Ok v) (hr : v.release = true) : Ok { v with discarders := v.discarders + 1 } := by
  obtain ⟨fresh, refs, token, freed, wake, alive, dead, discard, empty⟩ := h
  refine ⟨fresh, refs, token, freed, wake, alive, dead, ?_, empty⟩
  exact fun _ => hr

theorem discardEmpty (h : Ok v) {n : ℕ} (hd : v.discarders = n + 1) (hc : v.contents = []) :
    Ok { v with inGlobal := false, discarders := n, frees := v.frees + 1 } := by
  obtain ⟨fresh, refs, token, freed, wake, alive, dead, discard, empty⟩ := h
  refine ⟨?_, refs, ?_, freed, ?_, alive, dead, ?_, ?_⟩ <;> grind

theorem free (h : Ok v) {n m : ℕ} (hf : v.frees = n + 1) (ho : v.owners = m + 1) :
    Ok { v with freed := true, frees := n, owners := m } := by
  have hle := h.owners_le
  have hrel : v.release = true := h.discard (by omega)
  obtain ⟨fresh, refs, token, freed, wake, alive, dead, discard, empty⟩ := h
  have hl : v.launched = true := by
    cases hl : v.launched with
    | true => rfl
    | false => exact absurd (fresh hl).2.1 (by omega)
  obtain rfl : m = 0 := by omega
  exact ⟨by simp [hl], refs, by simp, fun _ => ⟨rfl, hrel⟩, wake, alive, dead, fun _ => hrel,
    fun _ => empty (.inl (by omega))⟩

end Ok

/-! ## Actions on the claims -/

def Inv (s : Shared) (l : List Claim) : Prop := ∀ d, Ok (view s l d)

section Actions

variable {s : Shared} {l : List Claim}

theorem Inv.perm (h : Inv s l) {l' : List Claim} (hp : l.Perm l') : Inv s l' := by
  intro d
  have hd := h d
  simp only [view, hp.count_eq] at hd
  exact hd

/-- the action concerns the service `c` alone -/
theorem Inv.at {s' : Shared} {l' : List Claim} (h : Inv s l) (c : Service)
    (hother : ∀ d, d ≠ c → view s' l' d = view s l d) {v : View} (hc : Ok v) (hv : view s' l' c = v) : Inv s' l' := by
  intro d
  by_cases hd : d = c
  · rw [hd, hv]
    exact hc
  · rw [hother d hd]
    exact h d

theorem inv_contextGrab (h : Inv s l) {c : Service} (hr : s.registered c = true) :
    Inv (contextGrab s c) (.hold c :: l) := by
  refine h.at c (fun d hd => ?_) ((h c).grab hr) ?_
  · simp [view, contextGrab, hd, hd.symm]
  · simp [view, contextGrab]

theorem inv_mqPush {c : Service} (h : Inv s (.hold c :: l)) (msg : Message) :
    Inv (mqPush s c msg) (.hold c :: (if (s.queue c).inGlobal then [] else [.own c]) ++ l) := by
  have hok := (h c).push (by simp [view]) msg
  unfold mqPush
  split_ifs with hg
  · refine h.at c (fun d hd => ?_) hok ?_
    · simp [view, setQueue, hd]
    · simp [view, setQueue, hg, Ring.contents_push]
  · refine h.at c (fun d hd => ?_) hok ?_
    · simp [view, setQueue, globalmqPush, hd, hd.symm]
    · simp [view, setQueue, globalmqPush, hg, Ring.contents_push]

theorem inv_contextRelease {c : Service} (h : Inv s (.hold c :: l)) :
    Inv (contextRelease s c).1 (held Thread.claims (contextRelease s c).2 ++ l) := by
  have hn : (view s (.hold c :: l) c).holders = l.count (.hold c) + 1 := by simp [view]
  refine h.at c (fun d hd => ?_) ((h c).release hn) ?_
  · by_cases hz : s.ref c - 1 = 0
    · simp [view, contextRelease, held, Thread.claims, hz, hd, hd.symm]
    · simp [view, contextRelease, held, hz, hd, hd.symm]
  · by_cases hz : s.ref c - 1 = 0
    · simp [view, contextRelease, held, Thread.claims, hz]
    · simp [view, contextRelease, held, hz]

theorem inv_mqMarkRelease {c : Service} (h : Inv s (.delete c :: l)) :
    Inv (mqMarkRelease s c) ((if (s.queue c).inGlobal then [] else [.own c]) ++ l) := by
  have hn : (view s (.delete c :: l) c).deleters = l.count (.delete c) + 1 := by simp [view]
  have hok := (h c).delete hn
  unfold mqMarkRelease
  split_ifs with hg
  · refine h.at c (fun d hd => ?_) hok ?_
    · simp [view, setQueue, hd, hd.symm]
    · simp [view, setQueue, hg]
  · refine h.at c (fun d hd => ?_) hok ?_
    · simp [view, setQueue, globalmqPush, hd, hd.symm]
    · simp [view, setQueue, globalmqPush, hg]

theorem inv_handleRetire (h : Inv s l) (c : Service) :
    Inv (handleRetire s c).1 (held Thread.claims (handleRetire s c).2 ++ l) := by
  unfold handleRetire
  split_ifs with hr
  · refine h.at c (fun d hd => ?_) ((h c).retire hr) ?_
    · simp [view, held, Thread.claims, hd, hd.symm]
    · simp [view, held, Thread.claims]
  · exact h

theorem inv_contextNew (h : Inv s l) : Inv (contextNew s) (.own s.next :: .hold s.next :: l) := by
  have hl : (view s l s.next).launched = false :=
    Bool.eq_false_iff.2 fun hlt => Nat.not_succ_le_self _ (Nat.le_of_ble_eq_true hlt)
  refine h.at s.next (fun d hd => ?_) ((h s.next).launch hl) ?_
  · have hlt : d.blt (s.next + 1) = d.blt s.next := by
      have hne : (d : ℕ) ≠ s.next := hd
      rw [Bool.eq_iff_iff, Nat.blt_eq, Nat.blt_eq, Nat.lt_succ_iff_lt_or_eq]
      simp [hne]
    simp [view, contextNew, hd, hd.symm, hlt]
  · simp [view, contextNew, emptyRing]

/-- `skynet_mq_pop` takes the oldest message, or clears the flag of an empty queue -/
theorem mqPop_cases (s : Shared) (q : Service) :
    ((s.queue q).ring.contents = [] ∧ mqPop s q = (none, setQueue s q { s.queue q with inGlobal := false })) ∨
      ∃ msg ring, (s.queue q).ring.contents = msg :: ring.contents ∧
        mqPop s q = (some msg, setQueue s q { s.queue q with ring }) := by
  unfold mqPop
  rcases (s.queue q).ring.pop_eq with ⟨hpop, hc⟩ | ⟨msg, ring, hpop, hc⟩
  · exact .inl ⟨hc, by rw [hpop]⟩
  · exact .inr ⟨msg, ring, hc, by rw [hpop]⟩

theorem inv_pop (h : Inv s l) {q : Service} {msg : Message} {ring : Ring Message}
    (hc : (s.queue q).ring.contents = msg :: ring.contents) : Inv (setQueue s q { s.queue q with ring }) l := by
  refine h.at q (fun d hd => ?_) ((h q).pop hc) ?_
  · simp [view, setQueue, hd]
  · simp [view, setQueue]

/-- a worker finds the queue empty, and lets go of it -/
theorem inv_popEmpty {c : Service} (h : Inv s (.own c :: .hold c :: l)) (hc : (s.queue c).ring.contents = []) :
    Inv (setQueue s c { s.queue c with inGlobal := false }) (.hold c :: l) := by
  have hn : (view s (.own c :: .hold c :: l) c).owners = l.count (.own c) + 1 := by simp [view]
  refine h.at c (fun d hd => ?_) ((h c).popEmpty (by simp [view]) hn hc) ?_
  · simp [view, setQueue, hd, hd.symm]
  · simp [view, setQueue]

theorem inv_takeUp {q : Service} (h : Inv s l) (hr : (s.queue q).release = true) : Inv s (.discard q :: l) := by
  refine h.at q (fun d hd => ?_) ((h q).takeUp hr) ?_
  · simp [view, hd.symm]
  · simp [view]

/-- all messages of a deleted context have been dropped -/
theorem inv_discardEmpty {q : Service} (h : Inv s (.discard q :: l)) (hc : (s.queue q).ring.contents = []) :
    Inv (setQueue s q { s.queue q with inGlobal := false }) (.free q :: l) := by
  have hn : (view s (.discard q :: l) q).discarders = l.count (.discard q) + 1 := by simp [view]
  refine h.at q (fun d hd => ?_) ((h q).discardEmpty hn hc) ?_
  · simp [view, setQueue, hd, hd.symm]
  · simp [view, setQueue]

theorem inv_free {q : Service} (h : Inv s (.own q :: .free q :: l)) :
    Inv { s with freed := Function.update s.freed q true } l := by
  have hf : (view s (.own q :: .free q :: l) q).frees = l.count (.free q) + 1 := by simp [view]
  have ho : (view s (.own q :: .free q :: l) q).owners = l.count (.own q) + 1 := by simp [view]
  refine h.at q (fun d hd => ?_) ((h q).free hf ho) ?_
  · simp [view, hd, hd.symm]
  · simp [view]

end Actions

/-! ## All actions -/

section Act

variable {s : Shared} {ts : List Thread}

theorem claims_cons (s : Shared) (t : Thread) (ts : List Thread) :
    (claims s (t :: ts)).Perm (t.claims ++ claims s ts) := by
  rw [claims, held_cons]
  exact List.perm_append_comm_assoc _ _ _

theorem claims_append (s : Shared) (us ts : List Thread) :
    (claims s (us ++ ts)).Perm (held Thread.claims us ++ claims s ts) := by
  rw [claims, held_append]
  exact List.perm_append_comm_assoc _ _ _

/-- a queue that is pushed into the global queue is claimed there -/
theorem claims_globalmqPush (s : Shared) (q : Service) (ts : List Thread) :
    (claims (globalmqPush s q) ts).Perm (.own q :: claims s ts) := by
  simp only [claims, globalmqPush, List.map_append, List.map_cons, List.map_nil, List.append_assoc]
  exact List.perm_middle

theorem globalmqPop_cases (s : Shared) :
    (globalmqPop s = (none, s)) ∨
      ∃ q rest, s.global = q :: rest ∧ globalmqPop s = (some q, { s with global := rest }) := by
  unfold globalmqPop
  split
  · exact .inl rfl
  · rename_i q rest hg
    exact .inr ⟨q, rest, hg, rfl⟩

/-- a worker that pops the global queue takes over the claim -/
theorem inv_globalmqPop {l : List Claim} {q : Service} {rest : List Service} (h : Inv s (l ++ claims s ts))
    (hg : s.global = q :: rest) :
    Inv { s with global := rest } (.own q :: l ++ claims { s with global := rest } ts) := by
  have hclaims : claims s ts = .own q :: claims { s with global := rest } ts := by simp [claims, hg]
  rw [hclaims] at h
  exact h.perm List.perm_middle

theorem claims_mqPush (s : Shared) (c : Service) (msg : Message) (ts : List Thread) :
    ((if (s.queue c).inGlobal then [] else [Claim.own c]) ++ claims s ts).Perm (claims (mqPush s c msg) ts) := by
  unfold mqPush
  split_ifs
  · exact .refl _
  · exact (claims_globalmqPush _ c ts).symm

theorem claims_mqMarkRelease (s : Shared) (c : Service) (ts : List Thread) :
    ((if (s.queue c).inGlobal then [] else [Claim.own c]) ++ claims s ts).Perm (claims (mqMarkRelease s c) ts) := by
  unfold mqMarkRelease
  split_ifs
  · exact .refl _
  · exact (claims_globalmqPush _ c ts).symm

theorem claims_handleRetire (s : Shared) (c : Service) (ts : List Thread) :
    claims (handleRetire s c).1 ts = claims s ts := by
  unfold handleRetire
  split_ifs <;> rfl

theorem held_resume (back : Option (Option ℕ)) : held Thread.claims (resume back) = [] := by
  cases back <;> rfl

theorem inv_dispatch (weight : Option ℕ) (pc : Pc) (h : Inv s (pc.claims ++ claims s ts)) :
    Inv (dispatch s weight pc).1 (held Thread.claims (dispatch s weight pc).2 ++ claims (dispatch s weight pc).1 ts) := by
  cases pc with
  | idle =>
    rcases globalmqPop_cases s with hp | ⟨q, rest, hg, hp⟩
    · simp only [dispatch, hp]
      exact h
    · simp only [dispatch, hp]
      exact inv_globalmqPop h hg
  | own q =>
    simp only [dispatch]
    split_ifs with hr
    · exact (inv_contextGrab h hr).perm (List.Perm.swap _ _ _)
    · exact h
  | loop c i n =>
    rcases mqPop_cases s c with ⟨hc, hp⟩ | ⟨msg, ring, hc, hp⟩
    · simp only [dispatch, hp]
      exact inv_popEmpty h hc
    · simp only [dispatch, hp]
      exact inv_pop h hc
  | popped c i n msg =>
    simp only [dispatch]
    split
    · exact h
    · exact h
  | running c i n msg =>
    simp only [dispatch]
    split_ifs
    · exact h
    · exact h
  | yield c =>
    rcases globalmqPop_cases s with hp | ⟨q, rest, hg, hp⟩
    · simp only [dispatch, hp]
      exact h
    · simp only [dispatch, hp]
      exact (inv_globalmqPop h hg).perm (List.Perm.swap _ _ _)
  | putBack c q =>
    refine Inv.perm (s := globalmqPush s c) h ?_
    exact (List.perm_middle.symm.trans ((claims_globalmqPush s c ts).symm.append_left [.own q, .hold c]))
  | leave c q =>
    have hrel := inv_contextRelease (h.perm (List.Perm.swap _ _ _))
    refine hrel.perm ?_
    simp only [dispatch, held_cons]
    exact List.perm_middle
  | drained c => exact inv_contextRelease h

theorem inv_act (t : Thread) (h : Inv s (t.claims ++ claims s ts)) :
    Inv (act s t).1 (held Thread.claims (act s t).2 ++ claims (act s t).1 ts) := by
  cases t with
  | worker weight pc => exact inv_dispatch weight pc h
  | orphan back q =>
    simp only [act]
    split_ifs with hr
    · exact (inv_takeUp h hr).perm (List.Perm.swap _ _ _)
    · rw [held_resume]
      exact Inv.perm (s := globalmqPush s q) h (claims_globalmqPush s q ts).symm
  | discard back q =>
    rcases mqPop_cases s q with ⟨hc, hp⟩ | ⟨msg, ring, hc, hp⟩
    · simp only [act, hp]
      exact (inv_discardEmpty (h.perm (List.Perm.swap _ _ _)) hc).perm (List.Perm.swap _ _ _)
    · have hsends : held Thread.claims (msg.source.toList.map fun source => .send source (dropMessage q)) = [] := by
        cases msg.source <;> rfl
      simp only [act, hp, held_cons, hsends]
      exact inv_pop h hc
  | free back q =>
    rw [act, held_resume]
    exact inv_free h
  | send handle msg =>
    simp only [act]
    split_ifs with hr
    · exact inv_contextGrab h hr
    · exact h
  | push c msg => exact (inv_mqPush h msg).perm ((claims_mqPush s c msg ts).cons _)
  | release c => exact inv_contextRelease h
  | delete c => exact (inv_mqMarkRelease h).perm (claims_mqMarkRelease s c ts)
  | retire handle =>
    rw [act, claims_handleRetire]
    exact inv_handleRetire h handle
  | launch ok => exact inv_contextNew h
  | launched c ok =>
    have hrel := inv_contextRelease (h.perm (List.Perm.swap _ _ _))
    refine hrel.perm ?_
    have hnext : ∀ u : Thread, u = .failed c ∨ u = .mark c ∨ u = .publish c → u.claims = [.own c] := by
      intro u hu
      rcases hu with rfl | rfl | rfl <;> rfl
    rw [act, held_cons, hnext]
    · exact List.perm_middle
    · split_ifs <;> simp
  | mark c => exact h
  | publish q => exact Inv.perm (s := globalmqPush s q) h (claims_globalmqPush s q ts).symm
  | failed c =>
    have hret := inv_handleRetire h c
    rw [act, held_cons, claims_handleRetire]
    exact hret.perm List.perm_middle

end Act

end OwliesServer.Scheduler
