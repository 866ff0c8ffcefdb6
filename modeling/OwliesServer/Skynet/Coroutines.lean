/-
The coroutines of a service (3rd/skynet/lualib/skynet.lua): who is resumed by which message. `skynet.call` sends a request
with a new session and suspends its coroutine, and so do `skynet.sleep` and `skynet.wait`; the service has one table from
sessions to coroutines, and resumes from it when a response comes, when an error is reported, or on `skynet.wakeup`.

- `Op` are the points at which the interpreter leaves one coroutine for another. Between two of them one coroutine is
  running, or none. Where the code goes on with a wake-up, a reported error or a forked coroutine only when a coroutine has
  been suspended, it may do so here whenever none is running.
- `Pc` is where a coroutine itself stands. What it does when it is resumed depends on this and on its own session
  variable, not on the tables.
- A coroutine that has ended is `unused`, and can be used again (`co_create`). One that has raised an error is `dead`.
- `called` and `answered` are no part of the code: for each coroutine, the sessions of its calls, and the sessions of the
  responses and errors it was resumed with in a call.

What a coroutine does as the handler of a request (`skynet.ret`, `skynet.response`) resumes it at once and does not touch
these tables; it is the subject of `Skynet.Responses`.

`answers_match_calls`: in every run in which no session is given out again while it is in use, the answers to a coroutine
are those to its calls, one for each call and in their order, and a call that waits for its answer is in the table.
-/
import OwliesServer.Core.Machine

namespace OwliesServer.Coroutines

open OwliesServer.Machine

/-! ## The tables -/

abbrev Co := ℕ
abbrev Session := ℕ
abbrev Address := ℕ

/-- what `session_id_coroutine` has for a session -/
inductive Entry where
  | co (c : Co)
  /-- the text "BREAK": the coroutine was woken up, and the timer's response is still to come -/
  | brk
deriving DecidableEq, Repr

inductive Pc where
  | unused
  | running
  /-- in `yield_call` -/
  | calling (session : Session) (service : Address)
  /-- in `skynet.sleep` -/
  | sleeping (session : Session)
  /-- in `skynet.wait` -/
  | waiting (session : Session)
  /-- made by `skynet.timeout`, not started -/
  | timer (session : Session)
  /-- made by `skynet.fork`, not started -/
  | forked
  | dead
deriving DecidableEq, Repr

structure St where
  /-- the counter of `skynet_context_newsession` -/
  sessionId : ℕ
  sessionIdCoroutine : Session → Option Entry
  watchingSession : List (Session × Address)
  errorQueue : List Session
  sleepSession : Co → Option Session
  wakeupSession : List Co
  forkQueue : List Co
  pc : Co → Pc
  running : Option Co
  called : Co → List Session
  answered : Co → List Session

def init : St :=
  ⟨0, fun _ => none, [], [], fun _ => none, [], [], fun _ => .unused, none, fun _ => [], fun _ => []⟩

/-- `skynet_context_newsession`: a positive `int` -/
def newsession (s : St) : Session := if 2 ^ 31 ≤ s.sessionId + 1 then 1 else s.sessionId + 1

inductive Op where
  /-- a message of the type of requests; `c` is the coroutine that `co_create` gives -/
  | request (c : Co)
  | response (session : Session)
  /-- a message of the type of errors; `order` is the one in which `pairs` gives the sessions -/
  | error (session : Session) (source : Address) (order : List Session)
  /-- `dispatch_wakeup` with the coroutine that `next` gives -/
  | dispatchWakeup (c : Co)
  | dispatchErrorQueue
  /-- the loop of `skynet.dispatch_message` with the coroutine that `next` gives -/
  | dispatchFork (c : Co)
  -- what the running coroutine does
  | call (service : Address)
  | sleep
  /-- `skynet.wait` for the coroutine itself, as without an argument -/
  | wait
  | timeout (c : Co)
  | fork (c : Co)
  | wakeup (c : Co)
  /-- `skynet.genid`, or a call to an address that does not exist, which takes a session and raises an error -/
  | genid
  | exit
  | raise
deriving DecidableEq, Repr

/-! ## Steps -/

/-- a coroutine goes on behind the `coroutine_yield` it is suspended in, or starts -/
def resume (s : St) (c : Co) : St :=
  let s' := { s with pc := Function.update s.pc c .running, running := some c }
  match s.pc c with
  | .calling session _ => { s' with watchingSession := s.watchingSession.filter fun w => w.1 ≠ session }
  | .sleeping _ => { s' with sleepSession := Function.update s.sleepSession c none }
  | .waiting session =>
    { s' with sleepSession := Function.update s.sleepSession c none,
              sessionIdCoroutine := Function.update s.sessionIdCoroutine session none }
  | .timer _ => s'
  | .forked => s'
  | _ => s

/-- the record of an answer, under the session of the message -/
def answer (s : St) (c : Co) (session : Session) : St :=
  match s.pc c with
  | .calling _ _ => { s with answered := Function.update s.answered c (s.answered c ++ [session]) }
  | _ => s

def setEntry (s : St) (session : Session) (e : Option Entry) : St :=
  { s with sessionIdCoroutine := Function.update s.sessionIdCoroutine session e }

/-- `raw_dispatch_message` of a response; one that nobody waits for raises an error -/
def response (s : St) (session : Session) : St :=
  match s.sessionIdCoroutine session with
  | none => s
  | some .brk => setEntry s session none
  | some (.co c) => resume (answer (setEntry s session none) c session) c

/-- `_error_dispatch` -/
def errorDispatch (s : St) (session : Session) (source : Address) (order : List Session) : St :=
  if session = 0 then
    if order.isPerm ((s.watchingSession.filter fun w => w.2 = source).map Prod.fst) then
      { s with errorQueue := s.errorQueue ++ order }
    else s
  else if (s.watchingSession.map Prod.fst).contains session then { s with errorQueue := s.errorQueue ++ [session] }
  else s

/-- the session of an error is out of the queue and of the table -/
def takeError (s : St) (session : Session) (rest : List Session) : St :=
  { s with sessionIdCoroutine := Function.update s.sessionIdCoroutine session none, errorQueue := rest }

/-- a session without a coroutine raises an error -/
def dispatchErrorQueue (s : St) : St :=
  match s.errorQueue with
  | [] => s
  | session :: rest =>
    match s.sessionIdCoroutine session with
    | some (.co c) => resume (answer (takeError s session rest) c session) c
    | _ => takeError s session rest

def dispatchWakeup (s : St) (c : Co) : St :=
  if c ∈ s.wakeupSession then
    let s' := { s with wakeupSession := s.wakeupSession.filter fun d => d ≠ c }
    match s.sleepSession c with
    | some session => resume (setEntry s' session (some .brk)) c
    | none => s'
  else s

def dispatchFork (s : St) (c : Co) : St :=
  if c ∈ s.forkQueue then resume { s with forkQueue := s.forkQueue.erase c } c else s

/-- the commands CALL and SLEEP of `suspend` -/
def suspend (s : St) (c : Co) (session : Session) (pc : Pc) : St :=
  { setEntry s session (some (.co c)) with sessionId := session, pc := Function.update s.pc c pc, running := none }

/-- what a running coroutine does -/
def act (s : St) (co : Co) : Op → St
  | .call service =>
    let session := newsession s
    { suspend s co session (.calling session service) with
      watchingSession := (session, service) :: s.watchingSession
      called := Function.update s.called co (s.called co ++ [session]) }
  | .sleep =>
    let session := newsession s
    { suspend s co session (.sleeping session) with sleepSession := Function.update s.sleepSession co (some session) }
  | .wait =>
    let session := newsession s
    { suspend s co session (.waiting session) with sleepSession := Function.update s.sleepSession co (some session) }
  | .timeout c =>
    if s.pc c = .unused then
      { setEntry s (newsession s) (some (.co c)) with
        sessionId := newsession s, pc := Function.update s.pc c (.timer (newsession s)) }
    else s
  | .fork c =>
    if s.pc c = .unused then { s with pc := Function.update s.pc c .forked, forkQueue := s.forkQueue ++ [c] } else s
  | .wakeup c =>
    if (s.sleepSession c).isSome ∧ c ∉ s.wakeupSession then { s with wakeupSession := c :: s.wakeupSession } else s
  | .genid => { s with sessionId := newsession s }
  | .exit => { s with pc := Function.update s.pc co .unused, running := none }
  | .raise => { s with pc := Function.update s.pc co .dead, running := none }
  | _ => s

/-- what the service does while no coroutine is running -/
def dispatch (s : St) : Op → St
  | .request c =>
    if s.pc c = .unused then { s with pc := Function.update s.pc c .running, running := some c } else s
  | .response session => response s session
  | .error session source order => errorDispatch s session source order
  | .dispatchWakeup c => dispatchWakeup s c
  | .dispatchErrorQueue => dispatchErrorQueue s
  | .dispatchFork c => dispatchFork s c
  | _ => s

def step (s : St) (o : Op) : St :=
  match s.running with
  | some co => act s co o
  | none => dispatch s o

/-- a new session is not in use: the counter has not come round to a session that waits or is in the error queue -/
def NewSession (s : St) : Op → Prop
  | .call _ | .sleep | .wait | .timeout _ =>
    s.sessionIdCoroutine (newsession s) = none ∧ newsession s ∉ s.errorQueue
  | _ => True

/-! ## Where the coroutines stand -/

/-- the session that a coroutine is in the table for -/
def Pc.session : Pc → Option Session
  | .calling k _ | .sleeping k | .waiting k | .timer k => some k
  | _ => none

def Pc.sleeps : Pc → Option Session
  | .sleeping k | .waiting k => some k
  | _ => none

/-- the call that has no answer yet -/
def Pc.pending : Pc → List Session
  | .calling k _ => [k]
  | _ => []

/-- the calls, as `watching_session` has them -/
def Pc.watches : Pc → Option (Session × Address)
  | .calling k v => some (k, v)
  | _ => none

structure Inv (s : St) : Prop where
  table : ∀ k c, s.sessionIdCoroutine k = some (.co c) ↔ (s.pc c).session = some k
  watching : ∀ w, w ∈ s.watchingSession ↔ ∃ c, (s.pc c).watches = some w
  sleep : ∀ c, s.sleepSession c = (s.pc c).sleeps
  running : ∀ c, s.running = some c ↔ s.pc c = .running
  /-- an error that is still in the queue is for a call, or for nobody any more -/
  errors : ∀ k ∈ s.errorQueue, s.sessionIdCoroutine k ≠ some .brk ∧ ∀ c, (s.pc c).session = some k → (s.pc c).pending = [k]
  forks : s.forkQueue.Nodup ∧ ∀ c ∈ s.forkQueue, s.pc c = .forked
  matched : ∀ c, s.called c = s.answered c ++ (s.pc c).pending

theorem inv_init : Inv init where
  table k c := by simp [init, Pc.session]
  watching w := by simp [init, Pc.watches]
  sleep _ := rfl
  running c := by simp [init]
  errors := by simp [init]
  forks := by simp [init]
  matched _ := rfl

theorem Pc.session_of_watches {p : Pc} {w : Session × Address} (h : p.watches = some w) : p.session = some w.1 := by
  cases p with
  | calling k v =>
    obtain rfl := Option.some.inj h
    rfl
  | _ => exact absurd h.symm (Option.some_ne_none w)

/-- a coroutine that no session leads to -/
theorem Pc.free {p : Pc} (h : p.session = none) : p.watches = none ∧ p.sleeps = none ∧ p.pending = [] := by
  cases p with
  | calling | sleeping | waiting | timer => exact absurd h (Option.some_ne_none _)
  | _ => exact ⟨rfl, rfl, rfl⟩

section Transitions

variable {s s' : St} {c : Co}

/-- a session leads to one coroutine -/
theorem Inv.eq_of_session (h : Inv s) {c d : Co} {k : Session} (hc : (s.pc c).session = some k)
    (hd : (s.pc d).session = some k) : c = d := by
  have heq : some (Entry.co c) = some (.co d) := ((h.table k c).2 hc).symm.trans ((h.table k d).2 hd)
  exact Entry.co.inj (Option.some.inj heq)

/-- what it means to go on with the suspended coroutine `c`; `e` is left in the table for its session -/
structure Resumes (s s' : St) (c : Co) (e : Option Entry) : Prop where
  pc : s'.pc = Function.update s.pc c .running
  running : s'.running = some c
  table : ∀ k, s'.sessionIdCoroutine k = if (s.pc c).session = some k then e else s.sessionIdCoroutine k
  watching : ∀ w, w ∈ s'.watchingSession ↔ w ∈ s.watchingSession ∧ (s.pc c).watches ≠ some w
  sleep : s'.sleepSession = Function.update s.sleepSession c none
  errors : ∀ k ∈ s'.errorQueue, k ∈ s.errorQueue
  forks : s'.forkQueue.Sublist s.forkQueue ∧ c ∉ s'.forkQueue
  called : s'.called = s.called
  answered : s'.answered = Function.update s.answered c (s.answered c ++ (s.pc c).pending)

theorem inv_of_resumes {e : Option Entry} (h : Inv s) (hidle : s.running = none) (he : ∀ d, e ≠ some (.co d))
    (hbrk : e = some .brk → (s.pc c).pending = []) (hr : Resumes s s' c e) : Inv s' := by
  have hself : s'.pc c = .running := by rw [hr.pc, Function.update_self]
  have hother {d : Co} (hd : d ≠ c) : s'.pc d = s.pc d := by rw [hr.pc, Function.update_of_ne hd]
  refine ⟨fun k d => ?_, fun w => ?_, fun d => ?_, fun d => ?_, fun k hk => ?_, ?_, fun d => ?_⟩
  · rw [hr.table]
    by_cases hk : (s.pc c).session = some k
    · rw [if_pos hk]
      refine iff_of_false (he d) fun hd => ?_
      by_cases hdc : d = c
      · rw [hdc, hself] at hd
        exact absurd hd.symm (Option.some_ne_none k)
      · exact hdc (h.eq_of_session (hother hdc ▸ hd) hk)
    · rw [if_neg hk, h.table]
      by_cases hdc : d = c
      · rw [hdc, hself]
        exact iff_of_false hk fun hd => absurd hd.symm (Option.some_ne_none k)
      · rw [hother hdc]
  · rw [hr.watching, h.watching]
    apply Iff.intro
    · rintro ⟨⟨d, hd⟩, hne⟩
      have hdc : d ≠ c := by
        rintro rfl
        exact hne hd
      exact ⟨d, (hother hdc).symm ▸ hd⟩
    · rintro ⟨d, hd⟩
      have hdc : d ≠ c := by
        rintro rfl
        rw [hself] at hd
        exact absurd hd.symm (Option.some_ne_none w)
      rw [hother hdc] at hd
      refine ⟨⟨d, hd⟩, fun hc => hdc ?_⟩
      exact h.eq_of_session (Pc.session_of_watches hd) (Pc.session_of_watches hc)
  · by_cases hdc : d = c
    · rw [hr.sleep, hdc, hself, Function.update_self]
      rfl
    · rw [hr.sleep, hother hdc, Function.update_of_ne hdc, h.sleep]
  · rw [hr.running]
    by_cases hdc : d = c
    · rw [hdc, hself]
      exact iff_of_true rfl rfl
    · rw [hother hdc, ← h.running, hidle]
      exact iff_of_false (fun heq => hdc (Option.some.inj heq).symm) (fun heq => Option.some_ne_none d heq.symm)
  · obtain ⟨hnot, hcalls⟩ := h.errors k (hr.errors k hk)
    refine ⟨?_, fun d hd => ?_⟩
    · rw [hr.table]
      by_cases hc : (s.pc c).session = some k
      · rw [if_pos hc]
        intro heq
        have hpending := (hcalls c hc).symm.trans (hbrk heq)
        exact absurd hpending (List.cons_ne_nil _ _)
      · rw [if_neg hc]
        exact hnot
    · have hdc : d ≠ c := by
        rintro rfl
        rw [hself] at hd
        exact absurd hd.symm (Option.some_ne_none k)
      rw [hother hdc] at hd ⊢
      exact hcalls d hd
  · refine ⟨hr.forks.1.nodup h.forks.1, fun d hd => ?_⟩
    have hdc : d ≠ c := by
      rintro rfl
      exact hr.forks.2 hd
    rw [hother hdc]
    exact h.forks.2 d (hr.forks.1.subset hd)
  · rw [hr.called, hr.answered]
    by_cases hdc : d = c
    · rw [hdc, hself, Function.update_self, h.matched c]
      exact (List.append_nil _).symm
    · rw [hother hdc, Function.update_of_ne hdc, h.matched d]

/-- what it means that the coroutine `c`, which no session leads to, is where `p` says -/
structure Moves (s s' : St) (c : Co) (p : Pc) : Prop where
  pc : s'.pc = Function.update s.pc c p
  running : ∀ d, s'.running = some d ↔ Function.update s.pc c p d = .running
  table : ∀ k, s'.sessionIdCoroutine k = if p.session = some k then some (.co c) else s.sessionIdCoroutine k
  watching : ∀ w, w ∈ s'.watchingSession ↔ p.watches = some w ∨ w ∈ s.watchingSession
  sleep : s'.sleepSession = Function.update s.sleepSession c p.sleeps
  errors : s'.errorQueue = s.errorQueue
  forks : s'.forkQueue.Nodup ∧ ∀ d ∈ s'.forkQueue, Function.update s.pc c p d = .forked
  called : s'.called = Function.update s.called c (s.called c ++ p.pending)
  answered : s'.answered = s.answered

theorem inv_of_moves {p : Pc} (h : Inv s) (hfree : (s.pc c).session = none)
    (hnew : ∀ k, p.session = some k → s.sessionIdCoroutine k = none ∧ k ∉ s.errorQueue) (hm : Moves s s' c p) : Inv s' := by
  obtain ⟨hwatches, hsleeps, hpending⟩ := Pc.free hfree
  have hself : s'.pc c = p := by rw [hm.pc, Function.update_self]
  have hother {d : Co} (hd : d ≠ c) : s'.pc d = s.pc d := by rw [hm.pc, Function.update_of_ne hd]
  refine ⟨fun k d => ?_, fun w => ?_, fun d => ?_, fun d => ?_, fun k hk => ?_, ?_, fun d => ?_⟩
  · rw [hm.table]
    by_cases hk : p.session = some k
    · rw [if_pos hk]
      by_cases hdc : d = c
      · rw [hdc, hself]
        exact iff_of_true rfl hk
      · rw [hother hdc, ← h.table, (hnew k hk).1]
        refine iff_of_false (fun heq => hdc (Entry.co.inj (Option.some.inj heq)).symm) ?_
        exact fun heq => Option.some_ne_none _ heq.symm
    · rw [if_neg hk, h.table]
      by_cases hdc : d = c
      · rw [hdc, hself, hfree]
        exact iff_of_false (fun heq => Option.some_ne_none k heq.symm) hk
      · rw [hother hdc]
  · rw [hm.watching, h.watching]
    apply Iff.intro
    · rintro (hp | ⟨d, hd⟩)
      · exact ⟨c, hself.symm ▸ hp⟩
      · have hdc : d ≠ c := by
          rintro rfl
          exact Option.some_ne_none w (hd.symm.trans hwatches)
        exact ⟨d, (hother hdc).symm ▸ hd⟩
    · rintro ⟨d, hd⟩
      by_cases hdc : d = c
      · rw [hdc, hself] at hd
        exact .inl hd
      · rw [hother hdc] at hd
        exact .inr ⟨d, hd⟩
  · by_cases hdc : d = c
    · rw [hm.sleep, hdc, hself, Function.update_self]
    · rw [hm.sleep, hother hdc, Function.update_of_ne hdc, h.sleep]
  · rw [hm.running, hm.pc]
  · rw [hm.errors] at hk
    obtain ⟨hnot, hcalls⟩ := h.errors k hk
    have hp : p.session ≠ some k := fun heq => (hnew k heq).2 hk
    refine ⟨?_, fun d hd => ?_⟩
    · rw [hm.table, if_neg hp]
      exact hnot
    · have hdc : d ≠ c := by
        rintro rfl
        exact hp (hself ▸ hd)
      rw [hother hdc] at hd ⊢
      exact hcalls d hd
  · rw [hm.pc]
    exact hm.forks
  · rw [hm.called, hm.answered]
    by_cases hdc : d = c
    · rw [hdc, hself, Function.update_self, h.matched c, hpending, List.append_nil]
    · rw [hother hdc, Function.update_of_ne hdc, h.matched d]

end Transitions

/-! ## Dispatching -/

section Dispatch

variable {s : St} {c : Co}

theorem update_none {f : Co → Option Session} (h : f c = none) : f = Function.update f c none := by
  rw [← h, Function.update_eq_self]

theorem update_entry (f : Session → Option Entry) (k : Session) (e : Option Entry) (j : Session) :
    Function.update f k e j = if some k = some j then e else f j := by
  rw [Function.update_apply]
  exact if_congr (by rw [Option.some_inj, eq_comm]) rfl rfl

theorem Inv.not_forked (h : Inv s) {k : Session} (hk : (s.pc c).session = some k) : c ∉ s.forkQueue := by
  intro hmem
  rw [h.forks.2 c hmem] at hk
  exact absurd hk.symm (Option.some_ne_none k)

/-- a coroutine that is asleep, or has not started, goes on -/
theorem resumes_plain {k : Session} (hk : (s.pc c).session = some k) (hwatches : (s.pc c).watches = none)
    (hpending : (s.pc c).pending = []) (hfork : c ∉ s.forkQueue) (e : Option Entry) {queue : List Session}
    (hqueue : ∀ x ∈ queue, x ∈ s.errorQueue) (left : List Co) :
    Resumes s { s with pc := Function.update s.pc c .running, running := some c, errorQueue := queue, wakeupSession := left,
                       sleepSession := Function.update s.sleepSession c none,
                       sessionIdCoroutine := Function.update s.sessionIdCoroutine k e } c e := by
  refine ⟨rfl, rfl, fun j => ?_, fun w => ?_, rfl, hqueue, ⟨.refl _, hfork⟩, rfl, ?_⟩
  · rw [hk]
    exact update_entry _ _ _ _
  · rw [hwatches]
    simp
  · rw [hpending, List.append_nil, Function.update_eq_self]

/-- the coroutine of a session goes on, with the answer to its call if it is in one -/
theorem resumes_entry (h : Inv s) {k : Session} (hk : (s.pc c).session = some k) {queue : List Session}
    (hqueue : ∀ x ∈ queue, x ∈ s.errorQueue) :
    Resumes s (resume (answer (takeError s k queue) c k) c) c none := by
  have hfork := h.not_forked hk
  have hsleep := h.sleep c
  have hplain (hwatches : (s.pc c).watches = none) (hpending : (s.pc c).pending = []) :=
    resumes_plain hk hwatches hpending hfork none hqueue s.wakeupSession
  cases hpc : s.pc c with
  | calling k' v =>
    rw [hpc] at hk hsleep
    obtain rfl := Option.some.inj hk
    simp only [answer, resume, takeError, hpc]
    refine ⟨rfl, rfl, fun j => ?_, fun w => ?_, update_none hsleep, hqueue, ⟨.refl _, hfork⟩, rfl, ?_⟩
    · rw [hpc]
      exact update_entry _ _ _ _
    · rw [List.mem_filter, decide_eq_true_eq, hpc]
      refine and_congr_right fun hw => not_congr (Iff.intro (fun hfst => ?_) fun heq => ?_)
      · -- the session has one entry
        obtain ⟨d, hd⟩ := (h.watching w).1 hw
        have hdc : d = c := h.eq_of_session ((Pc.session_of_watches hd).trans (congrArg some hfst)) (by rw [hpc]; rfl)
        rw [hdc, hpc] at hd
        exact hd
      · obtain rfl := Option.some.inj heq
        rfl
    · rw [hpc]
      rfl
  | sleeping k' =>
    rw [hpc] at hk hplain
    obtain rfl := Option.some.inj hk
    simp only [answer, resume, takeError, hpc]
    exact hplain rfl rfl
  | waiting k' =>
    rw [hpc] at hk hplain
    obtain rfl := Option.some.inj hk
    simp only [answer, resume, takeError, hpc, Function.update_idem]
    exact hplain rfl rfl
  | timer k' =>
    rw [hpc] at hk hsleep hplain
    obtain rfl := Option.some.inj hk
    simp only [answer, resume, takeError, hpc]
    rw [← update_none hsleep] at hplain
    exact hplain rfl rfl
  | _ =>
    rw [hpc] at hk
    exact absurd hk.symm (Option.some_ne_none k)

/-- a coroutine that is woken up is asleep, and not in a call -/
theorem resumes_wakeup (h : Inv s) {k : Session} (hk : (s.pc c).sleeps = some k) (left : List Co) :
    ∃ e, Resumes s (resume (setEntry { s with wakeupSession := left } k (some .brk)) c) c e ∧ (∀ d, e ≠ some (.co d)) ∧
      (s.pc c).pending = [] := by
  cases hpc : s.pc c with
  | sleeping k' =>
    rw [hpc] at hk
    obtain rfl := Option.some.inj hk
    have hsession : (s.pc c).session = some k' := by rw [hpc]; rfl
    have hplain := resumes_plain hsession (by rw [hpc]; rfl) (by rw [hpc]; rfl) (h.not_forked hsession) (some .brk)
      (fun _ hx => hx) left
    simp only [resume, setEntry, hpc]
    exact ⟨some .brk, hplain, by simp, rfl⟩
  | waiting k' =>
    rw [hpc] at hk
    obtain rfl := Option.some.inj hk
    have hsession : (s.pc c).session = some k' := by rw [hpc]; rfl
    have hplain := resumes_plain hsession (by rw [hpc]; rfl) (by rw [hpc]; rfl) (h.not_forked hsession) none
      (fun _ hx => hx) left
    simp only [resume, setEntry, hpc, Function.update_idem]
    exact ⟨none, hplain, by simp, rfl⟩
  | _ =>
    rw [hpc] at hk
    exact absurd hk.symm (Option.some_ne_none k)

theorem resumes_fork (h : Inv s) (hmem : c ∈ s.forkQueue) :
    Resumes s (resume { s with forkQueue := s.forkQueue.erase c } c) c none := by
  have hpc : s.pc c = .forked := h.forks.2 c hmem
  have hsleep : s.sleepSession c = none := by rw [h.sleep, hpc]; rfl
  simp only [resume, hpc]
  refine ⟨rfl, rfl, fun j => ?_, fun w => ?_, update_none hsleep, fun _ hx => hx,
    ⟨List.erase_sublist, h.forks.1.not_mem_erase⟩, rfl, ?_⟩
  · simp [hpc, Pc.session]
  · simp [hpc, Pc.watches]
  · simp [hpc, Pc.pending]

/-- an entry that leads to no coroutine may be cleared -/
theorem inv_clear (h : Inv s) {k : Session} (hk : ∀ c, s.sessionIdCoroutine k ≠ some (.co c)) {queue : List Session}
    (hqueue : ∀ x ∈ queue, x ∈ s.errorQueue) : Inv (takeError s k queue) := by
  have hentry (j : Session) (e : Entry) (hj : Function.update s.sessionIdCoroutine k none j = some e) :
      s.sessionIdCoroutine j = some e := by
    rw [update_entry] at hj
    split_ifs at hj with hjk
    exact hj
  refine ⟨fun j c => ?_, h.watching, h.sleep, h.running, fun x hx => ?_, h.forks, h.matched⟩
  · refine Iff.trans ⟨hentry j _, fun hj => ?_⟩ (h.table j c)
    have hne : j ≠ k := by
      rintro rfl
      exact hk c hj
    exact (Function.update_of_ne hne _ _).trans hj
  · obtain ⟨hnot, hcalls⟩ := h.errors x (hqueue x hx)
    exact ⟨fun hbrk => hnot (hentry x _ hbrk), hcalls⟩

theorem inv_response (h : Inv s) (hidle : s.running = none) (k : Session) : Inv (response s k) := by
  unfold response
  cases hentry : s.sessionIdCoroutine k with
  | none => exact h
  | some e =>
    cases e with
    | brk =>
      refine inv_clear h (fun c hc => ?_) fun _ hx => hx
      rw [hentry] at hc
      cases hc
    | co c =>
      exact inv_of_resumes h hidle (by simp) (by simp) (resumes_entry h ((h.table k c).1 hentry) fun _ hx => hx)

theorem inv_dispatchErrorQueue (h : Inv s) (hidle : s.running = none) : Inv (dispatchErrorQueue s) := by
  cases hqueue : s.errorQueue with
  | nil =>
    rw [dispatchErrorQueue, hqueue]
    exact h
  | cons k rest =>
    have hrest : ∀ x ∈ rest, x ∈ s.errorQueue := fun x hx => hqueue ▸ List.mem_cons_of_mem k hx
    cases hentry : s.sessionIdCoroutine k with
    | none =>
      simp only [dispatchErrorQueue, hqueue, hentry]
      exact inv_clear h (by simp [hentry]) hrest
    | some e =>
      cases e with
      | brk =>
        simp only [dispatchErrorQueue, hqueue, hentry]
        exact inv_clear h (by simp [hentry]) hrest
      | co c =>
        simp only [dispatchErrorQueue, hqueue, hentry]
        exact inv_of_resumes h hidle (by simp) (by simp) (resumes_entry h ((h.table k c).1 hentry) hrest)

theorem inv_dispatchWakeup (h : Inv s) (hidle : s.running = none) (c : Co) : Inv (dispatchWakeup s c) := by
  unfold dispatchWakeup
  split_ifs
  · cases hsleep : s.sleepSession c with
    | none => exact ⟨h.table, h.watching, h.sleep, h.running, h.errors, h.forks, h.matched⟩
    | some k =>
      obtain ⟨e, hr, he, hpending⟩ := resumes_wakeup h ((h.sleep c).symm.trans hsleep)
        (s.wakeupSession.filter fun d => d ≠ c)
      exact inv_of_resumes h hidle he (fun _ => hpending) hr
  · exact h

theorem inv_dispatchFork (h : Inv s) (hidle : s.running = none) (c : Co) : Inv (dispatchFork s c) := by
  unfold dispatchFork
  split_ifs with hmem
  · exact inv_of_resumes h hidle (by simp) (by simp) (resumes_fork h hmem)
  · exact h

/-- only sessions of calls are put into the error queue -/
theorem inv_errors (h : Inv s) {more : List Session} (hmore : ∀ k ∈ more, ∃ v, (k, v) ∈ s.watchingSession) :
    Inv { s with errorQueue := s.errorQueue ++ more } := by
  refine ⟨h.table, h.watching, h.sleep, h.running, fun k hk => ?_, h.forks, h.matched⟩
  rcases List.mem_append.1 hk with hk | hk
  · exact h.errors k hk
  · obtain ⟨v, hv⟩ := hmore k hk
    obtain ⟨c, hc⟩ := (h.watching _).1 hv
    have hsession := Pc.session_of_watches hc
    have hentry := (h.table k c).2 hsession
    refine ⟨by simp [hentry], fun d hd => ?_⟩
    obtain rfl := h.eq_of_session hsession hd
    cases hpc : s.pc c with
    | calling k' v' =>
      rw [hpc] at hsession
      obtain rfl := Option.some.inj hsession
      rfl
    | _ =>
      rw [hpc] at hc
      exact absurd hc.symm (Option.some_ne_none _)

theorem inv_errorDispatch (h : Inv s) (session : Session) (source : Address) (order : List Session) :
    Inv (errorDispatch s session source order) := by
  unfold errorDispatch
  split_ifs with hzero hperm hwatched
  · refine inv_errors h fun k hk => ?_
    have hmem := (List.isPerm_iff.1 hperm).mem_iff.1 hk
    obtain ⟨w, hw, rfl⟩ := List.mem_map.1 hmem
    exact ⟨w.2, (List.mem_filter.1 hw).1⟩
  · exact h
  · refine inv_errors h fun k hk => ?_
    obtain rfl := List.mem_singleton.1 hk
    obtain ⟨w, hw, rfl⟩ := List.mem_map.1 (List.contains_iff_mem.1 hwatched)
    exact ⟨w.2, hw⟩
  · exact h

end Dispatch

/-! ## Running -/

section Running

variable {s : St} {c : Co}

/-- nothing is running when the running coroutine is suspended, or ends -/
theorem running_none (h : Inv s) (hrun : s.running = some c) {p : Pc} (hp : p ≠ .running) (d : Co) :
    (none : Option Co) = some d ↔ Function.update s.pc c p d = .running := by
  refine iff_of_false (fun heq => Option.some_ne_none d heq.symm) fun hd => ?_
  by_cases hdc : d = c
  · rw [hdc, Function.update_self] at hd
    exact hp hd
  · rw [Function.update_of_ne hdc, ← h.running, hrun] at hd
    exact hdc (Option.some.inj hd).symm

theorem Inv.forks_update (h : Inv s) (hc : s.pc c ≠ .forked) (p : Pc) :
    s.forkQueue.Nodup ∧ ∀ d ∈ s.forkQueue, Function.update s.pc c p d = .forked := by
  refine ⟨h.forks.1, fun d hd => ?_⟩
  have hdc : d ≠ c := by
    rintro rfl
    exact hc (h.forks.2 d hd)
  rw [Function.update_of_ne hdc]
  exact h.forks.2 d hd

/-- a coroutine that is made by another one is not running -/
theorem running_same (h : Inv s) {d : Co} (hd : s.pc d = .unused) {p : Pc} (hp : p ≠ .running) (x : Co) :
    s.running = some x ↔ Function.update s.pc d p x = .running := by
  rw [h.running]
  by_cases hx : x = d
  · rw [hx, hd, Function.update_self]
    exact iff_of_false (by decide) hp
  · rw [Function.update_of_ne hx]

/-- the running coroutine ends -/
theorem inv_end (h : Inv s) (hrun : s.running = some c) {p : Pc} (hsession : p.session = none) (hp : p ≠ .running) :
    Inv { s with pc := Function.update s.pc c p, running := none } := by
  have hpc : s.pc c = .running := (h.running c).1 hrun
  have hsleep : s.sleepSession c = none := by rw [h.sleep, hpc]; rfl
  obtain ⟨hwatches, hsleeps, hpending⟩ := Pc.free hsession
  refine inv_of_moves (p := p) h (by rw [hpc]; rfl) (by simp [hsession]) ⟨rfl, running_none h hrun hp, fun k => ?_,
    fun w => ?_, ?_, rfl, h.forks_update (by rw [hpc]; decide) p, ?_, rfl⟩
  · simp [hsession]
  · simp [hwatches]
  · rw [hsleeps]
    exact update_none hsleep
  · simp [hpending]

theorem inv_act (h : Inv s) (hrun : s.running = some c) (o : Op) (hnew : NewSession s o) : Inv (act s c o) := by
  have hpc : s.pc c = .running := (h.running c).1 hrun
  have hfree : (s.pc c).session = none := by rw [hpc]; rfl
  have hforks := h.forks_update (c := c) (by rw [hpc]; decide)
  have hsleep : s.sleepSession c = none := by rw [h.sleep, hpc]; rfl
  have hin {k : Session} (hk : s.sessionIdCoroutine k = none ∧ k ∉ s.errorQueue) (j : Session) (hj : some k = some j) :
      s.sessionIdCoroutine j = none ∧ j ∉ s.errorQueue := Option.some.inj hj ▸ hk
  cases o with
  | call service =>
    refine inv_of_moves (p := .calling (newsession s) service) h hfree (hin hnew) ⟨rfl, running_none h hrun (by simp),
      update_entry _ _ _, fun w => ?_, update_none hsleep, rfl, hforks _, rfl, rfl⟩
    simp [act, Pc.watches, eq_comm]
  | sleep =>
    refine inv_of_moves (p := .sleeping (newsession s)) h hfree (hin hnew) ⟨rfl, running_none h hrun (by simp),
      update_entry _ _ _, fun w => ?_, rfl, rfl, hforks _, ?_, rfl⟩
    · simp [act, suspend, setEntry, Pc.watches]
    · simp [act, suspend, setEntry, Pc.pending]
  | wait =>
    refine inv_of_moves (p := .waiting (newsession s)) h hfree (hin hnew) ⟨rfl, running_none h hrun (by simp),
      update_entry _ _ _, fun w => ?_, rfl, rfl, hforks _, ?_, rfl⟩
    · simp [act, suspend, setEntry, Pc.watches]
    · simp [act, suspend, setEntry, Pc.pending]
  | timeout d =>
    rw [act]
    split_ifs with hd
    · have hdc : d ≠ c := by
        rintro rfl
        exact absurd (hpc.symm.trans hd) (by decide)
      have hsleepd : s.sleepSession d = none := by rw [h.sleep, hd]; rfl
      refine inv_of_moves (p := .timer (newsession s)) (c := d) h (by rw [hd]; rfl) (hin hnew) ⟨rfl, ?_,
        update_entry _ _ _, fun w => ?_, update_none hsleepd, rfl, h.forks_update (by rw [hd]; decide) _, ?_, rfl⟩
      · exact running_same h hd (by simp)
      · simp [setEntry, Pc.watches]
      · simp [setEntry, Pc.pending]
    · exact h
  | fork d =>
    rw [act]
    split_ifs with hd
    · have hsleepd : s.sleepSession d = none := by rw [h.sleep, hd]; rfl
      have hout : d ∉ s.forkQueue := fun hmem => absurd ((h.forks.2 d hmem).symm.trans hd) (by decide)
      refine inv_of_moves (p := .forked) (c := d) h (by rw [hd]; rfl) (by simp [Pc.session]) ⟨rfl, ?_, fun k => ?_,
        fun w => ?_, update_none hsleepd, rfl, ⟨?_, fun x hx => ?_⟩, ?_, rfl⟩
      · exact running_same h hd (by simp)
      · simp [Pc.session]
      · simp [Pc.watches]
      · exact h.forks.1.append (List.nodup_singleton d) (by simpa using hout)
      · rcases List.mem_append.1 hx with hx | hx
        · exact (h.forks_update (by rw [hd]; decide) _).2 x hx
        · rw [List.mem_singleton.1 hx, Function.update_self]
      · simp [Pc.pending]
    · exact h
  | wakeup d =>
    rw [act]
    split_ifs
    · exact ⟨h.table, h.watching, h.sleep, h.running, h.errors, h.forks, h.matched⟩
    · exact h
  | genid => exact ⟨h.table, h.watching, h.sleep, h.running, h.errors, h.forks, h.matched⟩
  | exit => exact inv_end h hrun rfl (by simp)
  | raise => exact inv_end h hrun rfl (by simp)
  | _ => exact h

theorem inv_request (h : Inv s) (hidle : s.running = none) (c : Co) : Inv (dispatch s (.request c)) := by
  rw [dispatch]
  split_ifs with hc
  · have hsleep : s.sleepSession c = none := by rw [h.sleep, hc]; rfl
    refine inv_of_moves (p := .running) h (by rw [hc]; rfl) (by simp [Pc.session]) ⟨rfl, fun d => ?_, fun k => ?_, fun w => ?_,
      update_none hsleep, rfl, h.forks_update (by rw [hc]; decide) _, ?_, rfl⟩
    · by_cases hdc : d = c
      · rw [hdc, Function.update_self]
        exact iff_of_true rfl rfl
      · rw [Function.update_of_ne hdc, ← h.running, hidle]
        exact iff_of_false (fun heq => hdc (Option.some.inj heq).symm) fun heq => Option.some_ne_none d heq.symm
    · simp [Pc.session]
    · simp [Pc.watches]
    · simp [Pc.pending]
  · exact h

end Running

/-! ## Runs -/

theorem inv_step (s : St) (o : Op) (hnew : NewSession s o) (h : Inv s) : Inv (step s o) := by
  unfold step
  cases hrun : s.running with
  | some c => exact inv_act h hrun o hnew
  | none =>
    cases o with
    | request c => exact inv_request h hrun c
    | response session => exact inv_response h hrun session
    | error session source order => exact inv_errorDispatch h session source order
    | dispatchWakeup c => exact inv_dispatchWakeup h hrun c
    | dispatchErrorQueue => exact inv_dispatchErrorQueue h hrun
    | dispatchFork c => exact inv_dispatchFork h hrun c
    | _ => exact h

def reached (ops : List Op) : St := run step init ops

/-- **Answers match calls.** In every run in which no session is given out again while it is in use, the calls of a
coroutine are those it has been resumed from, each with an answer to its own session, and the one it is in; a response to
that one resumes it; and at most one coroutine is running. -/
theorem answers_match_calls (ops : List Op) (hops : Guarded step NewSession init ops) :
    (∀ c, (reached ops).called c = (reached ops).answered c ++ ((reached ops).pc c).pending) ∧
      (∀ c k v, (reached ops).pc c = .calling k v → (reached ops).running = none →
        (step (reached ops) (.response k)).running = some c ∧
          (step (reached ops) (.response k)).answered c = (reached ops).answered c ++ [k]) ∧
      ∀ c d, (reached ops).pc c = .running → (reached ops).pc d = .running → c = d := by
  have h : Inv (reached ops) := guarded_inv step NewSession Inv inv_step init ops hops inv_init
  refine ⟨h.matched, fun c k v hc hidle => ?_, fun c d hc hd => ?_⟩
  · have hsession : ((reached ops).pc c).session = some k := by rw [hc]; rfl
    have hr : Resumes (reached ops) (resume (answer (takeError (reached ops) k (reached ops).errorQueue) c k) c) c none :=
      resumes_entry h hsession fun _ hx => hx
    have hstep : step (reached ops) (.response k) =
        resume (answer (takeError (reached ops) k (reached ops).errorQueue) c k) c := by
      rw [step, hidle]
      change response (reached ops) k = _
      rw [response, (h.table k c).2 hsession]
      rfl
    rw [hstep]
    refine ⟨hr.running, ?_⟩
    rw [hr.answered, Function.update_self, hc]
    rfl
  · exact Option.some.inj (((h.running c).2 hc).symm.trans ((h.running d).2 hd))

/-- two calls and a sleep; the sleep is broken, one call gets a response and the other an error -/
def sampleOps : List Op :=
  [.request 0, .call 7, .request 1, .sleep, .request 2, .wakeup 1, .call 9, .dispatchWakeup 1, .exit, .response 2,
    .response 3, .exit, .error 1 7 [], .dispatchErrorQueue, .raise]

theorem answers_match_calls_sampleOps : Guarded step NewSession init sampleOps ∧
    (reached sampleOps).answered 0 = [1] ∧
      (reached sampleOps).called 2 = (reached sampleOps).answered 2 ++ ((reached sampleOps).pc 2).pending := by
  have hops : Guarded step NewSession init sampleOps := by
    simp only [sampleOps, Guarded, NewSession, and_true, true_and]
    decide +kernel
  exact ⟨hops, by decide +kernel, (answers_match_calls sampleOps hops).1 2⟩

end OwliesServer.Coroutines
