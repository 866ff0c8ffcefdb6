/-
The hiredis service: Src/Redis/hiredis.c, Script/Lualib/hiredis_util.lua and Script/Service/owlies_redis_deprecate.lua.

The service holds a `redisContext` and, before every command, pings it and reconnects where that fails.
- Contexts are numbered as they are allocated; `Service.freed` are those that `redisFree` was called on. The service
  starts with a Lua table in place of a context, which the C functions read as NULL (`none`).
- What comes from outside during a call is in `Env`: the reply to PING, the outcomes of the connection attempts and the
  reply to SET or GET. A reply of `none` is NULL, which `redisCommand` returns on an I/O error.
- `commands` and `connects` record what was sent to which context and what `connectToRedisWithRetry` returned, each with
  whether the context was live then.
- A function that can end the process (it reads through a NULL reply) or raise is a `Call`, the others are plain `Svc`.
  sproto's encoder and decoder are parameters (`Sproto`); they raise on `none`.

`hiredis_live_iff`: every state of a run uses live contexts only, and no NULL reply is read through, exactly when no
reply is NULL and no reconnect succeeds at its third attempt.
-/
import OwliesServer.Core.CChar
import OwliesServer.Core.Machine

namespace OwliesServer.Hiredis

open OwliesServer.CChar OwliesServer.Machine

/-! ## Model -/

def MAX_RETRY_TIMES : ℕ := 3

/-- what `redisConnectWithTimeout` returns: a connected context, one with `err` set, or NULL -/
inductive Attempt where
  | connected
  | refused
  | unallocated
deriving DecidableEq

/-- a `redisReply`, as far as it is read; `str` is NULL in the reply to a GET of a missing key -/
structure Reply where
  str : Option Bytes
deriving DecidableEq

structure Env where
  ping : Option Bytes
  /-- the n-th attempt, counted from 1 -/
  attempt : ℕ → Attempt
  reply : Option Reply

inductive Command where
  | ping
  | set (key value : Bytes)
  | get (key : Bytes)
deriving DecidableEq

structure Issued where
  context : ℕ
  command : Command
  live : Bool
deriving DecidableEq

/-- a call of `connectToRedisWithRetry`: whether one of its attempts succeeded, and what it returned -/
structure Connect where
  succeeded : Bool
  context : Option ℕ
  live : Bool
deriving DecidableEq

structure Service where
  nextContext : ℕ
  freed : List ℕ
  redisContext : Option ℕ
  commands : List Issued
  connects : List Connect
  crashed : Bool
deriving DecidableEq

abbrev Svc := StateM Service

/-- how a call ends without returning -/
inductive Stop where
  | nullReply
  | error
deriving DecidableEq

abbrev Call := ExceptT Stop Svc

/-- `redisCommand`, apart from its reply -/
def redisCommand (c : ℕ) (command : Command) : Svc Unit :=
  modify fun s => { s with commands := s.commands ++ [⟨c, command, decide (c ∉ s.freed)⟩] }

def redisFree (c : ℕ) : Svc Unit := modify fun s => { s with freed := c :: s.freed }

def newContext : Svc ℕ := modifyGet fun s => (s.nextContext, { s with nextContext := s.nextContext + 1 })

/-- `reply->…` -/
def deref {α : Type} : Option α → Call α
  | some reply => pure reply
  | none => throw .nullReply

def isConnectedToRedis (env : Env) : Option ℕ → Call Bool
  | none => pure false
  | some c => do
    redisCommand c .ping
    let str ← deref env.ping
    pure (str = ascii "PONG")

def connectToRedis (attempt : Attempt) (context : Option ℕ) : Svc (Option ℕ) := do
  match context with
  | none => pure ()
  | some c => redisFree c
  match attempt with
  | .connected => do
    let c ← newContext
    pure (some c)
  | .refused => do
    let c ← newContext
    redisFree c
    pure none
  | .unallocated => pure none

/-- the retry loop, with `left` rounds to go: the context and the number of attempts made -/
def retryLoop (env : Env) : ℕ → ℕ → Option ℕ → Svc (Option ℕ × ℕ)
  | 0, retryTime, context => pure (context, retryTime)
  | left + 1, retryTime, context => do
    let context ← connectToRedis (env.attempt (retryTime + 1)) context
    match context with
    | some c => pure (some c, retryTime + 1)
    | none => retryLoop env left (retryTime + 1) none

/-- one of the attempts succeeds -/
def succeeds (env : Env) : Bool := (List.range' 1 MAX_RETRY_TIMES).any fun n => env.attempt n = .connected

/-- the exit test behind the loop -/
def freeAfterLast (context : Option ℕ) (retryTime : ℕ) : Svc Unit :=
  if retryTime ≥ MAX_RETRY_TIMES then
    match context with
    | none => pure ()
    | some c => redisFree c
  else pure ()

def logConnect (env : Env) (context : Option ℕ) (s : Service) : Service :=
  { s with connects := s.connects ++ [⟨succeeds env, context, context.all fun c => decide (c ∉ s.freed)⟩] }

def connectToRedisWithRetry (env : Env) : Svc (Option ℕ) := do
  let (context, retryTime) ← retryLoop env MAX_RETRY_TIMES 0 none
  freeAfterLast context retryTime
  modify (logConnect env context)
  pure context

/-- `connectWithRetry`: false, or true and the context -/
def connectWithRetry (env : Env) : Svc (Bool × Option ℕ) := do
  let context ← connectToRedisWithRetry env
  pure (context.isSome, context)

/-- `setByteString`; no results on a NULL context -/
def setByteString (env : Env) (key value : Bytes) : Option ℕ → Call (Option Bytes)
  | none => pure none
  | some c => do
    redisCommand c (.set key value)
    let reply ← deref env.reply
    pure (some (reply.str.getD []))

def getByteString (env : Env) (key : Bytes) : Option ℕ → Call (Option Bytes)
  | none => pure none
  | some c => do
    redisCommand c (.get key)
    let reply ← deref env.reply
    pure (some (reply.str.getD []))

/-! ### hiredis_util.lua -/

/-- sproto's encoder, and its decoder, which also returns the number of bytes it has used -/
structure Sproto (T O : Type) where
  encode : T → O → Option Bytes
  decode : T → Bytes → Option (O × ℕ)

/-- a Lua value that the wrapper or the service returns -/
inductive Ret (O : Type) where
  | nil
  | bool (b : Bool)
  | int (n : ℕ)
  | obj (o : O)
deriving DecidableEq

/-- raise on `none` -/
def orRaise {α : Type} : Option α → Call α
  | some a => pure a
  | none => throw .error

def reconnectIfNecessary (env : Env) (redisContext : Option ℕ) : Call (Bool × Option ℕ) := do
  let connected ← isConnectedToRedis env redisContext
  if connected then
    pure (true, redisContext)
  else do
    let (success, redisC) ← connectWithRetry env
    if success then pure (true, redisC) else pure (false, redisContext)

variable {T O : Type} (sp : Sproto T O)

def setSproto (env : Env) (redisContext : Option ℕ) (key : Bytes) (sprotoType : T) (sproto : O) : Call Bool := do
  let code ← orRaise (sp.encode sprotoType sproto)
  let res ← setByteString env key code redisContext
  pure (res = some (ascii "OK"))

/-- `getSproto`; `return sp:decode(…)` passes on both results of the decoder -/
def getSproto (env : Env) (redisContext : Option ℕ) (key : Bytes) (sprotoType : T) : Call (List (Ret O)) := do
  let value ← getByteString env key redisContext
  match value with
  | none => pure [.nil]
  | some value => do
    let (obj, size) ← orRaise (sp.decode sprotoType value)
    pure [.obj obj, .int size]

/-! ### owlies_redis_deprecate.lua -/

def updateRedisContext (env : Env) : Call Bool := do
  let s ← get
  let (connected, redisC) ← reconnectIfNecessary env s.redisContext
  if connected then
    modify fun s => { s with redisContext := redisC }
    pure true
  else pure false

def updateRedisSproto (env : Env) (key : Bytes) (sprotoType : T) (sproto : O) : Call Bool := do
  let updated ← updateRedisContext env
  if updated then do
    let s ← get
    setSproto sp env s.redisContext key sprotoType sproto
  else pure false

/-- `loadRedisSproto`; the first two results of `getSproto` are its `success` and `sproto` -/
def loadRedisSproto (env : Env) (key : Bytes) (sprotoType : T) : Call (Ret O × Ret O) := do
  let updated ← updateRedisContext env
  if updated then do
    let s ← get
    let results ← getSproto sp env s.redisContext key sprotoType
    pure (results.getD 0 .nil, results.getD 1 .nil)
  else pure (.bool false, .nil)

/-! ### Runs -/

/-- the call when the service starts, and the two methods -/
inductive Op (T O : Type) where
  | start
  | update (key : Bytes) (sprotoType : T) (sproto : O)
  | load (key : Bytes) (sprotoType : T)

def Op.exec (env : Env) : Op T O → Call Unit
  | .start => do
    let _ ← updateRedisContext env
    pure ()
  | .update key sprotoType sproto => do
    let _ ← updateRedisSproto sp env key sprotoType sproto
    pure ()
  | .load key sprotoType => do
    let _ ← loadRedisSproto sp env key sprotoType
    pure ()

/-- one operation, in the process that is still there -/
def step (s : Service) (o : Op T O × Env) : Service :=
  if s.crashed then s
  else
    match (o.1.exec sp o.2).run.run s with
    | (.error .nullReply, s') => { s' with crashed := true }
    | (_, s') => s'

def initial : Service := ⟨0, [], none, [], [], false⟩

/-! ## Connecting -/

/-- the first two attempts fail and the third succeeds: the exit test of the loop takes it for a failure -/
def OnlyThird (env : Env) : Prop :=
  env.attempt 1 ≠ .connected ∧ env.attempt 2 ≠ .connected ∧ env.attempt 3 = .connected

/-- every context that was freed had been allocated -/
def FreedAllocated (s : Service) : Prop := ∀ c ∈ s.freed, c < s.nextContext

/-- only new contexts were allocated and freed in between -/
structure Grown (s s' : Service) : Prop where
  redisContext : s'.redisContext = s.redisContext
  commands : s'.commands = s.commands
  connects : s'.connects = s.connects
  crashed : s'.crashed = s.crashed
  next : s.nextContext ≤ s'.nextContext
  old : ∀ c < s.nextContext, (c ∈ s'.freed ↔ c ∈ s.freed)
  allocated : FreedAllocated s'

theorem Grown.refl {s : Service} (h : FreedAllocated s) : Grown s s :=
  ⟨rfl, rfl, rfl, rfl, le_refl _, fun _ _ => Iff.rfl, h⟩

theorem Grown.trans {s t u : Service} (h : Grown s t) (h' : Grown t u) : Grown s u where
  redisContext := h'.redisContext.trans h.redisContext
  commands := h'.commands.trans h.commands
  connects := h'.connects.trans h.connects
  crashed := h'.crashed.trans h.crashed
  next := h.next.trans h'.next
  old c hc := (h'.old c (lt_of_lt_of_le hc h.next)).trans (h.old c hc)
  allocated := h'.allocated

theorem connectToRedis_spec (attempt : Attempt) (s : Service) (h : FreedAllocated s) :
    ∃ context s', (connectToRedis attempt none).run s = (context, s') ∧ Grown s s' ∧
      (context.isSome ↔ attempt = .connected) ∧
      ∀ c, context = some c → s.nextContext ≤ c ∧ c < s'.nextContext ∧ c ∉ s'.freed := by
  have hold : ∀ c ∈ s.freed, c < s.nextContext + 1 := fun c hc => Nat.lt_succ_of_lt (h c hc)
  cases attempt with
  | connected =>
    refine ⟨some s.nextContext, { s with nextContext := s.nextContext + 1 }, rfl, ?_, by simp, ?_⟩
    · exact ⟨rfl, rfl, rfl, rfl, Nat.le_succ _, fun _ _ => Iff.rfl, hold⟩
    · intro c hc
      cases hc
      exact ⟨le_refl _, Nat.lt_succ_self _, fun hmem => absurd (h _ hmem) (lt_irrefl _)⟩
  | refused =>
    refine ⟨none, { s with nextContext := s.nextContext + 1, freed := s.nextContext :: s.freed }, rfl, ?_, by simp, ?_⟩
    · refine ⟨rfl, rfl, rfl, rfl, Nat.le_succ _, ?_, ?_⟩
      · intro c hc
        simp [hc.ne]
      · intro c hc
        obtain rfl | hc := List.mem_cons.1 hc
        · exact Nat.lt_succ_self _
        · exact hold c hc
    · intro c hc
      cases hc
  | unallocated => exact ⟨none, s, rfl, Grown.refl h, by simp, fun c hc => by cases hc⟩

/-- the loop ends at the first attempt that succeeds, with a live context, or after the last one -/
theorem retryLoop_spec (env : Env) (left retryTime : ℕ) (s : Service) (h : FreedAllocated s) :
    ∃ context n s', (retryLoop env left retryTime none).run s = ((context, n), s') ∧ Grown s s' ∧
      (∀ k, retryTime < k → k < n → env.attempt k ≠ .connected) ∧
      match context with
      | none => n = retryTime + left ∧ (0 < left → env.attempt n ≠ .connected)
      | some c => retryTime < n ∧ n ≤ retryTime + left ∧ env.attempt n = .connected ∧
          s.nextContext ≤ c ∧ c < s'.nextContext ∧ c ∉ s'.freed := by
  induction left generalizing retryTime s with
  | zero => exact ⟨none, retryTime, s, rfl, Grown.refl h, fun k h1 h2 => by omega, by simp⟩
  | succ left ih =>
    obtain ⟨context, s1, hrun, hgrown, hsome, hlive⟩ := connectToRedis_spec (env.attempt (retryTime + 1)) s h
    have hstep : (retryLoop env (left + 1) retryTime none).run s =
        (match context with
          | some c => (pure (some c, retryTime + 1) : Svc _)
          | none => retryLoop env left (retryTime + 1) none).run s1 := by
      rw [retryLoop, StateT.run_bind, hrun]
      rfl
    cases context with
    | some c =>
      obtain ⟨hlo, hhi, hfree⟩ := hlive c rfl
      exact ⟨some c, retryTime + 1, s1, hstep, hgrown, fun k h1 h2 => by omega, by omega, by omega,
        hsome.1 rfl, hlo, hhi, hfree⟩
    | none =>
      have hfail : env.attempt (retryTime + 1) ≠ .connected := by simpa using hsome
      obtain ⟨context, n, s', hrun', hgrown', hbefore, hend⟩ := ih (retryTime + 1) s1 hgrown.allocated
      refine ⟨context, n, s', hstep.trans hrun', hgrown.trans hgrown', ?_, ?_⟩
      · intro k hlo hhi
        by_cases hk : k = retryTime + 1
        · rw [hk]
          exact hfail
        · exact hbefore k (by omega) hhi
      · cases context with
        | none =>
          obtain ⟨hn, hlast⟩ := hend
          refine ⟨by omega, fun _ => ?_⟩
          by_cases hleft : 0 < left
          · exact hlast hleft
          · have : n = retryTime + 1 := by omega
            rw [this]
            exact hfail
        | some c =>
          obtain ⟨hlo, hhi, hok, hc, hc', hfree⟩ := hend
          exact ⟨by omega, by omega, hok, hgrown.next.trans hc, hc', hfree⟩

/-- what `connectToRedisWithRetry` leaves behind when it returns `context` -/
structure Reconnected (env : Env) (s : Service) (context : Option ℕ) (s' : Service) : Prop where
  redisContext : s'.redisContext = s.redisContext
  commands : s'.commands = s.commands
  crashed : s'.crashed = s.crashed
  next : s.nextContext ≤ s'.nextContext
  old : ∀ c < s.nextContext, (c ∈ s'.freed ↔ c ∈ s.freed)
  allocated : FreedAllocated s'
  isSome : context.isSome = succeeds env
  fresh : ∀ c, context = some c → c < s'.nextContext
  freed : ∀ c, context = some c → (c ∈ s'.freed ↔ OnlyThird env)
  connects : ∃ live, s'.connects = s.connects ++ [⟨succeeds env, context, live⟩] ∧ (live = true ↔ ¬ OnlyThird env)

theorem succeeds_iff (env : Env) :
    succeeds env = true ↔ env.attempt 1 = .connected ∨ env.attempt 2 = .connected ∨ env.attempt 3 = .connected := by
  simp [succeeds, MAX_RETRY_TIMES, List.range'_succ]

theorem connectToRedisWithRetry_spec (env : Env) (s : Service) (h : FreedAllocated s) :
    ∃ context s', (connectToRedisWithRetry env).run s = (context, s') ∧ Reconnected env s context s' := by
  obtain ⟨context, n, s1, hrun, hgrown, hbefore, hend⟩ := retryLoop_spec env MAX_RETRY_TIMES 0 s h
  have hafter : (connectToRedisWithRetry env).run s =
      (context, logConnect env context ((freeAfterLast context n).run s1).2) := by
    rw [connectToRedisWithRetry, StateT.run_bind, hrun]
    rfl
  cases context with
  | none =>
    obtain ⟨rfl, hlast⟩ := hend
    have h1 : env.attempt 1 ≠ .connected := hbefore 1 (by decide) (by decide)
    have h2 : env.attempt 2 ≠ .connected := hbefore 2 (by decide) (by decide)
    have h3 : env.attempt 3 ≠ .connected := hlast (by decide)
    have hsucc : succeeds env = false := by
      rw [← Bool.not_eq_true, succeeds_iff]
      simp [h1, h2, h3]
    have hthird : ¬ OnlyThird env := fun h => h3 h.2.2
    refine ⟨none, logConnect env none s1, hafter, ?_⟩
    exact ⟨hgrown.redisContext, hgrown.commands, hgrown.crashed, hgrown.next, hgrown.old, hgrown.allocated,
      by simp [hsucc], by simp, by simp, true, by simp [logConnect, hgrown.connects], by simp [hthird]⟩
  | some c =>
    obtain ⟨hpos, hle, hok, hlo, hhi, hfree⟩ := hend
    have hle : n ≤ 3 := hle
    have hsucc : succeeds env = true := by
      rw [succeeds_iff]
      obtain rfl | rfl | rfl : n = 1 ∨ n = 2 ∨ n = 3 := by omega
      · exact Or.inl hok
      · exact Or.inr (Or.inl hok)
      · exact Or.inr (Or.inr hok)
    by_cases hn : n = 3
    · -- the context of the third attempt is freed, and returned
      subst hn
      have hthird : OnlyThird env := ⟨hbefore 1 (by decide) (by decide), hbefore 2 (by decide) (by decide), hok⟩
      refine ⟨some c, logConnect env (some c) { s1 with freed := c :: s1.freed }, hafter, hgrown.redisContext,
        hgrown.commands, hgrown.crashed, hgrown.next, ?_, ?_, by simp [hsucc], ?_, ?_, false, ?_, by simp [hthird]⟩
      · intro d hd
        have : d ≠ c := by omega
        simpa [logConnect, this] using hgrown.old d hd
      · intro d hd
        obtain rfl | hd := List.mem_cons.1 hd
        · exact hhi
        · exact hgrown.allocated d hd
      · intro d hd
        cases hd
        exact hhi
      · intro d hd
        cases hd
        simp [logConnect, hthird]
      · simp [logConnect, hgrown.connects]
    · have hthird : ¬ OnlyThird env := by
        intro ⟨h1, h2, _⟩
        obtain rfl | rfl : n = 1 ∨ n = 2 := by omega
        · exact h1 hok
        · exact h2 hok
      have hkeep : freeAfterLast (some c) n = pure () := if_neg (by simp only [MAX_RETRY_TIMES]; omega)
      rw [hkeep] at hafter
      refine ⟨some c, logConnect env (some c) s1, hafter, hgrown.redisContext, hgrown.commands, hgrown.crashed,
        hgrown.next, hgrown.old, hgrown.allocated, by simp [hsucc], ?_, ?_, true, ?_, by simp [hthird]⟩
      · intro d hd
        cases hd
        exact hhi
      · intro d hd
        cases hd
        simp [logConnect, hthird, hfree]
      · simp [logConnect, hgrown.connects, hfree]

/-! ## Running calls -/

section Running

variable {α β : Type}

theorem run_bind_ok {x : Call α} (f : α → Call β) {s s' : Service} {a : α} (h : x.run.run s = (.ok a, s')) :
    (x >>= f).run.run s = (f a).run.run s' := by
  rw [ExceptT.run_bind, StateT.run_bind, h]
  rfl

theorem run_bind_error {x : Call α} (f : α → Call β) {s s' : Service} {e : Stop} (h : x.run.run s = (.error e, s')) :
    (x >>= f).run.run s = (.error e, s') := by
  rw [ExceptT.run_bind, StateT.run_bind, h]
  rfl

theorem run_lift {x : Svc α} {s s' : Service} {a : α} (h : x.run s = (a, s')) :
    (liftM x : Call α).run.run s = (.ok a, s') := by
  have : (liftM x : Call α).run.run s = (.ok (x.run s).1, (x.run s).2) := rfl
  rw [this, h]

theorem run_orRaise_some (a : α) (s : Service) : (orRaise (some a)).run.run s = (.ok a, s) := rfl

theorem run_orRaise_none (s : Service) : (orRaise (none : Option α)).run.run s = (.error .error, s) := rfl

theorem run_get (s : Service) : (get : Call Service).run.run s = (.ok s, s) := rfl

end Running

/-- the state once a command has been sent -/
def issue (s : Service) (c : ℕ) (command : Command) : Service :=
  { s with commands := s.commands ++ [⟨c, command, decide (c ∉ s.freed)⟩] }

theorem run_redisCommand (s : Service) (c : ℕ) (command : Command) :
    (redisCommand c command).run s = ((), issue s c command) := rfl

/-! ## One service call -/

theorem run_isConnectedToRedis_lost {env : Env} (hp : env.ping = none) (c : ℕ) (s : Service) :
    (isConnectedToRedis env (some c)).run.run s = (.error .nullReply, issue s c .ping) := by
  rw [isConnectedToRedis, run_bind_ok _ (run_lift (run_redisCommand s c .ping)), hp]
  rfl

theorem run_isConnectedToRedis_reply {env : Env} {str : Bytes} (hp : env.ping = some str) (c : ℕ) (s : Service) :
    (isConnectedToRedis env (some c)).run.run s = (.ok (decide (str = ascii "PONG")), issue s c .ping) := by
  rw [isConnectedToRedis, run_bind_ok _ (run_lift (run_redisCommand s c .ping)), hp]
  rfl

/-- `updateRedisContext` once `connectToRedisWithRetry` has returned -/
def adopt : Option ℕ × Service → Except Stop Bool × Service
  | (none, s) => (.ok false, s)
  | (some c, s) => (.ok true, { s with redisContext := some c })

/-- `updateRedisContext` when the ping failed, or was not sent -/
theorem run_updateRedisContext_reconnect {env : Env} {s s1 : Service}
    (h : (isConnectedToRedis env s.redisContext).run.run s = (.ok false, s1)) :
    (updateRedisContext env).run.run s = adopt ((connectToRedisWithRetry env).run s1) := by
  obtain ⟨context, s', hrun⟩ : ∃ context s', (connectToRedisWithRetry env).run s1 = (context, s') := ⟨_, _, rfl⟩
  have hconnect : (connectWithRetry env).run s1 = ((context.isSome, context), s') := by
    rw [connectWithRetry, StateT.run_bind, hrun]
    rfl
  have hreconnect : (reconnectIfNecessary env s.redisContext).run.run s =
      (.ok (context.isSome, if context.isSome then context else s.redisContext), s') := by
    rw [reconnectIfNecessary, run_bind_ok _ h]
    rw [if_neg (by decide), run_bind_ok _ (run_lift hconnect)]
    cases context <;> rfl
  rw [updateRedisContext, run_bind_ok _ (run_get s), run_bind_ok _ hreconnect, hrun]
  cases context <;> rfl

theorem run_updateRedisContext_pong {env : Env} {s : Service} {c : ℕ} (hc : s.redisContext = some c)
    (hp : env.ping = some (ascii "PONG")) : (updateRedisContext env).run.run s = (.ok true, issue s c .ping) := by
  have hconnected : (isConnectedToRedis env s.redisContext).run.run s = (.ok true, issue s c .ping) := by
    rw [hc, run_isConnectedToRedis_reply hp]
    simp
  have hreconnect : (reconnectIfNecessary env s.redisContext).run.run s =
      (.ok (true, s.redisContext), issue s c .ping) := by
    rw [reconnectIfNecessary, run_bind_ok _ hconnected]
    rfl
  rw [updateRedisContext, run_bind_ok _ (run_get s), run_bind_ok _ hreconnect]
  rfl

theorem run_updateRedisContext_lost {env : Env} {s : Service} {c : ℕ} (hc : s.redisContext = some c)
    (hp : env.ping = none) : (updateRedisContext env).run.run s = (.error .nullReply, issue s c .ping) := by
  have hlost : (reconnectIfNecessary env s.redisContext).run.run s = (.error .nullReply, issue s c .ping) := by
    rw [reconnectIfNecessary, hc, run_bind_error _ (run_isConnectedToRedis_lost hp c s)]
  rw [updateRedisContext, run_bind_ok _ (run_get s), run_bind_error _ hlost]

/-- the ping is not answered with PONG, or there is no context to ping -/
def NeedsReconnect (s : Service) (env : Env) : Prop := s.redisContext = none ∨ env.ping ≠ some (ascii "PONG")

/-- the state in which a reconnect starts -/
def pinged (s : Service) : Service :=
  match s.redisContext with
  | none => s
  | some c => issue s c .ping

/-- the three ways of `updateRedisContext` -/
theorem run_updateRedisContext (env : Env) (s : Service) :
    (∃ c, s.redisContext = some c ∧ env.ping = none ∧
      (updateRedisContext env).run.run s = (.error .nullReply, pinged s)) ∨
    ((s.redisContext.isSome → env.ping.isSome) ∧ ¬ NeedsReconnect s env ∧
      (updateRedisContext env).run.run s = (.ok true, pinged s)) ∨
    ((s.redisContext.isSome → env.ping.isSome) ∧ NeedsReconnect s env ∧
      (updateRedisContext env).run.run s = adopt ((connectToRedisWithRetry env).run (pinged s))) := by
  cases hc : s.redisContext with
  | none =>
    refine Or.inr (Or.inr ⟨by simp, Or.inl hc, ?_⟩)
    rw [show pinged s = s by simp [pinged, hc]]
    exact run_updateRedisContext_reconnect (by rw [hc]; rfl)
  | some c =>
    have hpinged : pinged s = issue s c .ping := by simp [pinged, hc]
    rw [hpinged]
    cases hp : env.ping with
    | none => exact Or.inl ⟨c, rfl, rfl, run_updateRedisContext_lost hc hp⟩
    | some str =>
      by_cases hpong : str = ascii "PONG"
      · subst hpong
        exact Or.inr (Or.inl ⟨by simp, by simp [NeedsReconnect, hc, hp], run_updateRedisContext_pong hc hp⟩)
      · refine Or.inr (Or.inr ⟨by simp, by simp [NeedsReconnect, hp, hpong], ?_⟩)
        apply run_updateRedisContext_reconnect
        rw [hc, run_isConnectedToRedis_reply hp]
        simp [hpong]

/-- a command, and its reply read as a byte string: what `setByteString` and `getByteString` do with a context -/
theorem run_byteString (env : Env) (s : Service) (c : ℕ) (command : Command) :
    (do redisCommand c command
        let reply ← deref env.reply
        pure (some (reply.str.getD [])) : Call (Option Bytes)).run.run s =
      (match env.reply with
        | none => .error .nullReply
        | some reply => .ok (some (reply.str.getD [])), issue s c command) := by
  rw [run_bind_ok _ (run_lift (run_redisCommand s c command))]
  cases env.reply <;> rfl

theorem run_setSproto (env : Env) (s : Service) (c : ℕ) (key : Bytes) (sprotoType : T) (sproto : O) :
    (setSproto sp env (some c) key sprotoType sproto).run.run s =
      match sp.encode sprotoType sproto, env.reply with
      | none, _ => (.error .error, s)
      | some code, none => (.error .nullReply, issue s c (.set key code))
      | some code, some reply => (.ok (reply.str.getD [] = ascii "OK"), issue s c (.set key code)) := by
  cases hcode : sp.encode sprotoType sproto with
  | none => rw [setSproto, hcode, run_bind_error _ (run_orRaise_none s)]
  | some code =>
    rw [setSproto, hcode, run_bind_ok _ (run_orRaise_some code s)]
    have hset : (setByteString env key code (some c)).run.run s = _ := run_byteString env s c (.set key code)
    cases hr : env.reply with
    | none =>
      rw [hr] at hset
      rw [run_bind_error _ hset]
    | some reply =>
      rw [hr] at hset
      rw [run_bind_ok _ hset]
      simp only [Option.some.injEq]
      rfl

theorem run_getSproto (env : Env) (s : Service) (c : ℕ) (key : Bytes) (sprotoType : T) :
    (getSproto sp env (some c) key sprotoType).run.run s =
      match env.reply with
      | none => (.error .nullReply, issue s c (.get key))
      | some reply =>
        match sp.decode sprotoType (reply.str.getD []) with
        | none => (.error .error, issue s c (.get key))
        | some (obj, size) => (.ok [.obj obj, .int size], issue s c (.get key)) := by
  have hget : (getByteString env key (some c)).run.run s = _ := run_byteString env s c (.get key)
  cases hr : env.reply with
  | none =>
    rw [hr] at hget
    rw [getSproto, run_bind_error _ hget]
  | some reply =>
    rw [hr] at hget
    rw [getSproto, run_bind_ok _ hget]
    cases hd : sp.decode sprotoType (reply.str.getD []) with
    | none =>
      simp only [hd]
      rw [run_bind_error _ (run_orRaise_none _)]
    | some r =>
      simp only [hd]
      rw [run_bind_ok _ (run_orRaise_some r _)]
      rfl

/-- the methods once `updateRedisContext` has returned true with a context -/
theorem run_updateRedisSproto_true {env : Env} {s s1 : Service} {c : ℕ}
    (h : (updateRedisContext env).run.run s = (.ok true, s1)) (hc : s1.redisContext = some c) (key : Bytes)
    (sprotoType : T) (sproto : O) :
    (updateRedisSproto sp env key sprotoType sproto).run.run s =
      (setSproto sp env (some c) key sprotoType sproto).run.run s1 := by
  rw [updateRedisSproto, run_bind_ok _ h, if_pos rfl, run_bind_ok _ (run_get s1), hc]

theorem run_loadRedisSproto_true {env : Env} {s s1 : Service} {c : ℕ}
    (h : (updateRedisContext env).run.run s = (.ok true, s1)) (hc : s1.redisContext = some c) (key : Bytes)
    (sprotoType : T) :
    (loadRedisSproto sp env key sprotoType).run.run s =
      match env.reply with
      | none => (.error .nullReply, issue s1 c (.get key))
      | some reply =>
        match sp.decode sprotoType (reply.str.getD []) with
        | none => (.error .error, issue s1 c (.get key))
        | some (obj, size) => (.ok (.obj obj, .int size), issue s1 c (.get key)) := by
  have hget := run_getSproto sp env s1 c key sprotoType
  rw [loadRedisSproto, run_bind_ok _ h, if_pos rfl, run_bind_ok _ (run_get s1), hc]
  cases hr : env.reply with
  | none =>
    rw [hr] at hget
    exact run_bind_error _ hget
  | some reply =>
    rw [hr] at hget
    cases hd : sp.decode sprotoType (reply.str.getD []) with
    | none =>
      simp only [hd] at hget ⊢
      exact run_bind_error _ hget
    | some r =>
      simp only [hd] at hget ⊢
      exact run_bind_ok _ hget

/-- how a call leaves the process -/
def settle {α : Type} : Except Stop α × Service → Service
  | (.error .nullReply, s) => { s with crashed := true }
  | (.error .error, s) => s
  | (.ok _, s) => s

theorem settle_discard {α : Type} (x : Call α) (s : Service) :
    settle ((x >>= fun _ => pure () : Call Unit).run.run s) = settle (x.run.run s) := by
  obtain ⟨r, s', h⟩ : ∃ r s', x.run.run s = (r, s') := ⟨_, _, rfl⟩
  rw [h]
  cases r with
  | error e => rw [run_bind_error _ h]; cases e <;> rfl
  | ok a => rw [run_bind_ok _ h]; rfl

theorem step_eq_settle (s : Service) (o : Op T O) (env : Env) (hs : s.crashed = false) :
    step sp s (o, env) = settle ((o.exec sp env).run.run s) := by
  obtain ⟨r, s', h⟩ : ∃ r s', (o.exec sp env).run.run s = (r, s') := ⟨_, _, rfl⟩
  simp only [step, hs, Bool.false_eq_true, if_false, h]
  cases r with
  | error e => cases e <;> rfl
  | ok a => rfl

/-- a command on the held context, and what reading its reply does -/
def sent (env : Env) (s : Service) (c : ℕ) (command : Command) : Service :=
  { issue s c command with crashed := s.crashed || env.reply.isNone }

/-- what is left of an operation when `updateRedisContext` has returned true -/
def afterContext (env : Env) (s : Service) (c : ℕ) : Op T O → Service
  | .start => s
  | .update key sprotoType sproto =>
    match sp.encode sprotoType sproto with
    | some code => sent env s c (.set key code)
    | none => s
  | .load key _ => sent env s c (.get key)

/-- an operation whose `updateRedisContext` returns true with a context -/
theorem settle_exec_true {env : Env} {s s1 : Service} {c : ℕ} (o : Op T O)
    (h : (updateRedisContext env).run.run s = (.ok true, s1)) (hc : s1.redisContext = some c) (hs : s1.crashed = false) :
    settle ((o.exec sp env).run.run s) = afterContext sp env s1 c o := by
  cases o with
  | start =>
    rw [Op.exec, settle_discard, h]
    rfl
  | update key sprotoType sproto =>
    rw [Op.exec, settle_discard, run_updateRedisSproto_true sp h hc, run_setSproto]
    cases hcode : sp.encode sprotoType sproto with
    | none => simp [settle, afterContext, hcode]
    | some code => cases hr : env.reply <;> simp [settle, afterContext, hcode, sent, issue, hr, hs]
  | load key sprotoType =>
    rw [Op.exec, settle_discard, run_loadRedisSproto_true sp h hc]
    cases hr : env.reply with
    | none => simp [settle, afterContext, sent, hr]
    | some reply =>
      cases hd : sp.decode sprotoType (reply.str.getD []) <;> simp [settle, afterContext, sent, issue, hr, hd, hs]

/-- an operation whose `updateRedisContext` returns false or ends the process stops there -/
theorem settle_exec_not_true {env : Env} {s s1 : Service} {r : Except Stop Bool} (o : Op T O)
    (h : (updateRedisContext env).run.run s = (r, s1)) (hr : r ≠ .ok true) :
    settle ((o.exec sp env).run.run s) = settle (r, s1) := by
  have hmethod : ∀ {α : Type} (body : Call α) (other : α),
      settle ((do let updated ← updateRedisContext env; if updated then body else pure other).run.run s) =
        settle (r, s1) := by
    intro α body other
    cases r with
    | error e => rw [run_bind_error _ h]; cases e <;> rfl
    | ok b =>
      obtain rfl : b = false := by simpa using hr
      rw [run_bind_ok _ h]
      rfl
  cases o with
  | start => rw [Op.exec, settle_discard, h]
  | update key sprotoType sproto => rw [Op.exec, settle_discard, updateRedisSproto, hmethod]
  | load key sprotoType => rw [Op.exec, settle_discard, loadRedisSproto, hmethod]

/-! ## Live connections only -/

/-- contexts are numbered as they are allocated -/
def WellNumbered (s : Service) : Prop :=
  FreedAllocated s ∧ ∀ c, s.redisContext = some c → c < s.nextContext

/-- the held context is live; every command went to a live context; `connectToRedisWithRetry` returned a context exactly
when an attempt succeeded, and then a live one; no NULL reply was read through -/
structure LiveOnly (s : Service) : Prop where
  held : ∀ c, s.redisContext = some c → c ∉ s.freed
  commands : ∀ i ∈ s.commands, i.live = true
  connects : ∀ e ∈ s.connects, e.context.isSome = e.succeeded ∧ (e.context.isSome → e.live = true)
  crashed : s.crashed = false

/-- the operation has a command of its own to send -/
def Op.sends : Op T O → Prop
  | .start => False
  | .update _ sprotoType sproto => (sp.encode sprotoType sproto).isSome
  | .load _ _ => True

/-- no reply that is read is NULL, and no reconnect succeeds only at its third attempt -/
structure Healthy (s : Service) (o : Op T O × Env) : Prop where
  ping : s.redisContext.isSome → o.2.ping.isSome
  reconnect : NeedsReconnect s o.2 → ¬ OnlyThird o.2
  reply : (NeedsReconnect s o.2 → succeeds o.2 = true) → o.1.sends sp → o.2.reply.isSome

theorem liveOnly_issue {s : Service} {c : ℕ} (hc : s.redisContext = some c) (command : Command) :
    LiveOnly (issue s c command) ↔ LiveOnly s := by
  apply Iff.intro
  · intro h
    refine ⟨h.held, ?_, h.connects, h.crashed⟩
    intro i hi
    exact h.commands i (List.mem_append_left _ hi)
  · intro h
    refine ⟨h.held, ?_, h.connects, h.crashed⟩
    intro i hi
    obtain hi | hi := List.mem_append.1 hi
    · exact h.commands i hi
    · rw [List.mem_singleton.1 hi]
      simpa using h.held c hc

theorem liveOnly_pinged (s : Service) : LiveOnly (pinged s) ↔ LiveOnly s := by
  unfold pinged
  split
  · rfl
  · exact liveOnly_issue ‹_› .ping

@[simp] theorem redisContext_pinged (s : Service) : (pinged s).redisContext = s.redisContext := by
  unfold pinged
  split <;> rfl

theorem wellNumbered_pinged {s : Service} (h : WellNumbered s) : WellNumbered (pinged s) := by
  unfold pinged
  split <;> exact h

theorem liveOnly_sent (env : Env) {s : Service} {c : ℕ} (hc : s.redisContext = some c) (command : Command) :
    LiveOnly (sent env s c command) ↔ LiveOnly s ∧ env.reply.isSome := by
  rw [← liveOnly_issue hc command]
  apply Iff.intro
  · intro h
    have hcrash : (s.crashed || env.reply.isNone) = false := h.crashed
    rw [Bool.or_eq_false_iff] at hcrash
    exact ⟨⟨h.held, h.commands, h.connects, hcrash.1⟩, by simpa using hcrash.2⟩
  · intro ⟨h, hreply⟩
    have hs : s.crashed = false := h.crashed
    refine ⟨h.held, h.commands, h.connects, ?_⟩
    simpa [sent, hs] using hreply

theorem liveOnly_afterContext (env : Env) {s : Service} {c : ℕ} (hc : s.redisContext = some c) (o : Op T O) :
    LiveOnly (afterContext sp env s c o) ↔ LiveOnly s ∧ (o.sends sp → env.reply.isSome) := by
  cases o with
  | start => simp [afterContext, Op.sends]
  | update key sprotoType sproto =>
    cases hcode : sp.encode sprotoType sproto with
    | none => simp [afterContext, Op.sends, hcode]
    | some code => simpa [afterContext, Op.sends, hcode] using liveOnly_sent env hc (.set key code)
  | load key sprotoType => simpa [afterContext, Op.sends] using liveOnly_sent env hc (.get key)

theorem wellNumbered_afterContext (env : Env) {s : Service} (h : WellNumbered s) (c : ℕ) (o : Op T O) :
    WellNumbered (afterContext sp env s c o) := by
  cases o with
  | start => exact h
  | update key sprotoType sproto =>
    cases hcode : sp.encode sprotoType sproto with
    | none => simpa [afterContext, hcode] using h
    | some code =>
      simp only [afterContext, hcode]
      exact h
  | load key sprotoType => exact h

/-- a reconnect from a sound state: its success is reported, and the state stays sound unless the third attempt was the
one to succeed -/
theorem adopt_spec (env : Env) {s : Service} (hw : WellNumbered s) (hl : LiveOnly s) :
    ∃ s', adopt ((connectToRedisWithRetry env).run s) = (.ok (succeeds env), s') ∧ WellNumbered s' ∧ s'.crashed = false ∧
      (succeeds env = true → ∃ c, s'.redisContext = some c) ∧ (LiveOnly s' ↔ ¬ OnlyThird env) := by
  obtain ⟨context, s1, hrun, hre⟩ := connectToRedisWithRetry_spec env s hw.1
  obtain ⟨live, hconnects, hlive⟩ := hre.connects
  have hcrashed : s1.crashed = false := hre.crashed.trans hl.crashed
  -- the record of this call is the only new one
  have hrecords : (∀ e ∈ s1.connects, e.context.isSome = e.succeeded ∧ (e.context.isSome → e.live = true)) ↔
      (context.isSome → ¬ OnlyThird env) := by
    rw [hconnects, List.forall_mem_append, ← hlive]
    simp only [List.mem_singleton, forall_eq, hre.isSome, true_and]
    exact and_iff_right hl.connects
  rw [hrun]
  cases context with
  | none =>
    have hthird : ¬ OnlyThird env := by
      intro ⟨_, _, h3⟩
      have : succeeds env = true := (succeeds_iff env).2 (Or.inr (Or.inr h3))
      rw [← hre.isSome] at this
      cases this
    refine ⟨s1, by rw [← hre.isSome]; rfl, ⟨hre.allocated, ?_⟩, hcrashed, ?_, iff_of_true ?_ hthird⟩
    · intro c hc
      exact lt_of_lt_of_le (hw.2 c (hre.redisContext ▸ hc)) hre.next
    · intro h
      rw [← hre.isSome] at h
      cases h
    · refine ⟨?_, by rw [hre.commands]; exact hl.commands, hrecords.2 (by simp), hcrashed⟩
      intro c hc
      rw [hre.redisContext] at hc
      rw [hre.old c (hw.2 c hc)]
      exact hl.held c hc
  | some c =>
    refine ⟨{ s1 with redisContext := some c }, by rw [← hre.isSome]; rfl, ⟨hre.allocated, ?_⟩, hcrashed,
      fun _ => ⟨c, rfl⟩, ?_⟩
    · intro d hd
      cases hd
      exact hre.fresh c rfl
    · apply Iff.intro
      · intro h
        exact hrecords.1 h.connects rfl
      · intro hthird
        refine ⟨?_, by rw [hre.commands]; exact hl.commands, hrecords.2 fun _ => hthird, hcrashed⟩
        intro d hd
        cases hd
        rw [hre.freed c rfl]
        exact hthird

/-- **One operation** keeps to live connections exactly when it is healthy. -/
theorem liveOnly_step_iff (s : Service) (o : Op T O × Env) (hw : WellNumbered s) (hl : LiveOnly s) :
    WellNumbered (step sp s o) ∧ (LiveOnly (step sp s o) ↔ Healthy sp s o) := by
  obtain ⟨o, env⟩ := o
  have hl' := (liveOnly_pinged s).2 hl
  have hw' := wellNumbered_pinged hw
  rw [step_eq_settle sp s o env hl.crashed]
  obtain ⟨c, hc, hp, hrun⟩ | ⟨hping, hno, hrun⟩ | ⟨hping, hneeds, hrun⟩ := run_updateRedisContext env s
  · -- the reply to PING is NULL
    rw [settle_exec_not_true sp o hrun (by simp)]
    refine ⟨hw', iff_of_false (fun h => ?_) (fun h => ?_)⟩
    · exact absurd h.crashed (by simp [settle])
    · have := h.ping
      simp [hc, hp] at this
  · -- the reply is PONG: the held context is used
    obtain ⟨c, hc⟩ : ∃ c, s.redisContext = some c := by
      cases hc : s.redisContext with
      | none => exact absurd (Or.inl hc) hno
      | some c => exact ⟨c, rfl⟩
    have hc' : (pinged s).redisContext = some c := by simpa using hc
    rw [settle_exec_true sp o hrun hc' hl'.crashed, liveOnly_afterContext sp env hc' o, and_iff_right hl']
    refine ⟨wellNumbered_afterContext sp env hw' c o, ?_, ?_⟩
    · intro hreply
      exact ⟨hping, fun hneeds => absurd hneeds hno, fun _ => hreply⟩
    · intro h
      exact h.reply fun hneeds => absurd hneeds hno
  · obtain ⟨s', hadopt, hws, hcs, hheld, hlive⟩ := adopt_spec env hw' hl'
    rw [hadopt] at hrun
    cases hsucc : succeeds env with
    | false =>
      rw [hsucc] at hrun
      rw [settle_exec_not_true sp o hrun (by simp)]
      refine ⟨hws, hlive.trans ⟨?_, ?_⟩⟩
      · intro hthird
        exact ⟨hping, fun _ => hthird, fun hcond => absurd (hcond hneeds) (by simp [hsucc])⟩
      · intro h
        exact h.reconnect hneeds
    | true =>
      obtain ⟨c, hc⟩ := hheld hsucc
      rw [hsucc] at hrun
      rw [settle_exec_true sp o hrun hc hcs, liveOnly_afterContext sp env hc o, hlive]
      refine ⟨wellNumbered_afterContext sp env hws c o, ?_, ?_⟩
      · intro ⟨hthird, hreply⟩
        exact ⟨hping, fun _ => hthird, fun _ => hreply⟩
      · intro h
        exact ⟨h.reconnect hneeds, h.reply fun _ => hsucc⟩

/-- **Live connections only.** In every state of a run the held context is live, every command went to a live context,
`connectToRedisWithRetry` returned live contexts and no NULL reply was read through, exactly when every operation of
the run is healthy. -/
theorem hiredis_live_iff (ops : List (Op T O × Env)) :
    HoldsAlong (step sp) LiveOnly initial ops ↔ Guarded (step sp) (Healthy sp) initial ops := by
  have hw : WellNumbered initial := ⟨by simp [FreedAllocated, initial], by simp [initial]⟩
  have hl : LiveOnly initial := ⟨by simp [initial], by simp [initial], by simp [initial], rfl⟩
  exact holds_along_iff (step sp) (Healthy sp) WellNumbered LiveOnly (liveOnly_step_iff sp) initial ops hw hl

/-- a connection that stands: PONG, and an answer to the command -/
def upEnv : Env := ⟨some (ascii "PONG"), fun _ => .connected, some ⟨none⟩⟩

/-- only the third attempt succeeds -/
def thirdEnv : Env := ⟨some (ascii "PONG"), fun n => if n = 3 then .connected else .refused, some ⟨none⟩⟩

/-- the connection is lost: no reply to PING -/
def lostEnv : Env := ⟨none, fun _ => .connected, none⟩

/-- a codec of one empty message -/
def unitSproto : Sproto Unit Unit := ⟨fun _ _ => some [0#8, 0#8], fun _ _ => some ((), 2)⟩

/-- the third attempt's context is held although it is freed, and the next call sends commands on it; a lost connection
ends the process at the next ping -/
theorem third_attempt_freed_context :
    (run (step unitSproto) initial [(.start, thirdEnv)]).redisContext = some 2 ∧
    2 ∈ (run (step unitSproto) initial [(.start, thirdEnv)]).freed ∧
    (run (step unitSproto) initial [(.start, thirdEnv), (.load [] (), upEnv)]).commands =
      [⟨2, .ping, false⟩, ⟨2, .get [], false⟩] ∧
    (run (step unitSproto) initial [(.start, upEnv), (.load [] (), lostEnv)]).crashed = true := by
  decide +kernel

end OwliesServer.Hiredis
