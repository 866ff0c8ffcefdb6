/-
Session tracking of owlies_api (Script/Service/owlies_api.lua): `networkSessionMap`, `updateClientSession` and the
session part of `CMD.receivedApiCall` and `CMD.receivedChangeEvent`.

Both handlers run their session check before anything else, without yielding, and touch the map nowhere else. A
sequence of calls, from any number of connections and in any interleaving, is therefore a run of `step`.
- Sessions are the C `int`s that `unpackMessage` pushes, so `serverSession + 1` never leaves Lua's integer range.
- `admission` answers `none` where the code raises: the log line of the rejection concatenates an absent entry.
- A login is a `receivedApiCall` named LoginRequest. A `receivedChangeEvent` of that name is checked like any other
  message.

`session_order_and_isolation`: between two logins of a connection exactly the next sessions are accepted, in order;
before the first login nothing is; and other connections have no influence on any of it.
-/
import OwliesServer.Core.Machine
import OwliesServer.Data.LuaTable

namespace OwliesServer.Sessions

open OwliesServer.CChar OwliesServer.Machine OwliesServer.LuaTable

/-! ## Model -/

abbrev Fd := ℕ

/-- `networkSessionMap`; `none` is nil -/
abbrev SessionMap := Fd → Option (BitVec 32)

/-- the empty table the service starts with -/
def noSessions : SessionMap := fun _ => none

namespace SprotoNames

def LoginRequest : Bytes := ascii "LoginRequest"

def LoginResponse : Bytes := ascii "LoginResponse"

end SprotoNames

inductive Cmd where
  | receivedApiCall
  | receivedChangeEvent
deriving DecidableEq, Repr

/-- the arguments of the two session-checked commands -/
structure Call where
  cmd : Cmd
  clientFd : Fd
  clientSession : BitVec 32
  messageType : ℤ
  sprotoName : Bytes
  sproto : Table
deriving DecidableEq, Repr

/-- the log line of a rejected call; concatenating a nil entry raises -/
def missingSessionsLine (clientFd : Fd) (clientSession : BitVec 32) : Option (BitVec 32) → Option Bytes
  | none => none
  | some entry => some (ascii "Missing sessions: client " ++ ascii (toString clientFd) ++ ascii ", clientSession " ++
      ascii (toString clientSession.toInt) ++ ascii ", serverSession " ++ ascii (toString entry.toInt))

/-- `updateClientSession`: the answer and the map afterwards, `none` where it raises -/
def updateClientSession (m : SessionMap) (clientFd : Fd) (clientSession : BitVec 32) : Option (Bool × SessionMap) :=
  match m clientFd with
  | none => (missingSessionsLine clientFd clientSession (m clientFd)).map fun _ => (false, m)
  | some serverSession =>
    if clientSession.toInt ≠ serverSession.toInt + 1 then
      (missingSessionsLine clientFd clientSession (m clientFd)).map fun _ => (false, m)
    else some (true, Function.update m clientFd (some clientSession))

/-- the session part of both handlers -/
def admission (m : SessionMap) (c : Call) : Option (Bool × SessionMap) :=
  match c.cmd with
  | .receivedApiCall =>
    if c.sprotoName = SprotoNames.LoginRequest then some (true, Function.update m c.clientFd (some c.clientSession))
    else updateClientSession m c.clientFd c.clientSession
  | .receivedChangeEvent => updateClientSession m c.clientFd c.clientSession

/-- the call is a login: it starts a session instead of being checked against one -/
def Call.IsLogin (c : Call) : Prop := c.cmd = .receivedApiCall ∧ c.sprotoName = SprotoNames.LoginRequest

instance (c : Call) : Decidable c.IsLogin := by
  unfold Call.IsLogin; infer_instance

/-- the call gets past the session check -/
def accepts (m : SessionMap) (c : Call) : Bool := (admission m c).any Prod.fst

/-- the map after the call; a raising call leaves it alone -/
def step (m : SessionMap) (c : Call) : SessionMap := ((admission m c).map Prod.snd).getD m

/-! ## What one call does -/

theorem admission_login (m : SessionMap) (c : Call) (h : c.IsLogin) :
    admission m c = some (true, Function.update m c.clientFd (some c.clientSession)) := by
  simp [admission, h.1, h.2]

theorem admission_not_login (m : SessionMap) (c : Call) (h : ¬ c.IsLogin) :
    admission m c = updateClientSession m c.clientFd c.clientSession := by
  unfold admission
  split
  · rename_i hc
    rw [if_neg (fun hn => h ⟨hc, hn⟩)]
  · rfl

/-- an unknown connection: the rejection itself raises -/
theorem admission_unknown (m : SessionMap) (c : Call) (h : ¬ c.IsLogin) (hm : m c.clientFd = none) :
    admission m c = none := by
  rw [admission_not_login m c h]; simp [updateClientSession, hm, missingSessionsLine]

theorem admission_next (m : SessionMap) (c : Call) (v : BitVec 32) (h : ¬ c.IsLogin) (hm : m c.clientFd = some v)
    (hs : c.clientSession.toInt = v.toInt + 1) :
    admission m c = some (true, Function.update m c.clientFd (some c.clientSession)) := by
  rw [admission_not_login m c h]; simp [updateClientSession, hm, hs]

theorem admission_mismatch (m : SessionMap) (c : Call) (v : BitVec 32) (h : ¬ c.IsLogin) (hm : m c.clientFd = some v)
    (hs : c.clientSession.toInt ≠ v.toInt + 1) : admission m c = some (false, m) := by
  rw [admission_not_login m c h]; simp [updateClientSession, hm, hs, missingSessionsLine]

/-- everything a call can do -/
theorem admission_cases (m : SessionMap) (c : Call) :
    (admission m c = some (true, Function.update m c.clientFd (some c.clientSession)) ∧
      (c.IsLogin ∨ ∃ v, m c.clientFd = some v ∧ c.clientSession.toInt = v.toInt + 1)) ∨
    (¬ c.IsLogin ∧ m c.clientFd = none ∧ admission m c = none) ∨
    (¬ c.IsLogin ∧ ∃ v, m c.clientFd = some v ∧ c.clientSession.toInt ≠ v.toInt + 1 ∧
      admission m c = some (false, m)) := by
  by_cases hl : c.IsLogin
  · exact Or.inl ⟨admission_login m c hl, Or.inl hl⟩
  · cases hm : m c.clientFd with
    | none => exact Or.inr (Or.inl ⟨hl, rfl, admission_unknown m c hl hm⟩)
    | some v =>
      by_cases hs : c.clientSession.toInt = v.toInt + 1
      · exact Or.inl ⟨admission_next m c v hl hm hs, Or.inr ⟨v, rfl, hs⟩⟩
      · exact Or.inr (Or.inr ⟨hl, v, rfl, hs, admission_mismatch m c v hl hm hs⟩)

theorem step_of_admission {m m' : SessionMap} {c : Call} {b : Bool} (h : admission m c = some (b, m')) :
    step m c = m' := by
  simp [step, h]

theorem accepts_of_admission {m m' : SessionMap} {c : Call} {b : Bool} (h : admission m c = some (b, m')) :
    accepts m c = b := by
  simp [accepts, h]

theorem step_accepted (m : SessionMap) (c : Call) (h : accepts m c = true) :
    step m c = Function.update m c.clientFd (some c.clientSession) := by
  rcases admission_cases m c with ⟨ha, -⟩ | ⟨-, -, ha⟩ | ⟨-, -, -, -, ha⟩
  · exact step_of_admission ha
  · simp [accepts, ha] at h
  · rw [accepts_of_admission ha] at h; exact absurd h (by decide)

theorem step_refused (m : SessionMap) (c : Call) (h : accepts m c = false) : step m c = m := by
  rcases admission_cases m c with ⟨ha, -⟩ | ⟨-, -, ha⟩ | ⟨-, -, -, -, ha⟩
  · rw [accepts_of_admission ha] at h; exact absurd h (by decide)
  · simp [step, ha]
  · exact step_of_admission ha

/-- a call only touches the entry of its own connection -/
theorem step_other (m : SessionMap) (c : Call) (fd : Fd) (h : c.clientFd ≠ fd) : step m c fd = m fd := by
  cases ha : accepts m c with
  | false => rw [step_refused m c ha]
  | true => rw [step_accepted m c ha, Function.update_of_ne (Ne.symm h)]

/-- whether a call is accepted depends on the entry of its own connection only -/
theorem accepts_congr (m m' : SessionMap) (c : Call) (h : m c.clientFd = m' c.clientFd) :
    accepts m c = accepts m' c := by
  by_cases hl : c.IsLogin
  · rw [accepts_of_admission (admission_login m c hl), accepts_of_admission (admission_login m' c hl)]
  · cases hm : m c.clientFd with
    | none => simp [accepts, admission_unknown m c hl hm, admission_unknown m' c hl (h ▸ hm)]
    | some v =>
      by_cases hs : c.clientSession.toInt = v.toInt + 1
      · rw [accepts_of_admission (admission_next m c v hl hm hs),
          accepts_of_admission (admission_next m' c v hl (h ▸ hm) hs)]
      · rw [accepts_of_admission (admission_mismatch m c v hl hm hs),
          accepts_of_admission (admission_mismatch m' c v hl (h ▸ hm) hs)]

theorem accepts_unknown (m : SessionMap) (c : Call) (h : ¬ c.IsLogin) (hm : m c.clientFd = none) :
    accepts m c = false := by
  simp [accepts, admission_unknown m c h hm]

theorem accepts_iff (m : SessionMap) (c : Call) (v : BitVec 32) (h : ¬ c.IsLogin) (hm : m c.clientFd = some v) :
    accepts m c = true ↔ c.clientSession.toInt = v.toInt + 1 := by
  by_cases hs : c.clientSession.toInt = v.toInt + 1
  · simp [accepts_of_admission (admission_next m c v h hm hs), hs]
  · simp [accepts_of_admission (admission_mismatch m c v h hm hs), hs]

/-! ## Runs -/

/-- the operations of connection `fd` -/
def ofFd (fd : Fd) (c : Call) : Bool := c.clientFd = fd

/-- for every call of `fd`, in order: was it accepted -/
def acceptance (fd : Fd) (m : SessionMap) (cs : List Call) : List Bool := observed step accepts (ofFd fd) m cs

/-- the sessions of the accepted calls of `fd`, in order -/
def acceptedSessions (fd : Fd) (m : SessionMap) (cs : List Call) : List ℤ :=
  (observed step (fun m c => if accepts m c then some c.clientSession.toInt else none) (ofFd fd) m cs).filterMap id

theorem acceptedSessions_cons (fd : Fd) (m : SessionMap) (c : Call) (cs : List Call) :
    acceptedSessions fd m (c :: cs) =
      if c.clientFd = fd ∧ accepts m c = true then c.clientSession.toInt :: acceptedSessions fd (step m c) cs
      else acceptedSessions fd (step m c) cs := by
  by_cases hf : c.clientFd = fd <;> cases ha : accepts m c <;>
    simp [acceptedSessions, observed, ofFd, hf, ha]

/-- without a login of `fd` and without an entry, nothing of `fd` is accepted and no entry appears -/
theorem before_login (fd : Fd) (m : SessionMap) (cs : List Call) (hm : m fd = none)
    (hcs : ∀ c ∈ cs, c.clientFd = fd → ¬ c.IsLogin) :
    acceptedSessions fd m cs = [] ∧ run step m cs fd = none := by
  induction cs generalizing m with
  | nil => exact ⟨rfl, hm⟩
  | cons c cs ih =>
    have hrest : ∀ c' ∈ cs, c'.clientFd = fd → ¬ c'.IsLogin := fun c' hc' => hcs c' (List.mem_cons_of_mem _ hc')
    rw [acceptedSessions_cons, run_cons]
    by_cases hf : c.clientFd = fd
    · have ha := accepts_unknown m c (hcs c List.mem_cons_self hf) (hf ▸ hm)
      rw [if_neg (by simp [ha]), step_refused m c ha]
      exact ih m hm hrest
    · rw [if_neg (fun h => hf h.1)]
      exact ih _ ((step_other m c fd hf).trans hm) hrest

/-- from an entry `v` on, as long as `fd` does not log in again: the accepted sessions are the next ones after `v`, in
order, and the entry has advanced by as many -/
theorem after_login (fd : Fd) (m : SessionMap) (cs : List Call) (v : BitVec 32) (hm : m fd = some v)
    (hcs : ∀ c ∈ cs, c.clientFd = fd → ¬ c.IsLogin) :
    ∃ k, acceptedSessions fd m cs = (List.range k).map (fun i : ℕ => v.toInt + 1 + i) ∧
      ∃ w, run step m cs fd = some w ∧ w.toInt = v.toInt + k := by
  induction cs generalizing m v with
  | nil => exact ⟨0, rfl, v, hm, by simp⟩
  | cons c cs ih =>
    have hrest : ∀ c' ∈ cs, c'.clientFd = fd → ¬ c'.IsLogin := fun c' hc' => hcs c' (List.mem_cons_of_mem _ hc')
    rw [acceptedSessions_cons, run_cons]
    cases ha : accepts m c with
    | false =>
      rw [if_neg (by simp), step_refused m c ha]
      exact ih m v hm hrest
    | true =>
      by_cases hf : c.clientFd = fd
      · have hs := (accepts_iff m c v (hcs c List.mem_cons_self hf) (hf ▸ hm)).1 ha
        have hm' : step m c fd = some c.clientSession := by
          rw [step_accepted m c ha, hf, Function.update_self]
        obtain ⟨k, hk, w, hw, hwk⟩ := ih _ _ hm' hrest
        refine ⟨k + 1, ?_, w, hw, by push_cast; omega⟩
        rw [if_pos ⟨hf, rfl⟩, hk, List.range_succ_eq_map, List.map_cons, List.map_map]
        have hrange : (fun i : ℕ => c.clientSession.toInt + 1 + (i : ℤ)) =
            (fun i : ℕ => v.toInt + 1 + (i : ℤ)) ∘ Nat.succ := by
          funext i; simp only [Function.comp, hs, Nat.succ_eq_add_one]; push_cast; ring
        rw [hrange, hs]
        simp
      · rw [if_neg (fun h => hf h.1)]
        exact ih _ v ((step_other m c fd hf).trans hm) hrest

/-- a run of only `fd`'s calls decides about `fd` -/
theorem fd_isolated (fd : Fd) (m : SessionMap) (cs : List Call) :
    run step m cs fd = run step m (cs.filter (ofFd fd)) fd ∧
      acceptance fd m cs = acceptance fd m (cs.filter (ofFd fd)) := by
  refine isolated step accepts (ofFd fd) (fun m => m fd) ?_ ?_ m m cs rfl
  · intro s c hc
    exact step_other s c fd (by simpa [ofFd] using hc)
  · intro s t c hc hst
    have hf : c.clientFd = fd := by simpa [ofFd] using hc
    have hacc : accepts s c = accepts t c := accepts_congr s t c (hf ▸ hst)
    refine ⟨?_, hacc⟩
    cases ha : accepts s c with
    | false => rw [step_refused s c ha, step_refused t c (hacc ▸ ha)]; exact hst
    | true =>
      rw [step_accepted s c ha, step_accepted t c (hacc ▸ ha), hf]
      simp only [Function.update_self]

/-- **In order, without replay, isolated.** For every sequence of calls from the empty map and every connection `fd`:
(1) between a login of `fd` with session s and the next one, the accepted messages of `fd` carry exactly the sessions
s+1, ..., s+k, in this order; before the first login of `fd` none is accepted;
(2) which messages of `fd` are accepted, and the entry of `fd` in the end, are those of the run of `fd`'s calls alone. -/
theorem session_order_and_isolation (cs : List Call) (fd : Fd) :
    (∀ pre login mid post, cs = pre ++ login :: mid ++ post → login.clientFd = fd → login.IsLogin →
      (∀ c ∈ mid, c.clientFd = fd → ¬ c.IsLogin) →
      ∃ k, acceptedSessions fd (run step noSessions (pre ++ [login])) mid =
        (List.range k).map (fun i : ℕ => login.clientSession.toInt + 1 + i)) ∧
    (∀ pre post, cs = pre ++ post → (∀ c ∈ pre, c.clientFd = fd → ¬ c.IsLogin) →
      acceptedSessions fd noSessions pre = []) ∧
    acceptance fd noSessions cs = acceptance fd noSessions (cs.filter (ofFd fd)) ∧
    run step noSessions cs fd = run step noSessions (cs.filter (ofFd fd)) fd := by
  refine ⟨?_, ?_, (fd_isolated fd noSessions cs).2, (fd_isolated fd noSessions cs).1⟩
  · intro pre login mid post _ hfd hl hmid
    have hentry : run step noSessions (pre ++ [login]) fd = some login.clientSession := by
      rw [run_append, run_cons, run_nil, step_of_admission (admission_login _ _ hl), hfd, Function.update_self]
    obtain ⟨k, hk, -⟩ := after_login fd _ mid _ hentry hmid
    exact ⟨k, hk⟩
  · intro pre post _ hpre
    exact (before_login fd noSessions pre rfl hpre).1

end OwliesServer.Sessions
