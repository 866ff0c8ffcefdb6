/-
The other side of a call (3rd/skynet/lualib/skynet.lua): how the handlers of requests answer them. A request is handled in
a coroutine of its own; the handler answers with `skynet.ret`, or takes a function with `skynet.response` that anybody may
call later, or ends without an answer, or raises an error, which is reported to the caller.

- `Handler` is what `session_coroutine_id`, `session_coroutine_address` and `session_response` have for a coroutine, and
  `unresponse` has the functions of `skynet.response` that have not been called, or tested after their source went down.
- `watching_service` counts, for each source, what may still send to it; a source that is reported to be down gets no more
  responses (`dead_service`). A function may be called with "TEST" at any time, also after it has been used; if its source
  is down, each such call releases the source.
- `requests` and the `req` fields are no part of the code: the requests in the order in which they came, and which one a
  coroutine, a function or a message is for. `raised` counts the handlers that ended with an error, and `retested` the
  releases by tests of functions that had been used.

`at_most_one_response`: in every run, a request gets one response or none, what is sent for it goes to its source with its
session, and the count for a source is that of its handlers and its functions, and of its handlers that raised an error,
whose counts are not taken back, or is less by at most the releases by such tests.
-/
import OwliesServer.Core.Machine
import OwliesServer.Skynet.Coroutines

namespace OwliesServer.Responses

open OwliesServer.Machine
open OwliesServer.Coroutines (Co Session Address)

/-! ## The tables -/

structure Handler where
  co : Co
  session : Session
  address : Address
  /-- `session_response` -/
  responded : Bool
  req : ℕ
deriving DecidableEq, Repr

/-- a function of `skynet.response` -/
structure Response where
  session : Session
  address : Address
  req : ℕ
deriving DecidableEq, Repr

inductive Kind where
  | response
  | error
deriving DecidableEq, Repr

structure Sent where
  kind : Kind
  address : Address
  session : Session
  req : ℕ
deriving DecidableEq, Repr

structure St where
  handlers : List Handler
  /-- the functions `skynet.response` has returned -/
  functions : List Response
  unresponse : List Response
  /-- 0 for nil -/
  watchingService : Address → ℕ
  deadService : Address → Bool
  requests : List (Address × Session)
  sent : List Sent
  raised : Address → ℕ
  retested : Address → ℕ

def init : St := ⟨[], [], [], fun _ => 0, fun _ => false, [], [], fun _ => 0, fun _ => 0⟩

inductive Op where
  /-- a request that has a dispatch function, and one of an unknown type -/
  | request (co : Co) (source : Address) (session : Session)
  | unknown (source : Address) (session : Session)
  /-- a message of the type of errors -/
  | error (source : Address) (session : Session)
  /-- RETURN; whether `c.send` takes the message, which may be too large -/
  | ret (co : Co) (taken : Bool)
  /-- RESPONSE -/
  | response (co : Co)
  /-- a call of a function, with its first argument -/
  | answer (f : Response) (ok : Bool) (taken : Bool)
  /-- the call with "TEST" -/
  | test (f : Response)
  /-- EXIT -/
  | exit (co : Co)
  /-- the coroutine raises an error -/
  | raise (co : Co)
deriving DecidableEq, Repr

/-! ## Steps -/

def watch (s : St) (address : Address) : St :=
  { s with watchingService := Function.update s.watchingService address (s.watchingService address + 1) }

def releaseWatching (s : St) (address : Address) : St :=
  { s with watchingService := Function.update s.watchingService address (s.watchingService address - 1) }

def send (s : St) (kind : Kind) (address : Address) (session : Session) (req : ℕ) : St :=
  { s with sent := s.sent ++ [⟨kind, address, session, req⟩] }

/-- `c.send` of a response, and of an error if it does not take it; nothing to a service that is down -/
def sendResponse (s : St) (ok taken : Bool) (address : Address) (session : Session) (req : ℕ) : St :=
  if s.deadService address then s
  else if ok && taken then send s .response address session req
  else send s .error address session req

def handlerOf (s : St) (co : Co) : Option Handler := s.handlers.find? fun h => h.co = co

/-- `session_response[co] = true` -/
def respond (s : St) (h : Handler) : St := { s with handlers := { h with responded := true } :: s.handlers.erase h }

/-- `raw_dispatch_message` of a request; the coroutine is none that handles another one -/
def request (s : St) (co : Co) (source : Address) (session : Session) : St :=
  match handlerOf s co with
  | some _ => s
  | none =>
    { watch s source with
      handlers := ⟨co, session, source, false, s.requests.length⟩ :: s.handlers
      requests := s.requests ++ [(source, session)] }

def unknown (s : St) (source : Address) (session : Session) : St :=
  let s' := { s with requests := s.requests ++ [(source, session)] }
  if session = 0 then s' else send s' .error source session s.requests.length

/-- `_error_dispatch` is a handler too, so its source is watched -/
def errorDispatch (s : St) (source : Address) (session : Session) : St :=
  let s' := watch s source
  releaseWatching
    (if session = 0 ∧ s'.watchingService source ≠ 0 then
      { s' with deadService := Function.update s'.deadService source true }
    else s') source

def step (s : St) : Op → St
  | .request co source session => request s co source session
  | .unknown source session => unknown s source session
  | .error source session => errorDispatch s source session
  | .ret co taken =>
    match handlerOf s co with
    | none => s
    | some h => if h.responded then s else sendResponse (respond s h) true taken h.address h.session h.req
  | .response co =>
    match handlerOf s co with
    | none => s
    | some h =>
      -- without a count for the source, adding to it raises
      if h.responded ∨ s.watchingService h.address = 0 then s
      else
        { watch (respond s h) h.address with
          functions := ⟨h.session, h.address, h.req⟩ :: s.functions
          unresponse := ⟨h.session, h.address, h.req⟩ :: s.unresponse }
  | .answer f ok taken =>
    if f ∈ s.unresponse then
      { releaseWatching (sendResponse s ok taken f.address f.session f.req) f.address with
        unresponse := s.unresponse.erase f }
    else s
  | .test f =>
    if f ∈ s.functions ∧ s.deadService f.address then
      { releaseWatching s f.address with
        unresponse := s.unresponse.erase f
        retested := if f ∈ s.unresponse then s.retested
          else Function.update s.retested f.address (s.retested f.address + 1) }
    else s
  | .exit co =>
    match handlerOf s co with
    | none => s
    | some h => { releaseWatching s h.address with handlers := s.handlers.erase h }
  | .raise co =>
    match handlerOf s co with
    | none => s
    | some h =>
      { if h.session = 0 then s else send s .error h.address h.session h.req with
        handlers := s.handlers.erase h
        raised := Function.update s.raised h.address (s.raised h.address + 1) }

/-! ## What is left of a request -/

/-- what may still become a response to the request, and the responses to it -/
def potential (s : St) (r : ℕ) : ℕ :=
  s.sent.countP (fun m => m.kind = .response ∧ m.req = r) + s.unresponse.countP (fun f => f.req = r) +
    s.handlers.countP fun h => h.req = r ∧ ¬ h.responded

def watchers (s : St) (a : Address) : ℕ :=
  s.handlers.countP (fun h => h.address = a) + s.unresponse.countP (fun f => f.address = a) + s.raised a

structure Inv (s : St) : Prop where
  once : ∀ r, potential s r ≤ if r < s.requests.length then 1 else 0
  handlers : ∀ h ∈ s.handlers, s.requests[h.req]? = some (h.address, h.session)
  unresponse : ∀ f ∈ s.unresponse, s.requests[f.req]? = some (f.address, f.session)
  sent : ∀ m ∈ s.sent, s.requests[m.req]? = some (m.address, m.session)
  watching : ∀ a, s.watchingService a ≤ watchers s a ∧ watchers s a ≤ s.watchingService a + s.retested a

theorem inv_init : Inv init where
  once r := by simp [potential, init]
  handlers := by simp [init]
  unresponse := by simp [init]
  sent := by simp [init]
  watching _ := ⟨Nat.le_refl _, Nat.le_refl _⟩

theorem countP_eq_erase {α : Type} [DecidableEq α] {l : List α} {x : α} (hx : x ∈ l) (p : α → Bool) :
    l.countP p = (l.erase x).countP p + if p x then 1 else 0 := by
  rw [(List.perm_cons_erase hx).countP_eq p, List.countP_cons]

theorem getElem?_snoc {α : Type} {l : List α} {x y : α} {i : ℕ} (h : l[i]? = some y) : (l ++ [x])[i]? = some y := by
  rw [List.getElem?_append_left (List.getElem?_eq_some_iff.1 h).1, h]

theorem update_eq_ite (f : Address → ℕ) (a b : Address) (n : ℕ) : Function.update f a n b = if a = b then n else f b := by
  rw [Function.update_apply]
  exact if_congr eq_comm rfl rfl

section Parts

variable {s : St} {h : Handler}

theorem handlerOf_mem {co : Co} (hh : handlerOf s co = some h) : h ∈ s.handlers := List.mem_of_find?_eq_some hh

/-- sending changes the record only -/
theorem sendResponse_eq (s : St) (ok taken : Bool) (address : Address) (session : Session) (req : ℕ) :
    ∃ sent, sendResponse s ok taken address session req = { s with sent := sent } ∧
      (∀ r, sent.countP (fun m => m.kind = .response ∧ m.req = r) ≤
        s.sent.countP (fun m => m.kind = .response ∧ m.req = r) + if req = r then 1 else 0) ∧
      ∀ m ∈ sent, m ∈ s.sent ∨ m.address = address ∧ m.session = session ∧ m.req = req := by
  have hmem (kind : Kind) (m : Sent) (hm : m ∈ s.sent ++ [⟨kind, address, session, req⟩]) :
      m ∈ s.sent ∨ m.address = address ∧ m.session = session ∧ m.req = req := by
    rcases List.mem_append.1 hm with hm | hm
    · exact .inl hm
    · obtain rfl := List.mem_singleton.1 hm
      exact .inr ⟨rfl, rfl, rfl⟩
  unfold sendResponse
  split_ifs
  · exact ⟨s.sent, rfl, fun r => Nat.le_add_right _ _, fun m hm => .inl hm⟩
  · exact ⟨_, rfl, fun r => by simp, hmem .response⟩
  · exact ⟨_, rfl, fun r => by simp, hmem .error⟩

/-- the handler that responds was one that could -/
theorem countP_respond (hh : h ∈ s.handlers) (hr : h.responded = false) (r : ℕ) :
    s.handlers.countP (fun x => x.req = r ∧ ¬ x.responded) =
      (respond s h).handlers.countP (fun x => x.req = r ∧ ¬ x.responded) + if h.req = r then 1 else 0 := by
  rw [countP_eq_erase hh]
  simp [respond, hr]

theorem countP_address_respond (hh : h ∈ s.handlers) (a : Address) :
    (respond s h).handlers.countP (fun x => x.address = a) = s.handlers.countP fun x => x.address = a := by
  rw [countP_eq_erase hh, respond, List.countP_cons]

theorem Inv.respond_handlers (hs : Inv s) (hh : h ∈ s.handlers) :
    ∀ x ∈ (respond s h).handlers, s.requests[x.req]? = some (x.address, x.session) := by
  intro x hx
  rcases List.mem_cons.1 hx with rfl | hx
  · exact hs.handlers h hh
  · exact hs.handlers x (List.mem_of_mem_erase hx)

end Parts

/-! ## Steps keep the accounts -/

section Steps

variable {s : St}

theorem inv_ret (hs : Inv s) (co : Co) (taken : Bool) : Inv (step s (.ret co taken)) := by
  rw [step]
  cases hco : handlerOf s co with
  | none => exact hs
  | some h =>
    have hh := handlerOf_mem hco
    dsimp only
    split_ifs with hr
    · exact hs
    · obtain ⟨sent, heq, hcount, hmem⟩ := sendResponse_eq (respond s h) true taken h.address h.session h.req
      rw [heq]
      refine ⟨fun r => Nat.le_trans ?_ (hs.once r), hs.respond_handlers hh, hs.unresponse, fun m hm => ?_, fun a => ?_⟩
      · have hhandlers := countP_respond hh (Bool.eq_false_iff.2 hr) r
        have hsent : sent.countP _ ≤ s.sent.countP _ + _ := hcount r
        calc sent.countP _ + s.unresponse.countP _ + (respond s h).handlers.countP _
            ≤ s.sent.countP _ + (if h.req = r then 1 else 0) + s.unresponse.countP _ + (respond s h).handlers.countP _ :=
              Nat.add_le_add_right (Nat.add_le_add_right hsent _) _
          _ = potential s r := by rw [potential, hhandlers]; omega
      · rcases hmem m hm with hm | ⟨haddress, hsession, hreq⟩
        · exact hs.sent m hm
        · rw [haddress, hsession, hreq]
          exact hs.handlers h hh
      · rw [watchers, countP_address_respond hh]
        exact hs.watching a

theorem inv_response (hs : Inv s) (co : Co) : Inv (step s (.response co)) := by
  rw [step]
  cases hco : handlerOf s co with
  | none => exact hs
  | some h =>
    have hh := handlerOf_mem hco
    dsimp only
    split_ifs with hr
    · exact hs
    · refine ⟨fun r => Nat.le_trans ?_ (hs.once r), hs.respond_handlers hh, fun f hf => ?_, hs.sent, fun a => ?_⟩
      · rw [potential, potential, countP_respond hh (Bool.eq_false_iff.2 fun h => hr (.inl h)) r, List.countP_cons]
        simp only [decide_eq_true_eq, watch, respond]
        omega
      · rcases List.mem_cons.1 hf with rfl | hf
        · exact hs.handlers h hh
        · exact hs.unresponse f hf
      · have hwatching := hs.watching a
        simp only [watchers] at hwatching
        rw [watchers, List.countP_cons]
        simp only [watch, update_eq_ite, countP_address_respond hh, decide_eq_true_eq]
        change (if h.address = a then s.watchingService h.address + 1 else s.watchingService a) ≤ _ + s.raised a ∧
          _ + s.raised a ≤ (if h.address = a then s.watchingService h.address + 1 else s.watchingService a) + s.retested a
        split_ifs with ha
        · rw [ha]
          omega
        · omega

/-- a function that is called, or found to be for a service that is down -/
theorem inv_release (hs : Inv s) {f : Response} (hf : f ∈ s.unresponse) {sent : List Sent}
    (hcount : ∀ r, sent.countP (fun m => m.kind = .response ∧ m.req = r) ≤
      s.sent.countP (fun m => m.kind = .response ∧ m.req = r) + if f.req = r then 1 else 0)
    (hmem : ∀ m ∈ sent, m ∈ s.sent ∨ m.address = f.address ∧ m.session = f.session ∧ m.req = f.req) :
    Inv { releaseWatching { s with sent := sent } f.address with unresponse := s.unresponse.erase f } := by
  refine ⟨fun r => Nat.le_trans ?_ (hs.once r), hs.handlers, fun g hg => ?_, fun m hm => ?_, fun a => ?_⟩
  · have herase := countP_eq_erase hf fun g => g.req = r
    have hsent := hcount r
    simp only [decide_eq_true_eq] at herase
    simp only [potential, releaseWatching, herase]
    omega
  · exact hs.unresponse g (List.mem_of_mem_erase hg)
  · rcases hmem m hm with hm | ⟨haddress, hsession, hreq⟩
    · exact hs.sent m hm
    · rw [haddress, hsession, hreq]
      exact hs.unresponse f hf
  · have herase := countP_eq_erase hf fun g => g.address = a
    have hwatching := hs.watching a
    simp only [decide_eq_true_eq] at herase
    simp only [watchers] at hwatching
    simp only [watchers, releaseWatching, update_eq_ite]
    split_ifs at herase ⊢ with ha
    · rw [ha]
      omega
    · omega

/-- a function that had been used is tested, and its service is down -/
theorem inv_retest (hs : Inv s) {f : Response} (hf : f ∉ s.unresponse) :
    Inv { releaseWatching s f.address with
      unresponse := s.unresponse.erase f
      retested := Function.update s.retested f.address (s.retested f.address + 1) } := by
  rw [List.erase_of_not_mem hf]
  refine ⟨hs.once, hs.handlers, hs.unresponse, hs.sent, fun a => ?_⟩
  have hwatching := hs.watching a
  simp only [watchers] at hwatching
  simp only [watchers, releaseWatching, update_eq_ite]
  split_ifs with ha
  · rw [ha]
    omega
  · exact hwatching

/-- the handler is taken out of the tables; `sent` has no response more -/
theorem inv_erase (hs : Inv s) {h : Handler} (hh : h ∈ s.handlers) {sent : List Sent} {watching raised : Address → ℕ}
    (hcount : ∀ r, sent.countP (fun m => m.kind = .response ∧ m.req = r) =
      s.sent.countP (fun m => m.kind = .response ∧ m.req = r))
    (hmem : ∀ m ∈ sent, m ∈ s.sent ∨ m.address = h.address ∧ m.session = h.session ∧ m.req = h.req)
    (hwatching : ∀ a, watching a = s.watchingService a - (if h.address = a then 1 else 0) ∧ raised a = s.raised a ∨
      watching a = s.watchingService a ∧ raised a = s.raised a + if h.address = a then 1 else 0) :
    Inv { s with handlers := s.handlers.erase h, sent := sent, watchingService := watching, raised := raised } := by
  refine ⟨fun r => Nat.le_trans ?_ (hs.once r), fun x hx => ?_, hs.unresponse, fun m hm => ?_, fun a => ?_⟩
  · have herase := countP_eq_erase hh fun x => x.req = r ∧ ¬ x.responded
    simp only [potential, hcount, herase]
    omega
  · exact hs.handlers x (List.mem_of_mem_erase hx)
  · rcases hmem m hm with hm | ⟨haddress, hsession, hreq⟩
    · exact hs.sent m hm
    · rw [haddress, hsession, hreq]
      exact hs.handlers h hh
  · have herase := countP_eq_erase hh fun x => x.address = a
    have hold := hs.watching a
    have hnew := hwatching a
    simp only [decide_eq_true_eq] at herase
    simp only [watchers, herase] at hold ⊢
    rcases hnew with ⟨hw, hr⟩ | ⟨hw, hr⟩
    · rw [hw, hr]
      omega
    · rw [hw, hr]
      omega

theorem inv_request (hs : Inv s) (co : Co) (source : Address) (session : Session) :
    Inv (request s co source session) := by
  unfold request
  cases handlerOf s co with
  | some h => exact hs
  | none =>
    refine ⟨fun r => ?_, fun x hx => ?_, fun f hf => getElem?_snoc (hs.unresponse f hf),
      fun m hm => getElem?_snoc (hs.sent m hm), fun a => ?_⟩
    · have honce := hs.once r
      simp only [potential, watch, List.countP_cons, List.length_append, List.length_singleton] at honce ⊢
      simp only [Bool.false_eq_true, not_false_eq_true, and_true, decide_eq_true_eq]
      split_ifs at honce ⊢ <;> omega
    · rcases List.mem_cons.1 hx with rfl | hx
      · simp
      · exact getElem?_snoc (hs.handlers x hx)
    · have hold := hs.watching a
      simp only [watchers] at hold
      simp only [watchers, watch, update_eq_ite, List.countP_cons, decide_eq_true_eq]
      split_ifs with ha
      · rw [ha]
        omega
      · exact hold

theorem inv_unknown (hs : Inv s) (source : Address) (session : Session) : Inv (unknown s source session) := by
  have hinv (sent : List Sent) (hcount : ∀ r, sent.countP (fun m => m.kind = .response ∧ m.req = r) =
      s.sent.countP (fun m => m.kind = .response ∧ m.req = r))
      (hmem : ∀ m ∈ sent, m ∈ s.sent ∨ m = ⟨.error, source, session, s.requests.length⟩) :
      Inv { s with requests := s.requests ++ [(source, session)], sent := sent } := by
    refine ⟨fun r => ?_, fun x hx => getElem?_snoc (hs.handlers x hx), fun f hf => getElem?_snoc (hs.unresponse f hf),
      fun m hm => ?_, hs.watching⟩
    · have honce := hs.once r
      simp only [potential, hcount, List.length_append, List.length_singleton] at honce ⊢
      split_ifs at honce ⊢ <;> omega
    · rcases hmem m hm with hm | rfl
      · exact getElem?_snoc (hs.sent m hm)
      · simp
  unfold unknown
  dsimp only
  split_ifs
  · exact hinv s.sent (fun _ => rfl) fun m hm => .inl hm
  · exact hinv _ (fun r => by simp) fun m hm => by simpa using hm

theorem inv_errorDispatch (hs : Inv s) (source : Address) (session : Session) :
    Inv (errorDispatch s source session) := by
  have hsame : Function.update (Function.update s.watchingService source (s.watchingService source + 1)) source
      (s.watchingService source + 1 - 1) = s.watchingService := by
    rw [Function.update_idem, Nat.add_sub_cancel, Function.update_eq_self]
  have hinv (dead : Address → Bool) : Inv { s with deadService := dead } :=
    ⟨hs.once, hs.handlers, hs.unresponse, hs.sent, hs.watching⟩
  unfold errorDispatch
  dsimp only
  split_ifs
  · simp only [releaseWatching, watch, Function.update_self, hsame]
    exact hinv _
  · simp only [releaseWatching, watch, Function.update_self, hsame]
    exact hinv _

theorem inv_step (s : St) (o : Op) (hs : Inv s) : Inv (step s o) := by
  cases o with
  | request co source session => exact inv_request hs co source session
  | unknown source session => exact inv_unknown hs source session
  | error source session => exact inv_errorDispatch hs source session
  | ret co taken => exact inv_ret hs co taken
  | response co => exact inv_response hs co
  | answer f ok taken =>
    rw [step]
    split_ifs with hf
    · obtain ⟨sent, heq, hcount, hmem⟩ := sendResponse_eq s ok taken f.address f.session f.req
      rw [heq]
      exact inv_release hs hf hcount hmem
    · exact hs
  | test f =>
    rw [step]
    split_ifs with hf hpending
    · exact inv_release hs hpending (fun r => Nat.le_add_right _ _) fun m hm => .inl hm
    · exact inv_retest hs hpending
    · exact hs
  | exit co =>
    rw [step]
    cases hco : handlerOf s co with
    | none => exact hs
    | some h =>
      refine inv_erase hs (handlerOf_mem hco) (fun _ => rfl) (fun m hm => .inl hm) fun a => .inl ⟨?_, rfl⟩
      simp only [releaseWatching, update_eq_ite]
      split_ifs with ha
      · rw [ha]
      · rfl
  | raise co =>
    rw [step]
    cases hco : handlerOf s co with
    | none => exact hs
    | some h =>
      have hraised (a : Address) : Function.update s.raised h.address (s.raised h.address + 1) a =
          s.raised a + if h.address = a then 1 else 0 := by
        rw [update_eq_ite]
        split_ifs with ha
        · rw [ha]
        · rfl
      dsimp only
      split_ifs
      · exact inv_erase hs (handlerOf_mem hco) (fun _ => rfl) (fun m hm => .inl hm) fun a => .inr ⟨rfl, hraised a⟩
      · refine inv_erase hs (handlerOf_mem hco) (fun r => by simp [send]) (fun m hm => ?_) fun a => .inr ⟨rfl, hraised a⟩
        rcases List.mem_append.1 hm with hm | hm
        · exact .inl hm
        · obtain rfl := List.mem_singleton.1 hm
          exact .inr ⟨rfl, rfl, rfl⟩

end Steps

/-! ## Runs -/

def reached (ops : List Op) : St := run step init ops

/-- **A request gets at most one response.** In every run: of the responses sent, at most one is for a given request;
what is sent for a request goes to its source, with its session; and `watching_service` has for a source as many as it has
handlers, functions that have not been used, and handlers that ended with an error, less at most one for each time a
function that had been used was tested after the source went down. -/
theorem at_most_one_response (ops : List Op) :
    (∀ r, (reached ops).sent.countP (fun m => m.kind = .response ∧ m.req = r) ≤ 1) ∧
      (∀ m ∈ (reached ops).sent, (reached ops).requests[m.req]? = some (m.address, m.session)) ∧
      ∀ a, (reached ops).watchingService a ≤ watchers (reached ops) a ∧
        watchers (reached ops) a ≤ (reached ops).watchingService a + (reached ops).retested a := by
  have hs : Inv (reached ops) := run_inv step Inv inv_step init ops inv_init
  refine ⟨fun r => ?_, hs.sent, hs.watching⟩
  calc (reached ops).sent.countP (fun m => m.kind = .response ∧ m.req = r)
      ≤ potential (reached ops) r := by rw [potential, Nat.add_assoc]; exact Nat.le_add_right _ _
    _ ≤ if r < (reached ops).requests.length then 1 else 0 := hs.once r
    _ ≤ 1 := by split_ifs <;> decide

/-- a response is answered; then its source is reported to be down, and the function is tested -/
def testedTwice : List Op :=
  [.request 0 1 5, .response 0, .answer ⟨5, 1, 0⟩ true true, .exit 0, .request 1 1 6, .error 1 0, .test ⟨5, 1, 0⟩]

/-- the source is no longer watched, though a handler of its second request is alive -/
example : (reached testedTwice).watchingService 1 = 0 ∧ watchers (reached testedTwice) 1 = 1 ∧
    (reached testedTwice).retested 1 = 1 := by decide

end OwliesServer.Responses
