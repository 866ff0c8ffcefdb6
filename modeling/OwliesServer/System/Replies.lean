/-
Does every request get its reply? An agent's coroutine blocked in a call to owlies_api waits for exactly one thing:
its request in the mailbox of owlies_api, its handler, or the reply in the agent's mailbox. A call of `syncError`
breaks this: owlies_api has no such command, takes the message and does nothing. Agents call `syncError` for client
messages of an unknown type and after every error reply.

- `Balanced`: for each agent and request number, as many blocked coroutines as requests, handlers and replies in
  flight.
- `requests_answered`: in runs in which client messages have one of the two types, no handler starts on a connection
  without a session unless it is a login, and no reply of MySQL or Redis makes a login raise, every blocked coroutine
  has exactly one reply coming, and when nothing is in flight none is blocked.
- `sync_error_blocks`: one message of an unknown type, or one from a client that has not logged in, blocks a coroutine
  for good.
-/
import OwliesServer.System.Routing

namespace OwliesServer.Server

open OwliesServer.CChar OwliesServer.LuaTable OwliesServer.Sessions OwliesServer.Handlers OwliesServer.Machine
open OwliesServer.Watchdog (AgentId)
open OwliesServer.ObjectBase (Codec Request Reply)

/-! ## What a blocked coroutine waits for -/

section Counts

variable (s : St) (a : AgentId) (r : ReqId)

def waiting : ℕ := s.blocked.countP fun c => c.req = r ∧ c.agent = a

def isReply : AgentMsg → Bool
  | .reply r' _ => r' = r
  | _ => false

/-- the requests, handlers and replies with number r of agent a -/
def inFlight : ℕ :=
  (s.apiBox.countP fun e => e.req = r ∧ e.agent = a) + (s.handlers.countP fun h => h.req = r ∧ h.agent = a) +
    (s.inbox a).countP (isReply r)

end Counts

section Effects

variable (s : St) (a b : AgentId) (r : ReqId)

theorem inFlight_post (msg : AgentMsg) (hb : s.exited b = false) :
    inFlight (post s b msg) a r = inFlight s a r + if a = b ∧ isReply r msg = true then 1 else 0 := by
  simp only [inFlight, post_inbox]
  by_cases hab : a = b
  · subst hab
    rw [if_pos ⟨rfl, hb⟩, List.countP_append, List.countP_singleton]
    show _ + _ + (_ + _) = _
    simp only [true_and]
    exact (Nat.add_assoc _ _ _).symm
  · rw [if_neg (fun h => hab h.1), if_neg (fun h => hab h.1)]
    rfl

theorem inFlight_post_other (msg : AgentMsg) (h : ∀ r, isReply r msg = false) :
    inFlight (post s b msg) a r = inFlight s a r := by
  simp only [inFlight, post_inbox]
  split_ifs
  · rw [List.countP_append, List.countP_singleton, h r]; rfl
  · rfl

theorem inFlight_take (msg : AgentMsg) (rest : List AgentMsg) (hi : s.inbox b = msg :: rest) :
    inFlight s a r = inFlight (take s b rest) a r + if a = b ∧ isReply r msg = true then 1 else 0 := by
  simp only [inFlight, take_inbox]
  by_cases hab : a = b
  · subst hab
    rw [hi, List.countP_cons, if_pos rfl]
    simp only [true_and]
    exact (Nat.add_assoc _ _ _).symm
  · rw [if_neg hab, if_neg (fun h => hab h.1)]
    rfl

theorem waiting_request (msg : ApiMsg) (stage : Stage) :
    waiting (request s b msg stage) a r = waiting s a r + if s.next = r ∧ b = a then 1 else 0 := by
  simp [waiting, request, List.countP_append, List.countP_singleton]

theorem inFlight_request (msg : ApiMsg) (stage : Stage) :
    inFlight (request s b msg stage) a r = inFlight s a r + if s.next = r ∧ b = a then 1 else 0 := by
  simp only [inFlight, request, List.countP_append, List.countP_singleton, decide_eq_true_eq]
  omega

theorem waiting_unblock (c : Coroutine) (hc : c ∈ s.blocked) :
    waiting s a r = waiting (unblock s c) a r + if c.req = r ∧ c.agent = a then 1 else 0 := by
  rw [waiting, (List.perm_cons_erase hc).countP_eq, List.countP_cons]
  simp [waiting, unblock]

theorem inFlight_unanswered (e : Envelope) (rest : List Envelope) (m : SessionMap) (hb : s.apiBox = e :: rest) :
    inFlight s a r = inFlight { s with apiBox := rest, networkSessionMap := m } a r +
      if e.req = r ∧ e.agent = a then 1 else 0 := by
  simp only [inFlight, hb, List.countP_cons, decide_eq_true_eq]
  omega

theorem perm_of_find {α : Type} (p : α → Bool) (l : List α) (x : α) (h : l.find? p = some x) :
    l.Perm (x :: l.eraseP p) := by
  induction l with
  | nil => simp at h
  | cons y l ih =>
    by_cases hy : p y = true
    · rw [List.find?_cons_of_pos hy, Option.some.injEq] at h
      subst h
      rw [List.eraseP_cons_of_pos hy]
    · rw [List.find?_cons_of_neg hy] at h
      rw [List.eraseP_cons_of_neg hy]
      exact ((ih h).cons y).trans (List.Perm.swap _ _ _)

theorem inFlight_replied (h : Suspended) (hf : s.handlers.find? (fun x => x.req = h.req) = some h) :
    inFlight s a r = inFlight { s with handlers := s.handlers.eraseP fun x => x.req = h.req } a r +
      if h.req = r ∧ h.agent = a then 1 else 0 := by
  simp only [inFlight]
  rw [(perm_of_find _ _ _ hf).countP_eq, List.countP_cons]
  simp only [decide_eq_true_eq]
  omega

/-- wherever the handler gets to, it is in flight -/
theorem inFlight_settle (p : ObjectBase.Proc Result) (r' : ReqId) (ha : s.exited a = false) :
    inFlight (settle s r' b p) a r = inFlight s a r + if r' = r ∧ b = a then 1 else 0 := by
  have hreply : ∀ res, inFlight (post s b (.reply r' res)) a r = inFlight s a r + if r' = r ∧ b = a then 1 else 0 := by
    intro res
    by_cases hb : b = a
    · subst hb
      rw [inFlight_post s b b r _ ha]
      simp [isReply]
    · rw [if_neg (fun h => hb h.2)]
      simp only [inFlight, post_inbox]
      rw [if_neg (fun h => hb h.1.symm)]
      rfl
  cases p with
  | ret res => exact hreply _
  | raise => exact hreply _
  | call q k =>
    simp only [inFlight, settle, List.countP_append, List.countP_singleton, decide_eq_true_eq]
    omega

theorem waiting_settle (p : ObjectBase.Proc Result) (r' : ReqId) : waiting (settle s r' b p) a r = waiting s a r := by
  cases p <;> rfl

theorem exited_settle (p : ObjectBase.Proc Result) (r' : ReqId) : (settle s r' b p).exited = s.exited := by
  cases p <;> rfl

end Effects

/-! ## The balance -/

structure Balanced (s : St) : Prop where
  balance : ∀ a r, s.exited a = false → waiting s a r = inFlight s a r
  once : ∀ a r, waiting s a r ≤ 1
  fresh : ∀ a r, s.next ≤ r → waiting s a r = 0
  alive : ∀ c ∈ s.blocked, s.exited c.agent = false
  silent : ∀ a, s.exited a = true → s.inbox a = []

/-- no call of `syncError` on its way, and no error reply that would lead to one -/
structure NoErrors (s : St) : Prop where
  no_sync : ∀ e ∈ s.apiBox, e.msg ≠ .syncError
  no_error : ∀ a r, .reply r none ∉ s.inbox a

theorem balanced_init : Balanced init := by
  constructor <;> simp [init, waiting, inFlight]

theorem noErrors_init : NoErrors init := by
  constructor <;> simp [init]

theorem Balanced.awake {s : St} (h : Balanced s) {a : AgentId} {msg : AgentMsg} {rest : List AgentMsg}
    (hi : s.inbox a = msg :: rest) : s.exited a = false := by
  cases he : s.exited a with
  | false => rfl
  | true => rw [h.silent a he] at hi; cases hi

theorem balanced_post (s : St) (n : Net) (b : AgentId) (msg : AgentMsg) (h : Balanced s)
    (hm : ∀ r, isReply r msg = false) :
    Balanced (post { s with net := n } b msg) := by
  refine ⟨fun a r ha => ?_, h.once, h.fresh, h.alive, fun a ha => ?_⟩
  · rw [inFlight_post_other { s with net := n } a b r msg hm]
    exact h.balance a r ha
  · rw [post_inbox, if_neg]
    · exact h.silent a ha
    · rintro ⟨rfl, he⟩
      exact Bool.noConfusion (ha.symm.trans he)

/-- an agent takes a message that is no reply -/
theorem balanced_take (s : St) (b : AgentId) (msg : AgentMsg) (rest : List AgentMsg) (hi : s.inbox b = msg :: rest)
    (h : Balanced s) (hm : ∀ r, isReply r msg = false) : Balanced (take s b rest) := by
  refine ⟨fun a r ha => ?_, h.once, h.fresh, h.alive, fun a ha => ?_⟩
  · have := inFlight_take s a b r msg rest hi
    rw [hm r] at this
    have hb := h.balance a r ha
    simp at this
    exact hb.trans this
  · rw [take_inbox, if_neg]
    · exact h.silent a ha
    · rintro rfl
      exact Bool.noConfusion (ha.symm.trans (h.awake hi))

/-- an agent takes a reply, and the coroutine that waited for it goes on -/
theorem balanced_unblock (s : St) (b : AgentId) (res : Option Result) (rest : List AgentMsg) (c : Coroutine)
    (hi : s.inbox b = .reply c.req res :: rest) (hb : c ∈ s.blocked) (hc : c.agent = b) (h : Balanced s) :
    Balanced (unblock (take s b rest) c) := by
  subst hc
  refine ⟨fun a r ha => ?_, fun a r => ?_, fun a r hr => ?_, fun x hx => h.alive x (List.mem_of_mem_erase hx),
    fun a ha => ?_⟩
  · have h1 := waiting_unblock (take s c.agent rest) a r c hb
    have h2 := inFlight_take s a c.agent r _ rest hi
    have h3 : waiting (take s c.agent rest) a r = inFlight s a r := h.balance a r ha
    have h4 : inFlight (unblock (take s c.agent rest) c) a r = inFlight (take s c.agent rest) a r := rfl
    simp only [isReply, decide_eq_true_eq] at h2
    rw [h4]
    by_cases hk : c.req = r ∧ c.agent = a
    · rw [if_pos hk] at h1; rw [if_pos ⟨hk.2.symm, hk.1⟩] at h2; omega
    · rw [if_neg hk] at h1; rw [if_neg (fun x => hk ⟨x.2, x.1.symm⟩)] at h2; omega
  · have h1 := waiting_unblock (take s c.agent rest) a r c hb
    have h2 : waiting (take s c.agent rest) a r ≤ 1 := h.once a r
    omega
  · have h1 := waiting_unblock (take s c.agent rest) a r c hb
    have h2 : waiting (take s c.agent rest) a r = 0 := h.fresh a r hr
    omega
  · have : (unblock (take s c.agent rest) c).inbox a = (take s c.agent rest).inbox a := rfl
    rw [this, take_inbox, if_neg]
    · exact h.silent a ha
    · rintro rfl
      exact Bool.noConfusion (ha.symm.trans (h.awake hi))

theorem balanced_request (s : St) (b : AgentId) (msg : ApiMsg) (stage : Stage) (h : Balanced s)
    (hb : s.exited b = false) : Balanced (request s b msg stage) := by
  refine ⟨fun a r ha => ?_, fun a r => ?_, fun a r hr => ?_, fun x hx => ?_, h.silent⟩
  · rw [waiting_request, inFlight_request, h.balance a r ha]
  · rw [waiting_request]
    split_ifs with hk
    · rw [h.fresh a r (le_of_eq hk.1)]
    · simpa using h.once a r
  · have hr' : s.next + 1 ≤ r := hr
    rw [waiting_request, h.fresh a r (Nat.le_of_succ_le hr'), if_neg fun hk => Nat.ne_of_lt hr' hk.1]
  · rcases List.mem_append.1 hx with hx | hx
    · exact h.alive x hx
    · rw [List.mem_singleton.1 hx]; exact hb

/-- a request or a handler that has been taken out, with its coroutine still waiting, goes on -/
theorem balanced_settle (s s' : St) (r : ReqId) (b : AgentId) (p : ObjectBase.Proc Result) (h : Balanced s)
    (hs : ∀ a r', inFlight s a r' = inFlight s' a r' + if r = r' ∧ b = a then 1 else 0) (hbl : s'.blocked = s.blocked)
    (hn : s'.next = s.next) (he : s'.exited = s.exited) (hi : s'.inbox = s.inbox) : Balanced (settle s' r b p) := by
  have hw : ∀ a r', waiting (settle s' r b p) a r' = waiting s a r' := fun a r' => by
    rw [waiting_settle, waiting, waiting, hbl]
  have hnext : (settle s' r b p).next = s.next := by cases p <;> exact hn
  have hblocked : (settle s' r b p).blocked = s.blocked := by cases p <;> exact hbl
  refine ⟨fun a r' ha => ?_, fun a r' => ?_, fun a r' hr => ?_, fun x hx => ?_, fun a ha => ?_⟩
  · rw [exited_settle] at ha
    rw [hw, inFlight_settle s' a b r' p r ha, ← hs, h.balance a r' (he ▸ ha)]
  · rw [hw]; exact h.once a r'
  · rw [hw]; exact h.fresh a r' (hnext ▸ hr)
  · rw [exited_settle, he]; exact h.alive x (hblocked ▸ hx)
  · rw [exited_settle, he] at ha
    have hnil : s'.inbox a = [] := by rw [hi]; exact h.silent a ha
    have hpost : ∀ msg, (post s' b msg).inbox a = [] := by
      intro msg
      rw [post_inbox, if_neg, hnil]
      rintro ⟨rfl, hf⟩
      rw [he, ha] at hf
      cases hf
    cases p with
    | ret res => exact hpost _
    | raise => exact hpost _
    | call q k => exact hnil

theorem balanced_exit (s : St) (b : AgentId) (h : Balanced s) : Balanced (exit s b) := by
  have hw : ∀ a r, waiting (exit s b) a r ≤ waiting s a r := fun a r => List.filter_sublist.countP_le
  refine ⟨fun a r ha => ?_, fun a r => (hw a r).trans (h.once a r), fun a r hr => ?_, fun x hx => ?_, fun a ha => ?_⟩
  · have hab : a ≠ b := by
      rintro rfl
      simp [exit] at ha
    have hold : s.exited a = false := by simpa [exit, Function.update_of_ne hab] using ha
    have hin : inFlight (exit s b) a r = inFlight s a r := by
      simp [inFlight, exit, Function.update_of_ne hab]
    have hwait : waiting (exit s b) a r = waiting s a r := by
      simp only [waiting, exit, List.countP_filter]
      refine List.countP_congr fun c _ => ?_
      simp only [Bool.and_eq_true, decide_eq_true_eq]
      exact ⟨fun hc => hc.1, fun hc => ⟨hc, hc.2 ▸ hab⟩⟩
    rw [hwait, hin, h.balance a r hold]
  · exact Nat.eq_zero_of_le_zero ((hw a r).trans (le_of_eq (h.fresh a r hr)))
  · obtain ⟨hx, hne⟩ := List.mem_filter.1 hx
    have hne' : x.agent ≠ b := by simpa using hne
    simpa [exit, Function.update_of_ne hne'] using h.alive x hx
  · by_cases hab : a = b
    · subst hab; simp [exit]
    · simp only [exit, Function.update_of_ne hab] at ha ⊢
      exact h.silent a ha

/-! ## Guarded steps -/

/-- The conditions: client messages have one of the two types; a request is handled on a connection that has a session, or
is a login; the replies of MySQL and Redis do not make a login raise. -/
def Answerable (s : St) : Op → Prop
  | .agentTurn a => ∀ m rest, s.inbox a = .client m :: rest →
      m.messageType = MessageRequestType.ChangeEvent ∨ m.messageType = MessageRequestType.ApiCall
  | .apiTurn => ∀ e rest c, s.apiBox = e :: rest → e.msg = .call c →
      c.IsLogin ∨ s.networkSessionMap c.clientFd ≠ none
  | .serviceReply r answer => ∀ h q k, s.handlers.find? (fun x => x.req = r) = some h → h.rest = .call q k →
      k (answer q) ≠ .raise
  | _ => True

theorem command_known (m : ClientMsg)
    (h : m.messageType = MessageRequestType.ChangeEvent ∨ m.messageType = MessageRequestType.ApiCall) :
    command m ≠ none := by
  unfold command
  rcases h with h | h <;> simp [h]
  decide

/-- a handler raises at once only for a connection without a session -/
theorem handle_not_raise (codec : Codec) (m : SessionMap) (c : Call) (h : c.IsLogin ∨ m c.clientFd ≠ none) :
    (handle codec m c).2 ≠ .raise := by
  rcases handle_cases codec m c with ⟨-, hh⟩ | ⟨hl, hm, -⟩ | ⟨-, -, hh⟩ | ⟨-, -, r, -, hh⟩
  · rw [hh, processApiCall, if_pos rfl]
    exact fun he => by cases he
  · exact absurd hm (h.resolve_left hl)
  · rw [hh]; exact fun he => by cases he
  · rw [hh]; exact fun he => by cases he

theorem noErrors_post (s : St) (n : Net) (b : AgentId) (msg : AgentMsg) (h : NoErrors s)
    (hm : ∀ r, msg ≠ .reply r none) :
    NoErrors (post { s with net := n } b msg) := by
  refine ⟨h.no_sync, fun a r hr => ?_⟩
  rcases mem_post _ b a msg _ hr with hold | ⟨-, hnew⟩
  · exact h.no_error a r hold
  · exact hm r hnew.symm

theorem noErrors_settle (s : St) (r : ReqId) (b : AgentId) (p : ObjectBase.Proc Result) (h : NoErrors s)
    (hp : p ≠ .raise) : NoErrors (settle s r b p) := by
  cases p with
  | ret res => exact noErrors_post s s.net b _ h (by simp)
  | raise => exact absurd rfl hp
  | call q k => exact ⟨h.no_sync, h.no_error⟩

theorem noErrors_take (s : St) (b : AgentId) (msg : AgentMsg) (rest : List AgentMsg) (hi : s.inbox b = msg :: rest)
    (h : NoErrors s) : NoErrors (take s b rest) :=
  ⟨h.no_sync, fun a r hr => h.no_error a r (mem_take s b a msg _ rest hi hr)⟩

theorem step_noErrors (codec : Codec) (s : St) (o : Op) (hg : Answerable s o) (h : NoErrors s) :
    NoErrors (step codec s o) := by
  have he := step_effect codec s o
  generalize step codec s o = s' at he ⊢
  cases he with
  | idle => exact h
  | net o => exact ⟨h.no_sync, h.no_error⟩
  | kicked fd a hk => exact noErrors_post s _ a _ h (by simp)
  | frame fd m a hc => exact noErrors_post s s.net a _ h (by simp)
  | ignores a msg rest hi hm => exact noErrors_take s a msg rest hi h
  | calls a m rest hi fd hfd cmd hc =>
    have ht := noErrors_take s a _ rest hi h
    refine ⟨fun e he => ?_, ht.no_error⟩
    rcases List.mem_append.1 he with he | he
    · exact ht.no_sync e he
    · rw [List.mem_singleton.1 he]; simp
  | unknown a m rest hi hc => exact absurd hc (command_known m (hg m rest hi))
  | finishes a res rest c hi hb ha hres =>
    have ht := noErrors_take s a _ rest hi h
    exact ⟨ht.no_sync, ht.no_error⟩
  | writes a p rest c hi hb ha =>
    have ht := noErrors_take s a _ rest hi h
    exact ⟨ht.no_sync, ht.no_error⟩
  | syncs a rest c hi hb ha => exact absurd (by rw [hi]; exact List.mem_cons_self) (h.no_error a c.req)
  | exits a rest hi =>
    have ht := noErrors_take s a _ rest hi h
    exact ⟨ht.no_sync, fun b r hr => ht.no_error b r (mem_exit _ a b _ hr)⟩
  | unanswered e rest hb he => exact absurd he (h.no_sync e (by rw [hb]; exact List.mem_cons_self))
  | handles e rest hb c he =>
    refine noErrors_settle _ e.req e.agent _ ⟨fun e' he' => h.no_sync e' ?_, h.no_error⟩ ?_
    · rw [hb]; exact List.mem_cons_of_mem _ he'
    · exact handle_not_raise codec s.networkSessionMap c (hg e rest c hb he)
  | replied x answer hf q k hr =>
    exact noErrors_settle _ x.req x.agent _ ⟨h.no_sync, h.no_error⟩ (hg x q k hf hr)

theorem step_balanced (codec : Codec) (s : St) (o : Op) (hn : NoErrors s) (h : Balanced s) :
    Balanced (step codec s o) := by
  have he := step_effect codec s o
  generalize step codec s o = s' at he ⊢
  cases he with
  | idle => exact h
  | net o => exact ⟨h.balance, h.once, h.fresh, h.alive, h.silent⟩
  | kicked fd a hk => exact balanced_post s _ a _ h (fun _ => rfl)
  | frame fd m a hc => exact balanced_post s s.net a _ h (fun _ => rfl)
  | ignores a msg rest hi hm =>
    refine balanced_take s a msg rest hi h fun r => ?_
    -- a reply in the mailbox of a living agent has its coroutine
    cases hr : isReply r msg with
    | false => rfl
    | true =>
      exfalso
      have hpos : 0 < waiting s a r := by
        rw [h.balance a r (h.awake hi), inFlight_take s a a r msg rest hi, if_pos ⟨rfl, hr⟩]
        exact Nat.succ_pos _
      obtain ⟨c, hc, hck⟩ := List.countP_pos_iff.1 hpos
      simp only [decide_eq_true_eq] at hck
      cases msg with
      | client m => cases hr
      | disconnect => cases hr
      | reply r' res =>
        have : r' = r := by simpa [isReply] using hr
        exact hm c hc res (by rw [this, hck.1]) hck.2
  | calls a m rest hi fd hfd cmd hc =>
    have ht := balanced_take s a _ rest hi h (fun _ => rfl)
    exact balanced_request (log (take s a rest) a m) a _ _ ⟨ht.balance, ht.once, ht.fresh, ht.alive, ht.silent⟩
      (h.awake hi)
  | unknown a m rest hi hc =>
    have ht := balanced_take s a _ rest hi h (fun _ => rfl)
    exact balanced_request (log (take s a rest) a m) a _ _ ⟨ht.balance, ht.once, ht.fresh, ht.alive, ht.silent⟩
      (h.awake hi)
  | finishes a res rest c hi hb ha hres => exact balanced_unblock s a res rest c hi hb ha h
  | writes a p rest c hi hb ha =>
    have hu := balanced_unblock s a _ rest c hi hb ha h
    exact ⟨hu.balance, hu.once, hu.fresh, hu.alive, hu.silent⟩
  | syncs a rest c hi hb ha =>
    exact balanced_request _ a _ _ (balanced_unblock s a _ rest c hi hb ha h) (h.awake hi)
  | exits a rest hi => exact balanced_exit _ a (balanced_take s a _ rest hi h (fun _ => rfl))
  | unanswered e rest hb he => exact absurd he (hn.no_sync e (by rw [hb]; exact List.mem_cons_self))
  | handles e rest hb c he =>
    exact balanced_settle s _ e.req e.agent _ h (fun a r => inFlight_unanswered s a r e rest _ hb) rfl rfl rfl rfl
  | replied x answer hf q k hr =>
    exact balanced_settle s _ x.req x.agent _ h (fun a r => inFlight_replied s a r x hf) rfl rfl rfl rfl

/-- nothing is in flight, and no handler is suspended -/
def Quiet (s : St) : Prop := s.apiBox = [] ∧ s.handlers = [] ∧ ∀ a, s.inbox a = []

/-- **Every request is answered.** In every run whose steps are answerable: a blocked coroutine has exactly one request,
handler or reply in flight; and if everything is quiet, no coroutine is blocked. -/
theorem requests_answered (codec : Codec) (ops : List Op) (hg : Guarded (step codec) Answerable init ops) :
    (∀ c ∈ (run (step codec) init ops).blocked, inFlight (run (step codec) init ops) c.agent c.req = 1) ∧
      (Quiet (run (step codec) init ops) → (run (step codec) init ops).blocked = []) := by
  have h := guarded_inv (step codec) Answerable (fun s => NoErrors s ∧ Balanced s)
    (fun s o hg h => ⟨step_noErrors codec s o hg h.1, step_balanced codec s o h.1 h.2⟩) init ops hg
    ⟨noErrors_init, balanced_init⟩
  generalize run (step codec) init ops = s at h ⊢
  obtain ⟨-, hb⟩ := h
  have hone : ∀ c ∈ s.blocked, inFlight s c.agent c.req = 1 := by
    intro c hc
    have hpos : 0 < waiting s c.agent c.req := List.countP_pos_iff.2 ⟨c, hc, by simp⟩
    have := hb.once c.agent c.req
    rw [← hb.balance c.agent c.req (hb.alive c hc)]
    omega
  refine ⟨hone, fun ⟨hbox, hhandlers, hinbox⟩ => List.eq_nil_iff_forall_not_mem.2 fun c hc => ?_⟩
  have := hone c hc
  simp [inFlight, hbox, hhandlers, hinbox] at this

/-- MySQL and Redis answer the login of a new user -/
def servedLogin : List Op :=
  changeEventLogin ++ [.serviceReply 0 (newUser 0), .serviceReply 0 (newUser 1), .serviceReply 0 (newUser 2),
    .serviceReply 0 (newUser 3), .serviceReply 0 (newUser 4)]

theorem requests_answered_sample :
    Guarded (step lenient) Answerable init servedLogin ∧
      ∀ c ∈ (run (step lenient) init servedLogin).blocked,
        inFlight (run (step lenient) init servedLogin) c.agent c.req = 1 := by
  have hg : Guarded (step lenient) Answerable init servedLogin := by
    refine ⟨trivial, trivial, trivial, trivial, trivial, ?_, ?_, ?_, ?_, ?_, ?_, ?_, trivial⟩
    · rintro m rest hi
      cases hi
      exact Or.inl rfl
    · rintro e rest c hb he
      cases hb
      cases he
      exact Or.inl ⟨rfl, rfl⟩
    all_goals
      rintro h q k hf hr
      cases hf
      cases hr
      exact fun he => by cases he
  exact ⟨hg, (requests_answered lenient servedLogin hg).1⟩

/-- a message whose type is neither ChangeEvent nor ApiCall -/
def unknownType : List Op := connected ++ [.frame 4 (loginMsg 3 1), .agentTurn 0, .apiTurn]

/-- **A call of `syncError` is never answered.** After a message of an unknown type, and after a first message that is no
login for owlies_api, everything is quiet and a coroutine of the agent is still blocked. -/
theorem sync_error_blocks :
    (Quiet (run (step lenient) init unknownType) ∧
        (run (step lenient) init unknownType).blocked = [⟨0, 0, .syncing⟩]) ∧
      Quiet (run (step lenient) init apiCallLogin) ∧
        (run (step lenient) init apiCallLogin).blocked = [⟨1, 0, .syncing⟩] := by
  refine ⟨⟨⟨by decide, rfl, fun a => ?_⟩, by decide⟩, ⟨by decide, rfl, fun a => ?_⟩, by decide⟩
  · cases a <;> rfl
  · cases a <;> rfl

end OwliesServer.Server
