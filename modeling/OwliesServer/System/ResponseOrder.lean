/-
Can a client match responses to its requests? The header of every LoginResponse carries the constant session 100
(`processApiCall`), so only the order is left. Requests of one agent are numbered in the order in which it made them
and handled in this order; but a login takes five calls to MySQL and Redis, or four when the cache hits, so a later
one may come back first.

- `headersMatch_iff`: the headers match exactly for requests that had session 100 themselves.
- `Ordered`: what an agent has written and will write next is in the order of the requests, and before everything that
  is still being handled.
- `responses_in_order`: in runs in which no login returns while an older one of the same agent is suspended, every
  agent writes its responses in the order of the requests.
- `overtaken_response`: a cache hit overtakes a miss, and neither the order nor the headers tell the responses apart.
-/
import OwliesServer.System.Replies

namespace OwliesServer.Server

open OwliesServer.CChar OwliesServer.LuaTable OwliesServer.Sessions OwliesServer.Handlers OwliesServer.Machine
open OwliesServer.Watchdog (AgentId)
open OwliesServer.ObjectBase (Codec Request Reply)

/-! ## Model of the property -/

/-- the packages of agent a answer its requests in order -/
def InOrder (s : St) (a : AgentId) : Prop := ((s.written.filter fun w => w.agent = a).map Write.req).Pairwise (· < ·)

instance (s : St) (a : AgentId) : Decidable (InOrder s a) := inferInstanceAs (Decidable (List.Pairwise _ _))

/-- every package of agent a carries the session of the request it answers -/
def HeadersMatch (s : St) (a : AgentId) : Prop :=
  ∀ w ∈ s.written, w.agent = a → ∃ m, (w.req, a, m) ∈ s.sent ∧
    ServerPackage.headerSession w.package = some m.clientSession

/-! ## The session in the headers -/

/-- every package that exists or may still be returned has session 100 in its header -/
structure Headed (s : St) : Prop where
  handlers : ∀ h ∈ s.handlers, h.rest.Returns fun res => ∀ p, res = .package p → ServerPackage.headerSession p = some 100
  replies : ∀ a r p, .reply r (some (.package p)) ∈ s.inbox a → ServerPackage.headerSession p = some 100
  written : ∀ w ∈ s.written, ServerPackage.headerSession w.package = some 100

theorem headed_init : Headed init := by
  constructor <;> simp [init]

/-- no package is new -/
theorem Headed.shrink {s s' : St} (h : Headed s) (hh : ∀ x ∈ s'.handlers, x ∈ s.handlers)
    (hi : ∀ a, ∀ msg ∈ s'.inbox a, msg ∈ s.inbox a) (hw : s'.written = s.written) : Headed s' := by
  refine ⟨?_, ?_, ?_⟩
  · intro x hx
    exact h.handlers x (hh x hx)
  · intro a r p hp
    exact h.replies a r p (hi a _ hp)
  · rw [hw]; exact h.written

theorem headed_post (s : St) (a : AgentId) (msg : AgentMsg) (h : Headed s)
    (hm : ∀ r p, msg = .reply r (some (.package p)) → ServerPackage.headerSession p = some 100) :
    Headed (post s a msg) := by
  refine ⟨h.handlers, fun b r p hp => ?_, h.written⟩
  rcases mem_post s a b msg _ hp with hp | ⟨-, hp⟩
  · exact h.replies b r p hp
  · exact hm r p hp.symm

theorem headed_take (s : St) (a : AgentId) (msg : AgentMsg) (rest : List AgentMsg) (hi : s.inbox a = msg :: rest)
    (h : Headed s) : Headed (take s a rest) :=
  h.shrink (fun _ hx => hx) (fun b x hx => mem_take s a b msg x rest hi hx) rfl

theorem headed_settle (s : St) (r : ReqId) (a : AgentId) (rest : ObjectBase.Proc Result) (h : Headed s)
    (hr : rest.Returns fun res => ∀ p, res = .package p → ServerPackage.headerSession p = some 100) :
    Headed (settle s r a rest) := by
  cases rest with
  | ret res =>
    refine headed_post s a _ h fun r' p hp => ?_
    simp only [AgentMsg.reply.injEq, Option.some.injEq] at hp
    exact hr p hp.2
  | raise => exact headed_post s a _ h (by simp)
  | call q k =>
    refine ⟨fun x hx => ?_, h.replies, h.written⟩
    rcases List.mem_append.1 hx with hx | hx
    · exact h.handlers x hx
    · rw [List.mem_singleton.1 hx]; exact hr

theorem headed_write (s : St) (a : AgentId) (r : ReqId) (p : Bytes) (h : Headed s)
    (hp : ServerPackage.headerSession p = some 100) : Headed (write s a r p) := by
  refine ⟨h.handlers, h.replies, fun w hw => ?_⟩
  simp only [write] at hw
  split at hw
  · rcases List.mem_append.1 hw with hw | hw
    · exact h.written w hw
    · rw [List.mem_singleton.1 hw]; exact hp
  · exact h.written w hw

theorem step_headed (codec : Codec) (s : St) (o : Op) (h : Headed s) : Headed (step codec s o) := by
  have he := step_effect codec s o
  generalize step codec s o = s' at he ⊢
  cases he with
  | idle => exact h
  | net o => exact h.shrink (fun _ hx => hx) (fun _ _ hx => hx) rfl
  | kicked fd a hk => exact headed_post _ a _ (h.shrink (fun _ hx => hx) (fun _ _ hx => hx) rfl) (by simp)
  | frame fd m a hc => exact headed_post s a _ h (by simp)
  | ignores a msg rest hi hm => exact headed_take s a msg rest hi h
  | calls a m rest hi fd hfd cmd hc =>
    exact (headed_take s a _ rest hi h).shrink (fun _ hx => hx) (fun _ _ hx => hx) rfl
  | unknown a m rest hi hc =>
    exact (headed_take s a _ rest hi h).shrink (fun _ hx => hx) (fun _ _ hx => hx) rfl
  | finishes a res rest c hi hb ha hres =>
    exact (headed_take s a _ rest hi h).shrink (fun _ hx => hx) (fun _ _ hx => hx) rfl
  | writes a p rest c hi hb ha =>
    have hp : ServerPackage.headerSession p = some 100 :=
      h.replies a c.req p (by rw [hi]; exact List.mem_cons_self)
    refine headed_write _ a c.req p ?_ hp
    exact (headed_take s a _ rest hi h).shrink (fun _ hx => hx) (fun _ _ hx => hx) rfl
  | syncs a rest c hi hb ha =>
    exact (headed_take s a _ rest hi h).shrink (fun _ hx => hx) (fun _ _ hx => hx) rfl
  | exits a rest hi =>
    exact (headed_take s a _ rest hi h).shrink (fun _ hx => hx) (fun b x hx => mem_exit _ a b x hx) rfl
  | unanswered e rest hb he => exact h.shrink (fun _ hx => hx) (fun _ _ hx => hx) rfl
  | handles e rest hb c he =>
    refine headed_settle _ e.req e.agent _ ?_ (handle_header codec _ c)
    exact h.shrink (fun _ hx => hx) (fun _ _ hx => hx) rfl
  | replied x answer hf q k hr =>
    have hx := h.handlers x (List.mem_of_find?_eq_some hf)
    rw [hr] at hx
    refine headed_settle _ x.req x.agent _ ?_ (hx (answer q))
    exact h.shrink (fun y hy => List.mem_of_mem_eraseP hy) (fun _ _ hx => hx) rfl

/-- **The headers say nothing.** In every run, the headers of an agent match its requests exactly when all the requests
it has answered had session 100. -/
theorem headersMatch_iff (codec : Codec) (ops : List Op) (a : AgentId) :
    HeadersMatch (run (step codec) init ops) a ↔ ∀ w ∈ (run (step codec) init ops).written, w.agent = a →
      ∃ m, (w.req, a, m) ∈ (run (step codec) init ops).sent ∧ m.clientSession = 100 := by
  have h := run_inv (step codec) Headed (step_headed codec) init ops headed_init
  constructor
  · intro hm w hw ha
    obtain ⟨m, hsent, hs⟩ := hm w hw ha
    rw [h.written w hw, Option.some.injEq] at hs
    exact ⟨m, hsent, hs.symm⟩
  · intro hm w hw ha
    obtain ⟨m, hsent, hs⟩ := hm w hw ha
    exact ⟨m, hsent, by rw [h.written w hw, hs]⟩

/-! ## Requests in order -/

def packageReq : AgentMsg → Option ReqId
  | .reply r (some (.package _)) => some r
  | _ => none

/-- the requests answered with a package: written, then those on the way to the agent -/
def finished (s : St) (a : AgentId) : List ReqId :=
  (s.written.filter fun w => w.agent = a).map Write.req ++ (s.inbox a).filterMap packageReq

structure Ordered (s : St) : Prop where
  sorted : ∀ a, (finished s a).Pairwise (· < ·)
  finished_first : ∀ h ∈ s.handlers, ∀ f ∈ finished s h.agent, f < h.req
  distinct : (s.handlers.map Suspended.req).Nodup
  finished_box : ∀ a, ∀ f ∈ finished s a, ∀ e ∈ s.apiBox, f < e.req
  handlers_box : ∀ h ∈ s.handlers, ∀ e ∈ s.apiBox, h.req < e.req
  box : s.apiBox.Pairwise fun e e' => e.req < e'.req
  finished_next : ∀ a, ∀ f ∈ finished s a, f < s.next
  handlers_next : ∀ h ∈ s.handlers, h.req < s.next
  box_next : ∀ e ∈ s.apiBox, e.req < s.next

theorem ordered_init : Ordered init := by
  constructor <;> simp [init, finished]

/-- nothing is answered that was not answered before -/
theorem Ordered.shrink {s s' : St} (h : Ordered s) (hf : ∀ a, (finished s' a).Sublist (finished s a))
    (hh : s'.handlers = s.handlers) (hb : s'.apiBox = s.apiBox) (hn : s'.next = s.next) : Ordered s' := by
  refine ⟨fun a => (h.sorted a).sublist (hf a), fun x hx f hf' => ?_, ?_, fun a f hf' e he => ?_, ?_, ?_,
    fun a f hf' => ?_, ?_, ?_⟩
  · exact h.finished_first x (hh ▸ hx) f ((hf _).subset hf')
  · rw [hh]; exact h.distinct
  · exact h.finished_box a f ((hf a).subset hf') e (hb ▸ he)
  · rw [hh, hb]; exact h.handlers_box
  · rw [hb]; exact h.box
  · rw [hn]; exact h.finished_next a f ((hf a).subset hf')
  · rw [hh, hn]; exact h.handlers_next
  · rw [hb, hn]; exact h.box_next

theorem finished_post (s : St) (n : Net) (a b : AgentId) (msg : AgentMsg) (hm : packageReq msg = none) :
    finished (post { s with net := n } b msg) a = finished s a := by
  simp only [finished, post_inbox]
  split_ifs
  · rw [List.filterMap_append]
    simp [hm, post]
  · rfl

theorem finished_take (s : St) (a b : AgentId) (msg : AgentMsg) (rest : List AgentMsg) (hi : s.inbox b = msg :: rest) :
    (finished (take s b rest) a).Sublist (finished s a) := by
  simp only [finished, take_inbox]
  refine List.Sublist.append (List.Sublist.refl _) (List.Sublist.filterMap _ ?_)
  split_ifs with hab
  · subst hab; rw [hi]; exact List.sublist_cons_self _ _
  · exact List.Sublist.refl _

/-- a package goes from the mailbox to the socket -/
theorem finished_write (s : St) (a b : AgentId) (r : ReqId) (p : Bytes) (rest : List AgentMsg) (c : Coroutine)
    (hi : s.inbox b = .reply r (some (.package p)) :: rest) :
    (finished (write (unblock (take s b rest) c) b r p) a).Sublist (finished s a) := by
  have hold : (finished (unblock (take s b rest) c) a).Sublist (finished s a) := finished_take s a b _ rest hi
  simp only [finished, write] at hold ⊢
  split
  · by_cases hab : a = b
    · subst hab
      rw [hi]
      simp [List.filter_append, packageReq, unblock, take]
    · have hba : ¬ b = a := fun e => hab e.symm
      simpa [List.filter_append, hba] using hold
  · exact hold

theorem finished_exit (s : St) (a b : AgentId) : (finished (exit s b) a).Sublist (finished s a) := by
  refine List.Sublist.append (List.Sublist.refl _) (List.Sublist.filterMap _ ?_)
  by_cases hab : a = b
  · subst hab; simp [exit]
  · simp [exit, Function.update_of_ne hab]

theorem ordered_request (s : St) (b : AgentId) (msg : ApiMsg) (stage : Stage) (h : Ordered s) :
    Ordered (request s b msg stage) := by
  have hmem : ∀ e ∈ (request s b msg stage).apiBox, e ∈ s.apiBox ∨ e.req = s.next := by
    intro e he
    rcases List.mem_append.1 he with he | he
    · exact Or.inl he
    · exact Or.inr (by rw [List.mem_singleton.1 he])
  refine ⟨h.sorted, h.finished_first, h.distinct, fun a f hf e he => ?_, fun x hx e he => ?_, ?_,
    fun a f hf => Nat.lt_succ_of_lt (h.finished_next a f hf), fun x hx => Nat.lt_succ_of_lt (h.handlers_next x hx),
    fun e he => ?_⟩
  · rcases hmem e he with he | he
    · exact h.finished_box a f hf e he
    · rw [he]; exact h.finished_next a f hf
  · rcases hmem e he with he | he
    · exact h.handlers_box x hx e he
    · rw [he]; exact h.handlers_next x hx
  · refine List.pairwise_append.2 ⟨h.box, by simp, fun e he e' he' => ?_⟩
    rw [List.mem_singleton.1 he']; exact h.box_next e he
  · rcases hmem e he with he | he
    · exact Nat.lt_succ_of_lt (h.box_next e he)
    · rw [he]; exact Nat.lt_succ_self _

/-- owlies_api has taken the first request -/
theorem ordered_pop (s : St) (e : Envelope) (rest : List Envelope) (m : SessionMap) (hb : s.apiBox = e :: rest)
    (h : Ordered s) : Ordered { s with apiBox := rest, networkSessionMap := m } := by
  have hsub : ∀ x ∈ rest, x ∈ s.apiBox := fun x hx => by rw [hb]; exact List.mem_cons_of_mem _ hx
  have hbox := h.box
  rw [hb] at hbox
  exact ⟨h.sorted, h.finished_first, h.distinct, fun a f hf x hx => h.finished_box a f hf x (hsub x hx),
    fun y hy x hx => h.handlers_box y hy x (hsub x hx), (List.pairwise_cons.1 hbox).2, h.finished_next, h.handlers_next,
    fun x hx => h.box_next x (hsub x hx)⟩

/-- a suspended handler has been taken out to go on -/
theorem ordered_resumed (s : St) (x : Suspended) (hf : s.handlers.find? (fun y => y.req = x.req) = some x)
    (h : Ordered s) :
    Ordered { s with handlers := s.handlers.eraseP fun y => y.req = x.req } ∧
      ∀ y ∈ s.handlers.eraseP (fun y => y.req = x.req), y.req ≠ x.req := by
  have hsub : ∀ y ∈ s.handlers.eraseP (fun y => y.req = x.req), y ∈ s.handlers := fun y hy => List.mem_of_mem_eraseP hy
  have hnodup := h.distinct
  rw [((perm_of_find _ _ _ hf).map Suspended.req).nodup_iff, List.map_cons, List.nodup_cons] at hnodup
  refine ⟨⟨h.sorted, fun y hy => h.finished_first y (hsub y hy), hnodup.2, h.finished_box,
    fun y hy => h.handlers_box y (hsub y hy), h.box, h.finished_next, fun y hy => h.handlers_next y (hsub y hy),
    h.box_next⟩, fun y hy he => hnodup.1 (List.mem_map.2 ⟨y, hy, he⟩)⟩

/-- a request that is in none of the lists, between those answered and those waiting -/
structure Between (s : St) (r : ReqId) (b : AgentId) : Prop where
  finished : ∀ f ∈ finished s b, f < r
  handlers : ∀ h ∈ s.handlers, h.req ≠ r
  box : ∀ e ∈ s.apiBox, r < e.req
  next : r < s.next

theorem ordered_suspend (s : St) (r : ReqId) (b : AgentId) (q : Request) (k : Reply q → ObjectBase.Proc Result)
    (h : Ordered s) (hr : Between s r b) : Ordered (settle s r b (.call q k)) := by
  refine ⟨h.sorted, fun x hx f hf => ?_, ?_, h.finished_box, fun x hx e he => ?_, h.box, h.finished_next, fun x hx => ?_,
    h.box_next⟩
  · rcases List.mem_append.1 hx with hx | hx
    · exact h.finished_first x hx f hf
    · rw [List.mem_singleton.1 hx] at hf ⊢; exact hr.finished f hf
  · simp only [settle, List.map_append, List.map_cons, List.map_nil]
    refine List.nodup_append.2 ⟨h.distinct, by simp, fun y hy z hz => ?_⟩
    obtain ⟨x, hx, rfl⟩ := List.mem_map.1 hy
    rw [List.mem_singleton.1 hz]
    exact hr.handlers x hx
  · rcases List.mem_append.1 hx with hx | hx
    · exact h.handlers_box x hx e he
    · rw [List.mem_singleton.1 hx]; exact hr.box e he
  · rcases List.mem_append.1 hx with hx | hx
    · exact h.handlers_next x hx
    · rw [List.mem_singleton.1 hx]; exact hr.next

/-- a handler returns, and those of the same agent that are still suspended are younger -/
theorem ordered_return (s : St) (r : ReqId) (b : AgentId) (res : Result) (h : Ordered s) (hr : Between s r b)
    (hy : ∀ x ∈ s.handlers, x.agent = b → r < x.req) : Ordered (post s b (.reply r (some res))) := by
  have hfin : ∀ a, (finished (post s b (.reply r (some res))) a).Sublist
      (finished s a ++ if a = b then [r] else []) := by
    intro a
    simp only [finished, post_inbox]
    split_ifs with h1 h2 h2
    · rw [List.filterMap_append, List.append_assoc]
      refine List.Sublist.append (List.Sublist.refl _) (List.Sublist.append (List.Sublist.refl _) ?_)
      cases res <;> simp [packageReq]
    · exact absurd h1.1 h2
    · exact List.sublist_append_left _ _
    · rw [List.append_nil]; exact List.Sublist.refl _
  have hmem : ∀ a f, f ∈ finished (post s b (.reply r (some res))) a → f ∈ finished s a ∨ a = b ∧ f = r := by
    intro a f hf
    rcases List.mem_append.1 ((hfin a).subset hf) with hf | hf
    · exact Or.inl hf
    · split_ifs at hf with hab
      · exact Or.inr ⟨hab, List.mem_singleton.1 hf⟩
      · cases hf
  refine ⟨fun a => ?_, fun x hx f hf => ?_, h.distinct, fun a f hf e he => ?_, h.handlers_box, h.box, fun a f hf => ?_,
    h.handlers_next, h.box_next⟩
  · refine List.Pairwise.sublist (hfin a) ?_
    split_ifs with hab
    · subst hab
      refine List.pairwise_append.2 ⟨h.sorted a, by simp, fun f hf y hy => ?_⟩
      rw [List.mem_singleton.1 hy]; exact hr.finished f hf
    · rw [List.append_nil]; exact h.sorted a
  · rcases hmem _ f hf with hf | ⟨hab, rfl⟩
    · exact h.finished_first x hx f hf
    · exact hy x hx hab
  · rcases hmem a f hf with hf | ⟨-, rfl⟩
    · exact h.finished_box a f hf e he
    · exact hr.box e he
  · rcases hmem a f hf with hf | ⟨-, rfl⟩
    · exact h.finished_next a f hf
    · exact hr.next

/-- a message to an agent that is no package -/
theorem ordered_post (s : St) (n : Net) (b : AgentId) (msg : AgentMsg) (h : Ordered s) (hm : packageReq msg = none) :
    Ordered (post { s with net := n } b msg) :=
  h.shrink (fun a => by rw [finished_post s n a b msg hm]) rfl rfl rfl

theorem ordered_take (s : St) (b : AgentId) (msg : AgentMsg) (rest : List AgentMsg) (hi : s.inbox b = msg :: rest)
    (h : Ordered s) : Ordered (take s b rest) :=
  h.shrink (fun a => finished_take s a b msg rest hi) rfl rfl rfl

/-! ## Guarded steps -/

/-- no login returns while an older one of the same agent is suspended -/
def NoOvertaking (s : St) : Op → Prop
  | .serviceReply r answer => ∀ h q k res, s.handlers.find? (fun x => x.req = r) = some h → h.rest = .call q k →
      k (answer q) = .ret res → ∀ h' ∈ s.handlers, h'.agent = h.agent → h.req ≤ h'.req
  | _ => True

/-- a handler that returns at once returns no package -/
theorem handle_ret (codec : Codec) (m : SessionMap) (c : Call) (res : Result) (h : (handle codec m c).2 = .ret res)
    (r : ReqId) : packageReq (.reply r (some res)) = none := by
  rcases handle_cases codec m c with ⟨-, hh⟩ | ⟨-, -, hh⟩ | ⟨-, -, hh⟩ | ⟨-, -, r', hr', hh⟩
  · rw [hh, processApiCall, if_pos rfl] at h
    cases h
  · rw [hh] at h; cases h
  · rw [hh] at h; cases h; rfl
  · rw [hh] at h
    cases h
    rcases hr' with rfl | rfl <;> rfl

theorem step_ordered (codec : Codec) (s : St) (o : Op) (hg : NoOvertaking s o) (h : Ordered s) :
    Ordered (step codec s o) := by
  have he := step_effect codec s o
  generalize step codec s o = s' at he ⊢
  cases he with
  | idle => exact h
  | net o => exact h.shrink (fun a => List.Sublist.refl _) rfl rfl rfl
  | kicked fd a hk => exact ordered_post s _ a _ h rfl
  | frame fd m a hc => exact ordered_post s s.net a _ h rfl
  | ignores a msg rest hi hm => exact ordered_take s a msg rest hi h
  | calls a m rest hi fd hfd cmd hc =>
    have ht := ordered_take s a _ rest hi h
    exact ordered_request (log (take s a rest) a m) a _ _ (ht.shrink (fun a => List.Sublist.refl _) rfl rfl rfl)
  | unknown a m rest hi hc =>
    have ht := ordered_take s a _ rest hi h
    exact ordered_request (log (take s a rest) a m) a _ _ (ht.shrink (fun a => List.Sublist.refl _) rfl rfl rfl)
  | finishes a res rest c hi hb ha hres => exact h.shrink (fun b => finished_take s b a _ rest hi) rfl rfl rfl
  | writes a p rest c hi hb ha => exact h.shrink (fun b => finished_write s b a c.req p rest c hi) rfl rfl rfl
  | syncs a rest c hi hb ha =>
    exact ordered_request _ a _ _ (h.shrink (fun b => finished_take s b a _ rest hi) rfl rfl rfl)
  | exits a rest hi =>
    exact h.shrink (fun b => (finished_exit _ b a).trans (finished_take s b a _ rest hi)) rfl rfl rfl
  | unanswered e rest hb he => exact ordered_pop s e rest s.networkSessionMap hb h
  | handles e rest hb c he =>
    have hpop := ordered_pop s e rest (handle codec s.networkSessionMap c).1 hb h
    have hmem : e ∈ s.apiBox := by rw [hb]; exact List.mem_cons_self
    have hbetween : Between { s with apiBox := rest, networkSessionMap := (handle codec s.networkSessionMap c).1 } e.req
        e.agent := by
      have hbox := h.box
      rw [hb] at hbox
      exact ⟨fun f hf => h.finished_box _ f hf e hmem, fun x hx => Nat.ne_of_lt (h.handlers_box x hx e hmem),
        (List.pairwise_cons.1 hbox).1, h.box_next e hmem⟩
    cases hp : (handle codec s.networkSessionMap c).2 with
    | ret res => exact ordered_post _ s.net _ _ hpop (handle_ret codec _ c res hp _)
    | raise => exact ordered_post _ s.net _ _ hpop rfl
    | call q k => exact ordered_suspend _ _ _ q k hpop hbetween
  | replied x answer hf q k hr =>
    obtain ⟨hres, hne⟩ := ordered_resumed s x hf h
    have hmem : x ∈ s.handlers := List.mem_of_find?_eq_some hf
    have hbetween : Between { s with handlers := s.handlers.eraseP fun y => y.req = x.req } x.req x.agent :=
      ⟨fun f hf' => h.finished_first x hmem f hf', hne, fun e he => h.handlers_box x hmem e he, h.handlers_next x hmem⟩
    cases hp : k (answer q) with
    | ret res =>
      refine ordered_return _ _ _ res hres hbetween fun y hy hya => ?_
      have hle := hg x q k res hf hr hp y (List.mem_of_mem_eraseP hy) hya
      exact lt_of_le_of_ne hle (hne y hy).symm
    | raise => exact ordered_post _ s.net _ _ hres rfl
    | call q' k' => exact ordered_suspend _ _ _ q' k' hres hbetween

/-- **Responses can be matched to requests** in every run without overtaking: each agent writes them in order. -/
theorem responses_in_order (codec : Codec) (ops : List Op) (hg : Guarded (step codec) NoOvertaking init ops)
    (a : AgentId) :
    InOrder (run (step codec) init ops) a ∨ HeadersMatch (run (step codec) init ops) a := by
  have h := guarded_inv (step codec) NoOvertaking Ordered (step_ordered codec) init ops hg ordered_init
  exact Or.inl ((h.sorted a).sublist (List.sublist_append_left _ _))

/-! ## Overtaking -/

/-- two logins on connection 4, sessions 1 and 2, taken by owlies_api -/
def twoLogins : List Op :=
  connected ++ [.frame 4 (loginMsg MessageRequestType.ChangeEvent 1), .frame 4 (loginMsg MessageRequestType.ChangeEvent 2),
    .agentTurn 0, .agentTurn 0, .apiTurn, .apiTurn]

/-- Redis has the user's energy -/
def cacheHit : (q : Request) → Reply q
  | .query _ => ObjectBase.DbReply.failed
  | .redisGet _ => ObjectBase.RedisReply.value (some (ascii "cached"))
  | .redisSet _ _ => true

/-- the first login misses the cache; before its row arrives, the second one hits -/
def overtaking : List Op :=
  twoLogins ++ [.serviceReply 0 (newUser 0), .serviceReply 0 (newUser 1), .serviceReply 0 (newUser 2),
    .serviceReply 0 (newUser 3), .serviceReply 1 (newUser 0), .serviceReply 1 (newUser 1), .serviceReply 1 (newUser 2),
    .serviceReply 1 cacheHit, .agentTurn 0, .serviceReply 0 (newUser 4), .agentTurn 0]

theorem responses_in_order_sample :
    Guarded (step lenient) NoOvertaking init (servedLogin ++ [.agentTurn 0]) ∧
      (InOrder (run (step lenient) init (servedLogin ++ [.agentTurn 0])) 0 ∨
        HeadersMatch (run (step lenient) init (servedLogin ++ [.agentTurn 0])) 0) := by
  have hg : Guarded (step lenient) NoOvertaking init (servedLogin ++ [.agentTurn 0]) := by
    refine ⟨trivial, trivial, trivial, trivial, trivial, trivial, trivial, ?_, ?_, ?_, ?_, ?_, trivial, trivial⟩
    all_goals
      rintro h q k res hf hr hp h' hh' -
      cases hf
      rw [List.mem_singleton.1 hh']
  exact ⟨hg, responses_in_order lenient _ hg 0⟩

/-- **A response overtakes another.** The agent writes the response to the second login first; both carry session 100,
and the requests had sessions 1 and 2. -/
theorem overtaken_response :
    (run (step lenient) init overtaking).written.map Write.req = [1, 0] ∧
      (run (step lenient) init overtaking).written.map (fun w => ServerPackage.headerSession w.package) =
        [some 100, some 100] ∧
      ¬ (InOrder (run (step lenient) init overtaking) 0 ∨ HeadersMatch (run (step lenient) init overtaking) 0) := by
  have hsent : (run (step lenient) init overtaking).sent = [(0, 0, loginMsg MessageRequestType.ChangeEvent 1),
      (1, 0, loginMsg MessageRequestType.ChangeEvent 2)] := by decide
  have hw : ∃ w ∈ (run (step lenient) init overtaking).written,
      w.agent = 0 ∧ w.req = 1 ∧ ServerPackage.headerSession w.package = some 100 := by decide
  refine ⟨by decide, by decide, ?_⟩
  rintro (h | h)
  · revert h; decide
  · obtain ⟨w, hmem, ha, hr, hheader⟩ := hw
    obtain ⟨m, hm, hs⟩ := h w hmem ha
    rw [hheader, Option.some.injEq] at hs
    rw [hsent, hr] at hm
    -- the message behind request 1 has session 2
    obtain rfl : m = loginMsg MessageRequestType.ChangeEvent 2 := by simpa using hm
    revert hs; decide

end OwliesServer.Server
