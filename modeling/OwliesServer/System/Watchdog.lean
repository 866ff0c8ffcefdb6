/-
The watchdog (Script/Service/owlies_watchdog.lua): one agent service for each connection. `skynet.newservice` and
`skynet.call` suspend the handler, and other messages are handled meanwhile:
- SOCKET.open launches an agent (first suspension), registers it, and starts it (second suspension);
- SOCKET.close, SOCKET.error and CMD.close run `close_agent`: the registered agent is taken out of the table, the gate
  kicks the connection (suspension), and the agent is sent disconnect. Without a registered agent they do nothing.

A connection is `live` from its SOCKET.open until the next close, error or CMD.close for it; the gate reports an open
only for an fd that is not live. Operations that are not enabled leave the state unchanged.

Results:
- `disconnect_at_most_once`: in every run, no agent is sent disconnect twice;
- `agent_lifecycle`: moreover, in every run in which no close reaches the watchdog while the launch for the same fd is
  suspended, in every state without suspended handlers each launched agent is registered for a live fd or was sent
  disconnect;
- `close_during_launch_leaks`: a close during the launch leaves the agent registered for a dead fd.
-/
import OwliesServer.Core.Machine

namespace OwliesServer.Watchdog

open OwliesServer.Machine

/-! ## Model -/

abbrev Fd := ℕ

abbrev AgentId := ℕ

/-- suspended handlers, by the call they wait in -/
inductive Handler where
  /-- SOCKET.open in `skynet.newservice` -/
  | launching (fd : Fd)
  /-- SOCKET.open in the call of `start` -/
  | starting (fd : Fd) (a : AgentId)
  /-- close_agent in the call of `kick` -/
  | kicking (fd : Fd) (a : AgentId)
deriving DecidableEq, Repr

structure St where
  agent : Fd → Option AgentId
  suspended : List Handler
  /-- the agents launched so far are 0, …, launched - 1 -/
  launched : ℕ
  /-- the agents sent disconnect, in order -/
  disconnected : List AgentId
  live : Fd → Bool

def init : St := ⟨fun _ => none, [], 0, [], fun _ => false⟩

inductive Op where
  | socketOpen (fd : Fd)
  | socketClose (fd : Fd)
  | socketError (fd : Fd)
  | cmdClose (fd : Fd)
  /-- `newservice` comes back, with a new agent or an error -/
  | launchDone (fd : Fd) (ok : Bool)
  /-- the call of `start` comes back; nothing is done after it, whether it succeeded or raised -/
  | startDone (fd : Fd) (a : AgentId)
  | kickDone (fd : Fd) (a : AgentId)
deriving DecidableEq, Repr

/-- `close_agent` up to its suspension -/
def closeAgent (s : St) (fd : Fd) : St :=
  match s.agent fd with
  | none => { s with live := Function.update s.live fd false }
  | some a =>
    { s with
      agent := Function.update s.agent fd none
      suspended := s.suspended ++ [.kicking fd a]
      live := Function.update s.live fd false }

def step (s : St) : Op → St
  | .socketOpen fd =>
    if s.live fd then s
    else { s with suspended := s.suspended ++ [.launching fd], live := Function.update s.live fd true }
  | .socketClose fd => closeAgent s fd
  | .socketError fd => closeAgent s fd
  | .cmdClose fd => closeAgent s fd
  | .launchDone fd ok =>
    if .launching fd ∈ s.suspended then
      if ok then
        { s with
          agent := Function.update s.agent fd (some s.launched)
          suspended := s.suspended.erase (.launching fd) ++ [.starting fd s.launched]
          launched := s.launched + 1 }
      else { s with suspended := s.suspended.erase (.launching fd) }
    else s
  | .startDone fd a =>
    if .starting fd a ∈ s.suspended then { s with suspended := s.suspended.erase (.starting fd a) } else s
  | .kickDone fd a =>
    if .kicking fd a ∈ s.suspended then
      { s with suspended := s.suspended.erase (.kicking fd a), disconnected := s.disconnected ++ [a] }
    else s

/-! ## What a step does to the agents -/

/-- the agents of the suspended kicks -/
def kicked (hs : List Handler) : List AgentId :=
  hs.filterMap fun
    | .kicking _ a => some a
    | _ => none

/-- the agents taken out of the table by close_agent: being kicked, or disconnected -/
def gone (s : St) : List AgentId := kicked s.suspended ++ s.disconnected

theorem kicked_append (hs hs' : List Handler) : kicked (hs ++ hs') = kicked hs ++ kicked hs' := List.filterMap_append

/-- the agents of one kind of handler, when one handler comes back -/
theorem filterMap_erase (f : Handler → Option AgentId) (hs : List Handler) (h : Handler) (hmem : h ∈ hs) :
    (hs.filterMap f).Perm ([h].filterMap f ++ (hs.erase h).filterMap f) := by
  rw [← List.filterMap_append]
  exact (List.perm_cons_erase hmem).filterMap _

theorem kicked_erase (hs : List Handler) (h : Handler) (hmem : h ∈ hs) :
    (kicked hs).Perm (kicked [h] ++ kicked (hs.erase h)) :=
  filterMap_erase _ hs h hmem

/-- a handler that kicks nobody comes back -/
theorem gone_erase (s : St) (h : Handler) (hmem : h ∈ s.suspended) (hk : kicked [h] = []) (more : List Handler)
    (hm : kicked more = []) : (kicked (s.suspended.erase h ++ more) ++ s.disconnected).Perm (gone s) := by
  have := kicked_erase s.suspended h hmem
  rw [hk, List.nil_append] at this
  rw [kicked_append, hm, List.append_nil]
  exact (this.append_right _).symm

/-- everything a step can do to the registered and the removed agents -/
inductive Effect (s s' : St) : Prop
  | none (agent : s'.agent = s.agent) (gone : (gone s').Perm (gone s)) (launched : s'.launched = s.launched)
  /-- close_agent takes one out -/
  | removes (fd : Fd) (a : AgentId) (registered : s.agent fd = some a)
      (agent : s'.agent = Function.update s.agent fd none) (gone : (gone s').Perm (a :: gone s))
      (launched : s'.launched = s.launched)
  /-- a launch registers a new one -/
  | registers (fd : Fd) (launching : .launching fd ∈ s.suspended)
      (agent : s'.agent = Function.update s.agent fd (some s.launched)) (gone : (gone s').Perm (gone s))
      (launched : s'.launched = s.launched + 1)

theorem closeAgent_effect (s : St) (fd : Fd) : Effect s (closeAgent s fd) := by
  cases ha : s.agent fd with
  | none => exact .none (by simp [closeAgent, ha]) (by simp [closeAgent, ha, gone]) (by simp [closeAgent, ha])
  | some a =>
    refine .removes fd a ha (by simp [closeAgent, ha]) ?_ (by simp [closeAgent, ha])
    simp only [closeAgent, ha, gone, kicked_append]
    exact (List.perm_append_singleton a (kicked s.suspended)).append_right _

theorem step_effect (s : St) (o : Op) : Effect s (step s o) := by
  cases o with
  | socketOpen fd =>
    simp only [step]
    split_ifs
    · exact .none rfl (List.Perm.refl _) rfl
    · exact .none rfl (by simp [gone, kicked]) rfl
  | socketClose fd => exact closeAgent_effect s fd
  | socketError fd => exact closeAgent_effect s fd
  | cmdClose fd => exact closeAgent_effect s fd
  | launchDone fd ok =>
    simp only [step]
    split_ifs with hmem hok
    · exact .registers fd hmem rfl (gone_erase s _ hmem rfl _ rfl) rfl
    · exact .none rfl (by simpa [gone] using gone_erase s _ hmem rfl [] rfl) rfl
    · exact .none rfl (List.Perm.refl _) rfl
  | startDone fd a =>
    simp only [step]
    split_ifs with hmem
    · exact .none rfl (by simpa [gone] using gone_erase s _ hmem rfl [] rfl) rfl
    · exact .none rfl (List.Perm.refl _) rfl
  | kickDone fd a =>
    simp only [step]
    split_ifs with hmem
    · refine .none rfl ?_ rfl
      -- the agent moves from the kicks to the disconnects
      have hk : (kicked s.suspended).Perm (a :: kicked (s.suspended.erase (.kicking fd a))) := kicked_erase _ _ hmem
      simp only [gone]
      rw [← List.append_assoc]
      exact (List.perm_append_singleton _ _).trans (hk.append_right s.disconnected).symm
    · exact .none rfl (List.Perm.refl _) rfl

/-! ## Every agent is disconnected at most once -/

/-- an agent is registered for at most one fd, and a removed one is never registered or removed again -/
structure Inv (s : St) : Prop where
  known : ∀ fd a, s.agent fd = some a → a < s.launched
  one_fd : ∀ fd fd' a, s.agent fd = some a → s.agent fd' = some a → fd = fd'
  gone_known : ∀ a ∈ gone s, a < s.launched
  gone_free : ∀ a ∈ gone s, ∀ fd, s.agent fd ≠ some a
  once : (gone s).Nodup

theorem inv_init : Inv init := by
  constructor <;> simp [init, gone, kicked]

theorem step_inv (s : St) (o : Op) (h : Inv s) : Inv (step s o) := by
  cases step_effect s o with
  | none hagent hgone hlaunched =>
    refine ⟨?_, ?_, fun a ha => ?_, fun a ha => ?_, hgone.nodup_iff.2 h.once⟩
    · rw [hagent, hlaunched]; exact h.known
    · rw [hagent]; exact h.one_fd
    · rw [hlaunched]; exact h.gone_known a (hgone.subset ha)
    · rw [hagent]; exact h.gone_free a (hgone.subset ha)
  | removes fd a hreg hagent hgone hlaunched =>
    have hkeep : ∀ fd' a', (step s o).agent fd' = some a' → fd' ≠ fd ∧ s.agent fd' = some a' := by
      intro fd' a' h'
      rw [hagent] at h'
      by_cases hfd : fd' = fd
      · subst hfd; simp at h'
      · exact ⟨hfd, by rwa [Function.update_of_ne hfd] at h'⟩
    refine ⟨fun fd' a' h' => ?_, fun fd' fd'' a' h' h'' => ?_, fun a' ha' => ?_, fun a' ha' fd' h' => ?_, ?_⟩
    · rw [hlaunched]; exact h.known fd' a' (hkeep fd' a' h').2
    · exact h.one_fd fd' fd'' a' (hkeep _ _ h').2 (hkeep _ _ h'').2
    · rw [hlaunched]
      rcases List.mem_cons.1 (hgone.subset ha') with rfl | ha'
      · exact h.known fd a' hreg
      · exact h.gone_known a' ha'
    · obtain ⟨hne, hreg'⟩ := hkeep fd' a' h'
      rcases List.mem_cons.1 (hgone.subset ha') with rfl | ha'
      · exact hne (h.one_fd fd' fd a' hreg' hreg)
      · exact h.gone_free a' ha' fd' hreg'
    · exact hgone.nodup_iff.2 (List.nodup_cons.2 ⟨fun ha => h.gone_free a ha fd hreg, h.once⟩)
  | registers fd hlaunching hagent hgone hlaunched =>
    have hnew : ∀ fd' a', (step s o).agent fd' = some a' → (fd' = fd ∧ a' = s.launched) ∨ s.agent fd' = some a' := by
      intro fd' a' h'
      rw [hagent] at h'
      by_cases hfd : fd' = fd
      · subst hfd; simp at h'; exact Or.inl ⟨rfl, h'.symm⟩
      · exact Or.inr (by rwa [Function.update_of_ne hfd] at h')
    refine ⟨fun fd' a' h' => ?_, fun fd' fd'' a' h' h'' => ?_, fun a' ha' => ?_, fun a' ha' fd' h' => ?_,
      hgone.nodup_iff.2 h.once⟩
    · rw [hlaunched]
      rcases hnew fd' a' h' with ⟨-, rfl⟩ | hold
      · exact Nat.lt_succ_self _
      · exact Nat.lt_succ_of_lt (h.known fd' a' hold)
    · -- the number of the new agent is not in use yet
      rcases hnew fd' a' h' with ⟨rfl, rfl⟩ | hold <;> rcases hnew fd'' _ h'' with ⟨rfl, he⟩ | hold'
      · rfl
      · exact absurd (h.known fd'' _ hold') (lt_irrefl _)
      · subst he; exact absurd (h.known fd' _ hold) (lt_irrefl _)
      · exact h.one_fd fd' fd'' a' hold hold'
    · rw [hlaunched]; exact Nat.lt_succ_of_lt (h.gone_known a' (hgone.subset ha'))
    · rcases hnew fd' a' h' with ⟨-, rfl⟩ | hold
      · exact absurd (h.gone_known _ (hgone.subset ha')) (lt_irrefl _)
      · exact h.gone_free a' (hgone.subset ha') fd' hold

/-- **No agent is sent disconnect twice.** -/
theorem disconnect_at_most_once (ops : List Op) : (run step init ops).disconnected.Nodup :=
  (List.nodup_append.1 (run_inv step Inv step_inv init ops inv_init).once).2.1

/-! ## Every agent is started at most once -/

/-- the agents whose `start` call is suspended -/
def starting (hs : List Handler) : List AgentId :=
  hs.filterMap fun
    | .starting _ a => some a
    | _ => none

theorem starting_append (hs hs' : List Handler) : starting (hs ++ hs') = starting hs ++ starting hs' :=
  List.filterMap_append

theorem starting_erase (hs : List Handler) (h : Handler) (hmem : h ∈ hs) :
    (starting hs).Perm (starting [h] ++ starting (hs.erase h)) :=
  filterMap_erase _ hs h hmem

/-- what a step does to the starts: nothing; a launch leads to one; one comes back -/
theorem step_starting (s : St) (o : Op) :
    ((starting (step s o).suspended).Perm (starting s.suspended) ∧ (step s o).launched = s.launched) ∨
    ((starting (step s o).suspended).Perm (s.launched :: starting s.suspended) ∧
      (step s o).launched = s.launched + 1) ∨
    (∃ fd a, o = .startDone fd a ∧ (starting s.suspended).Perm (a :: starting (step s o).suspended) ∧
      (step s o).launched = s.launched) := by
  have hclose : ∀ fd, starting (closeAgent s fd).suspended = starting s.suspended ∧
      (closeAgent s fd).launched = s.launched := by
    intro fd
    unfold closeAgent
    split
    · exact ⟨rfl, rfl⟩
    · exact ⟨by simp [starting], rfl⟩
  cases o with
  | socketOpen fd =>
    refine Or.inl ?_
    simp only [step]
    split_ifs
    · exact ⟨List.Perm.refl _, rfl⟩
    · exact ⟨by simp [starting], rfl⟩
  | socketClose fd => exact Or.inl ⟨by rw [step, (hclose fd).1], (hclose fd).2⟩
  | socketError fd => exact Or.inl ⟨by rw [step, (hclose fd).1], (hclose fd).2⟩
  | cmdClose fd => exact Or.inl ⟨by rw [step, (hclose fd).1], (hclose fd).2⟩
  | launchDone fd ok =>
    simp only [step]
    split_ifs with hmem hok
    · refine Or.inr (Or.inl ⟨?_, rfl⟩)
      have hperm : (starting s.suspended).Perm (starting (s.suspended.erase (.launching fd))) := starting_erase _ _ hmem
      rw [starting_append]
      exact (List.perm_append_singleton _ _).trans (hperm.symm.cons _)
    · exact Or.inl ⟨(starting_erase _ _ hmem).symm, rfl⟩
    · exact Or.inl ⟨List.Perm.refl _, rfl⟩
  | startDone fd a =>
    simp only [step]
    split_ifs with hmem
    · exact Or.inr (Or.inr ⟨fd, a, rfl, starting_erase _ _ hmem, rfl⟩)
    · exact Or.inl ⟨List.Perm.refl _, rfl⟩
  | kickDone fd a =>
    simp only [step]
    split_ifs with hmem
    · exact Or.inl ⟨(starting_erase _ _ hmem).symm, rfl⟩
    · exact Or.inl ⟨List.Perm.refl _, rfl⟩

/-! ## No agent is leaked -/

/-- the fd a message closes -/
def closes : Op → Option Fd
  | .socketClose fd => some fd
  | .socketError fd => some fd
  | .cmdClose fd => some fd
  | _ => none

/-- no close, error or CMD.close is handled while the launch for the same fd is suspended -/
def NoCloseDuringLaunch (s : St) (o : Op) : Prop := ∀ fd, closes o = some fd → .launching fd ∉ s.suspended

/-- a launch is under way only for a live fd without an agent, and once; agents are registered for live fds; every
launched agent is registered or was taken out -/
structure Accounted (s : St) : Prop where
  launching : ∀ fd, .launching fd ∈ s.suspended → s.live fd = true ∧ s.agent fd = none
  launching_once : ∀ fd, s.suspended.count (.launching fd) ≤ 1
  registered : ∀ fd a, s.agent fd = some a → s.live fd = true
  accounted : ∀ a < s.launched, (∃ fd, s.agent fd = some a) ∨ a ∈ gone s

theorem accounted_init : Accounted init := by
  constructor <;> simp [init]

/-- the fourth field, from the effect of the step alone -/
theorem step_accounted (s : St) (o : Op) (h : Accounted s) :
    ∀ a < (step s o).launched, (∃ fd, (step s o).agent fd = some a) ∨ a ∈ gone (step s o) := by
  intro a ha
  cases step_effect s o with
  | none hagent hgone hlaunched =>
    rw [hagent]; rw [hlaunched] at ha
    exact (h.accounted a ha).imp id fun hm => hgone.symm.subset hm
  | removes fd a' hreg hagent hgone hlaunched =>
    rw [hlaunched] at ha
    rcases h.accounted a ha with ⟨fd', hfd'⟩ | hm
    · by_cases hfd : fd' = fd
      · subst hfd
        rw [hreg, Option.some.injEq] at hfd'
        exact Or.inr (hgone.symm.subset (by simp [hfd']))
      · exact Or.inl ⟨fd', by rw [hagent, Function.update_of_ne hfd]; exact hfd'⟩
    · exact Or.inr (hgone.symm.subset (List.mem_cons_of_mem _ hm))
  | registers fd hlaunching hagent hgone hlaunched =>
    rw [hlaunched] at ha
    rcases Nat.lt_succ_iff_lt_or_eq.1 ha with hlt | rfl
    · rcases h.accounted a hlt with ⟨fd', hfd'⟩ | hm
      · -- the fd of the launch had no agent, so none is overwritten
        have hne : fd' ≠ fd := by
          rintro rfl
          rw [(h.launching fd' hlaunching).2] at hfd'; cases hfd'
        exact Or.inl ⟨fd', by rw [hagent, Function.update_of_ne hne]; exact hfd'⟩
      · exact Or.inr (hgone.symm.subset hm)
    · exact Or.inl ⟨fd, by rw [hagent, Function.update_self]⟩

theorem closeAgent_launching (s : St) (fd fd' : Fd) :
    (closeAgent s fd).suspended.count (.launching fd') = s.suspended.count (.launching fd') := by
  unfold closeAgent
  split <;> simp

theorem closeAgent_agent (s : St) (fd : Fd) : (closeAgent s fd).agent = Function.update s.agent fd none := by
  unfold closeAgent
  split
  · rename_i hnone
    rw [← hnone, Function.update_eq_self]
  · rfl

theorem closeAgent_live (s : St) (fd : Fd) : (closeAgent s fd).live = Function.update s.live fd false := by
  unfold closeAgent
  split <;> rfl

theorem closeAgent_accounted (s : St) (fd : Fd) (hl : .launching fd ∉ s.suspended) (h : Accounted s)
    (hacc : ∀ a < (closeAgent s fd).launched,
      (∃ fd', (closeAgent s fd).agent fd' = some a) ∨ a ∈ gone (closeAgent s fd)) :
    Accounted (closeAgent s fd) := by
  refine ⟨fun fd' h' => ?_, fun fd' => ?_, fun fd' a ha => ?_, hacc⟩
  · have hmem : .launching fd' ∈ s.suspended := by
      rw [← List.count_pos_iff, ← closeAgent_launching s fd fd']; exact List.count_pos_iff.2 h'
    have hne : fd' ≠ fd := fun e => hl (e ▸ hmem)
    rw [closeAgent_live, closeAgent_agent, Function.update_of_ne hne, Function.update_of_ne hne]
    exact h.launching fd' hmem
  · rw [closeAgent_launching]; exact h.launching_once fd'
  · rw [closeAgent_agent] at ha
    have hne : fd' ≠ fd := by
      rintro rfl
      rw [Function.update_self] at ha; cases ha
    rw [closeAgent_live, Function.update_of_ne hne]
    exact h.registered fd' a (by rwa [Function.update_of_ne hne] at ha)

/-- when a launch comes back, no other one for the same fd is under way -/
theorem launching_erase (s : St) (h : Accounted s) (fd : Fd) : .launching fd ∉ s.suspended.erase (.launching fd) := by
  intro hm
  have hpos := List.count_pos_iff.2 hm
  rw [List.count_erase_self] at hpos
  have := h.launching_once fd
  omega

/-- a suspended handler comes back; if it is a launch, it may register an agent -/
theorem erase_accounted (s s' : St) (x : Handler) (more : List Handler) (h : Accounted s)
    (hs : s'.suspended = s.suspended.erase x ++ more) (hmore : ∀ fd, .launching fd ∉ more) (hl : s'.live = s.live)
    (ha : ∀ fd, s'.agent fd = s.agent fd ∨ x = .launching fd ∧ x ∈ s.suspended)
    (hacc : ∀ a < s'.launched, (∃ fd, s'.agent fd = some a) ∨ a ∈ gone s') : Accounted s' := by
  refine ⟨fun fd h' => ?_, fun fd => ?_, fun fd a h' => ?_, hacc⟩
  · have hm : .launching fd ∈ s.suspended.erase x := by
      rw [hs] at h'
      exact (List.mem_append.1 h').resolve_right (hmore fd)
    have hold := h.launching fd (List.mem_of_mem_erase hm)
    rcases ha fd with hsame | ⟨rfl, -⟩
    · rw [hl, hsame]; exact hold
    · exact absurd hm (launching_erase s h fd)
  · rw [hs, List.count_append, List.count_eq_zero.2 (hmore fd)]
    exact le_trans (List.erase_sublist.count_le _) (h.launching_once fd)
  · rw [hl]
    rcases ha fd with hsame | ⟨rfl, hm⟩
    · exact h.registered fd a (hsame ▸ h')
    · exact (h.launching fd hm).1

theorem step_keeps_accounted (s : St) (o : Op) (hg : NoCloseDuringLaunch s o) (h : Accounted s) :
    Accounted (step s o) := by
  have hacc := step_accounted s o h
  cases o with
  | socketOpen fd =>
    simp only [step] at hacc ⊢
    split_ifs at hacc ⊢ with hlive
    · exact h
    · have hno : .launching fd ∉ s.suspended := fun hm => hlive (h.launching fd hm).1
      have hnone : s.agent fd = none := by
        cases ha : s.agent fd with
        | none => rfl
        | some a => exact absurd (h.registered fd a ha) hlive
      refine ⟨fun fd' h' => ?_, fun fd' => ?_, fun fd' a ha => ?_, hacc⟩
      · by_cases hfd : fd' = fd
        · subst hfd; exact ⟨by simp, hnone⟩
        · have hm : .launching fd' ∈ s.suspended := by simpa [hfd] using h'
          exact ⟨by simpa [Function.update_of_ne hfd] using (h.launching fd' hm).1, (h.launching fd' hm).2⟩
      · by_cases hfd : fd' = fd
        · subst hfd; simp [List.count_append, List.count_eq_zero.2 hno]
        · have := h.launching_once fd'
          simpa [List.count_append, List.count_singleton, Ne.symm hfd] using this
      · by_cases hfd : fd' = fd
        · subst hfd; simp
        · simpa [Function.update_of_ne hfd] using h.registered fd' a ha
  | socketClose fd => exact closeAgent_accounted s fd (hg fd rfl) h hacc
  | socketError fd => exact closeAgent_accounted s fd (hg fd rfl) h hacc
  | cmdClose fd => exact closeAgent_accounted s fd (hg fd rfl) h hacc
  | launchDone fd ok =>
    simp only [step] at hacc ⊢
    split_ifs at hacc ⊢ with hmem hok
    · refine erase_accounted s _ (.launching fd) [.starting fd s.launched] h rfl (by simp) rfl (fun fd' => ?_) hacc
      by_cases hfd : fd' = fd
      · exact Or.inr ⟨by rw [hfd], hmem⟩
      · exact Or.inl (Function.update_of_ne hfd _ _)
    · exact erase_accounted s _ (.launching fd) [] h (by simp) (by simp) rfl (fun _ => Or.inl rfl) hacc
    · exact h
  | startDone fd a =>
    simp only [step] at hacc ⊢
    split_ifs at hacc ⊢
    · exact erase_accounted s _ (.starting fd a) [] h (by simp) (by simp) rfl (fun _ => Or.inl rfl) hacc
    · exact h
  | kickDone fd a =>
    simp only [step] at hacc ⊢
    split_ifs at hacc ⊢
    · exact erase_accounted s _ (.kicking fd a) [] h (by simp) (by simp) rfl (fun _ => Or.inl rfl) hacc
    · exact h

/-- **Agents are accounted for.** In every run without a close during a launch, in every state without suspended handlers
each launched agent is registered for a live fd or was sent disconnect. -/
theorem agents_accounted_for (ops : List Op) (hg : Guarded step NoCloseDuringLaunch init ops)
    (hq : (run step init ops).suspended = []) (a : AgentId) (ha : a < (run step init ops).launched) :
    (∃ fd, (run step init ops).agent fd = some a ∧ (run step init ops).live fd = true) ∨
      a ∈ (run step init ops).disconnected := by
  have h := guarded_inv step NoCloseDuringLaunch Accounted step_keeps_accounted init ops hg accounted_init
  rcases h.accounted a ha with ⟨fd, hfd⟩ | hm
  · exact Or.inl ⟨fd, hfd, h.registered fd a hfd⟩
  · refine Or.inr ?_
    simpa [gone, hq, kicked] using hm

/-- **Agent lifecycle.** No agent is ever sent disconnect twice; and in every run without a close during a launch of the
same fd, whenever no handler is suspended each launched agent is registered for a live fd or was sent disconnect. -/
theorem agent_lifecycle (ops : List Op) :
    (run step init ops).disconnected.Nodup ∧
      (Guarded step NoCloseDuringLaunch init ops → (run step init ops).suspended = [] →
        ∀ a < (run step init ops).launched,
          (∃ fd, (run step init ops).agent fd = some a ∧ (run step init ops).live fd = true) ∨
            a ∈ (run step init ops).disconnected) :=
  ⟨disconnect_at_most_once ops, agents_accounted_for ops⟩

/-- one connection from open to close -/
def oneConnection : List Op := [.socketOpen 4, .launchDone 4 true, .startDone 4 0, .socketClose 4, .kickDone 4 0]

theorem agent_lifecycle_sample :
    Guarded step NoCloseDuringLaunch init oneConnection ∧
      ((∃ fd, (run step init oneConnection).agent fd = some 0 ∧ (run step init oneConnection).live fd = true) ∨
        0 ∈ (run step init oneConnection).disconnected) := by
  have hg : Guarded step NoCloseDuringLaunch init oneConnection := by
    simp [oneConnection, Guarded, NoCloseDuringLaunch, closes, step, init]
  exact ⟨hg, (agent_lifecycle oneConnection).2 hg (by decide) 0 (by decide)⟩

/-- the peer closes while the agent is being launched -/
def closeDuringLaunch : List Op := [.socketOpen 4, .socketClose 4, .launchDone 4 true, .startDone 4 0]

/-- **A close during the launch leaks the agent**: nothing is suspended any more, and the agent stays registered for the
closed fd, never to be disconnected. -/
theorem close_during_launch_leaks :
    (run step init closeDuringLaunch).suspended = [] ∧ 0 < (run step init closeDuringLaunch).launched ∧
      (run step init closeDuringLaunch).agent 4 = some 0 ∧ (run step init closeDuringLaunch).live 4 = false ∧
      ¬ ((∃ fd, (run step init closeDuringLaunch).agent fd = some 0 ∧ (run step init closeDuringLaunch).live fd = true) ∨
        0 ∈ (run step init closeDuringLaunch).disconnected) := by
  refine ⟨by decide, by decide, by decide, by decide, ?_⟩
  rintro (⟨fd, hfd, hlive⟩ | h)
  · by_cases h4 : fd = 4
    · subst h4; revert hlive; decide
    · simp [run, closeDuringLaunch, step, closeAgent, init, h4] at hfd
  · revert h; decide

end OwliesServer.Watchdog
