/-
What becomes of the messages of a service, whatever the threads do (`Scheduler`).

- `queue_in_one_place`: a queue is in the global queue or with one thread, never both or twice, so a service handles one
  message at a time; and a queue with messages is not forgotten.
- `messages_in_order`: the messages of a service are handled in the order in which they were pushed, each once, and the
  rest is dropped only after the service is gone.
- `freed_queue_untouched`: when a queue is freed all its messages have been handled or dropped, and no thread refers to
  the queue or to its context any more.
-/
import OwliesServer.Skynet.Scheduler

namespace OwliesServer.Scheduler

open OwliesServer.Threads

/-! ## The history of the messages -/

/-- the message of `d` that a worker has taken out and not yet handled -/
def Thread.inHand (d : Service) : Thread → Option Message
  | .worker _ (.popped c _ _ msg) => if c = d then some msg else none
  | .worker _ (.running c _ _ msg) => if c = d then some msg else none
  | _ => none

/-- what happened to the messages of one service -/
structure Record where
  pushed : List Message
  handled : List Message
  dropped : List Message
  contents : List Message
  release : Bool

def record (s : Shared) (d : Service) : Record :=
  ⟨s.pushed d, s.handled d, s.dropped d, (s.queue d).ring.contents, (s.queue d).release⟩

/-- messages are handled, then dropped, in the order in which they were pushed; `hands` are those workers have taken out -/
structure Ordered (r : Record) (hands : List Message) : Prop where
  busy : ∀ msg ∈ hands, r.pushed = r.handled ++ msg :: r.contents
  idle : hands = [] → r.pushed = r.handled ++ r.dropped ++ r.contents
  dropped : r.release = false → r.dropped = []

def inHands (d : Service) (ts : List Thread) : List Message := ts.filterMap (Thread.inHand d)

def History (s : Shared) (ts : List Thread) : Prop := ∀ d, Ordered (record s d) (inHands d ts)

theorem History.perm {s : Shared} {ts us : List Thread} (h : History s ts) (hp : ts.Perm us) : History s us := by
  intro d
  have hands : (inHands d ts).Perm (inHands d us) := hp.filterMap _
  refine ⟨fun msg hm => (h d).busy msg (hands.mem_iff.2 hm), fun hn => (h d).idle ?_, (h d).dropped⟩
  rw [hn] at hands
  exact hands.eq_nil

theorem inHands_cons (d : Service) (t : Thread) (ts : List Thread) :
    inHands d (t :: ts) = (t.inHand d).toList ++ inHands d ts := by
  cases h : t.inHand d <;> simp [inHands, h]

theorem inHands_append (d : Service) (us ts : List Thread) : inHands d (us ++ ts) = inHands d us ++ inHands d ts :=
  List.filterMap_append

/-- a worker with a message has the queue it comes from -/
theorem own_of_inHand {d : Service} {t : Thread} {msg : Message} (h : t.inHand d = some msg) : .own d ∈ t.claims := by
  unfold Thread.inHand at h
  split at h
  · split_ifs at h with hc
    simp [Thread.claims, Pc.claims, hc]
  · split_ifs at h with hc
    simp [Thread.claims, Pc.claims, hc]
  · exact absurd h (by simp)

section History

variable {s : Shared} {t : Thread} {ts : List Thread}

/-- nobody else has a message of a queue that a thread has -/
theorem inHands_eq_nil (h : Inv s (t.claims ++ claims s ts)) {d : Service} (ho : .own d ∈ t.claims) :
    inHands d ts = [] := by
  rw [List.eq_nil_iff_forall_not_mem]
  intro msg hm
  obtain ⟨u, hu, humsg⟩ := List.mem_filterMap.1 hm
  have hin : .own d ∈ claims s ts := List.mem_append_right _ (List.mem_flatMap.2 ⟨u, hu, own_of_inHand humsg⟩)
  have hle : (t.claims ++ claims s ts).count (.own d) ≤ 1 := (h d).owners_le
  have hpos := List.count_pos_iff.2 ho
  have hpos' := List.count_pos_iff.2 hin
  rw [List.count_append] at hle
  omega

/-- the messages stay where they are -/
theorem history_same (h : History s (t :: ts)) {s' : Shared} {us : List Thread}
    (hr : ∀ d, record s' d = record s d) (hu : ∀ d, inHands d us = (t.inHand d).toList) : History s' (us ++ ts) := by
  intro d
  have hd := h d
  rwa [inHands_cons, ← hu d, ← inHands_append, ← hr d] at hd

/-- only the messages of `c` are concerned -/
theorem history_at (h : History s (t :: ts)) {s' : Shared} {us : List Thread} (c : Service)
    (hr : ∀ d, d ≠ c → record s' d = record s d) (hu : ∀ d, d ≠ c → inHands d us = (t.inHand d).toList)
    (hc : Ordered (record s' c) (inHands c us ++ inHands c ts)) : History s' (us ++ ts) := by
  intro d
  by_cases hd : d = c
  · rw [hd, inHands_append]
    exact hc
  · have hother := h d
    rwa [inHands_cons, ← hu d hd, ← inHands_append, ← hr d hd] at hother

theorem inHands_contextRelease (s : Shared) (c d : Service) : inHands d (contextRelease s c).2 = [] := by
  unfold contextRelease
  split_ifs <;> rfl

theorem inHands_handleRetire (s : Shared) (c d : Service) : inHands d (handleRetire s c).2 = [] := by
  unfold handleRetire
  split_ifs <;> rfl

theorem record_handleRetire (s : Shared) (c d : Service) : record (handleRetire s c).1 d = record s d := by
  unfold handleRetire
  split_ifs <;> rfl

theorem record_setQueue_of_ne (s : Shared) {q d : Service} (hd : d ≠ q) (x : Queue) :
    record (setQueue s q x) d = record s d := by
  simp [record, setQueue, hd]

theorem inHands_worker (weight : Option ℕ) (pc : Pc) (d : Service) :
    inHands d [.worker weight pc] = ((Thread.worker weight pc).inHand d).toList := by
  rw [inHands_cons]
  exact List.append_nil _

/-- a worker has taken out a message -/
theorem history_pop {weight : Option ℕ} {c : Service} {i n : ℕ} {msg : Message} {ring : Ring Message}
    (hi : Inv s ((Pc.loop c i n).claims ++ claims s ts)) (h : History s (.worker weight (.loop c i n) :: ts))
    (hc : (s.queue c).ring.contents = msg :: ring.contents) :
    History (setQueue s c { s.queue c with ring }) ([.worker weight (.popped c i n msg)] ++ ts) := by
  have hnil : inHands c ts = [] := inHands_eq_nil (t := .worker weight (.loop c i n)) hi (by simp [Thread.claims, Pc.claims])
  have hrel : (s.queue c).release = false := ((hi c).of_holders (by simp [view, Pc.claims])).2.2.2.1
  have hpushed := (h c).idle (by rw [inHands_cons, hnil]; rfl)
  have hdropped := (h c).dropped hrel
  refine history_at h c (fun d hd => record_setQueue_of_ne s hd _) (fun d hd => ?_) ⟨?_, ?_, ?_⟩
  · simp [inHands_worker, Thread.inHand, hd.symm]
  · intro msg' hm
    rw [hnil, inHands_worker] at hm
    obtain rfl : msg' = msg := by simpa [Thread.inHand] using hm
    simp only [record, setQueue, Function.update_self] at hpushed hdropped ⊢
    rw [hpushed, hdropped, hc, List.append_nil]
  · intro hn
    simp [inHands_worker, Thread.inHand] at hn
  · exact fun _ => hdropped

/-- a worker has handled its message -/
theorem history_handled {weight : Option ℕ} {c : Service} {i n : ℕ} {msg : Message} (pc : Pc)
    (hi : Inv s ((Pc.running c i n msg).claims ++ claims s ts))
    (h : History s (.worker weight (.running c i n msg) :: ts))
    (hpc : ∀ d, (Thread.worker weight pc).inHand d = none) :
    History { s with handled := Function.update s.handled c (s.handled c ++ [msg]) } ([.worker weight pc] ++ ts) := by
  have hnil : inHands c ts = [] :=
    inHands_eq_nil (t := .worker weight (.running c i n msg)) hi (by simp [Thread.claims, Pc.claims])
  have hrel : (s.queue c).release = false := ((hi c).of_holders (by simp [view, Pc.claims])).2.2.2.1
  have hpushed := (h c).busy msg (by simp [inHands_cons, Thread.inHand])
  have hdropped := (h c).dropped hrel
  have hhands : ∀ d, inHands d [.worker weight pc] = [] := by
    intro d
    rw [inHands_worker, hpc d]
    rfl
  refine history_at h c (fun d hd => ?_) (fun d hd => ?_) ⟨?_, ?_, ?_⟩
  · simp [record, hd]
  · rw [hhands d]
    simp [Thread.inHand, hd.symm]
  · intro msg' hm
    rw [hnil, hhands] at hm
    exact absurd hm (by simp)
  · intro _
    simp only [record] at hpushed hdropped ⊢
    rw [hpushed, hdropped]
    simp
  · exact fun _ => hdropped

theorem history_dispatch (weight : Option ℕ) (pc : Pc) (hi : Inv s (pc.claims ++ claims s ts))
    (h : History s (.worker weight pc :: ts)) :
    History (dispatch s weight pc).1 ((dispatch s weight pc).2 ++ ts) := by
  cases pc with
  | idle =>
    rcases globalmqPop_cases s with hp | ⟨q, rest, hg, hp⟩
    · simp only [dispatch, hp]
      exact history_same h (fun _ => rfl) fun _ => rfl
    · simp only [dispatch, hp]
      exact history_same h (fun _ => rfl) fun _ => rfl
  | own q =>
    simp only [dispatch]
    split_ifs
    · exact history_same h (fun _ => rfl) fun _ => rfl
    · exact history_same h (fun _ => rfl) fun _ => rfl
  | loop c i n =>
    rcases mqPop_cases s c with ⟨hc, hp⟩ | ⟨msg, ring, hc, hp⟩
    · simp only [dispatch, hp]
      refine history_same h (fun d => ?_) fun _ => rfl
      by_cases hd : d = c
      · simp [record, setQueue, hd]
      · simp [record, setQueue, hd]
    · simp only [dispatch, hp]
      exact history_pop hi h hc
  | popped c i n msg =>
    simp only [dispatch]
    split
    · exact history_same h (fun _ => rfl) fun _ => rfl
    · exact history_same h (fun _ => rfl) fun _ => rfl
  | running c i n msg =>
    refine history_handled _ hi h fun d => ?_
    split_ifs <;> rfl
  | yield c =>
    rcases globalmqPop_cases s with hp | ⟨q, rest, hg, hp⟩
    · simp only [dispatch, hp]
      exact history_same h (fun _ => rfl) fun _ => rfl
    · simp only [dispatch, hp]
      exact history_same h (fun _ => rfl) fun _ => rfl
  | putBack c q => exact history_same h (fun _ => rfl) fun _ => rfl
  | leave c q =>
    refine history_same h (fun _ => rfl) fun d => ?_
    rw [dispatch, inHands_cons, inHands_contextRelease]
    rfl
  | drained c =>
    refine history_same h (fun _ => rfl) fun d => ?_
    rw [dispatch, inHands_cons, inHands_contextRelease]
    rfl

theorem history_push {c : Service} {msg : Message} (h : History s (.push c msg :: ts)) :
    History (mqPush s c msg) ([.release c] ++ ts) := by
  have hrec : record (mqPush s c msg) c =
      { record s c with pushed := s.pushed c ++ [msg], contents := (s.queue c).ring.contents ++ [msg] } := by
    unfold mqPush
    split_ifs <;> simp [record, setQueue, globalmqPush, Ring.contents_push]
  refine history_at h c (fun d hd => ?_) (fun _ _ => rfl) ?_
  · unfold mqPush
    split_ifs <;> simp [record, setQueue, globalmqPush, hd]
  · obtain ⟨hbusy, hidle, hdropped⟩ := h c
    rw [hrec]
    refine ⟨fun m hm => ?_, fun hn => ?_, hdropped⟩
    · have := hbusy m hm
      simp only [record] at this ⊢
      rw [this]
      simp
    · have := hidle hn
      simp only [record] at this ⊢
      rw [this]
      simp

theorem inHands_resume (back : Option (Option ℕ)) (d : Service) : inHands d (resume back) = [] := by
  cases back <;> rfl

/-- the oldest message of a deleted context is dropped -/
theorem history_drop {back : Option (Option ℕ)} {q : Service} {msg : Message} {ring : Ring Message} {us : List Thread}
    (hi : Inv s ((Thread.discard back q).claims ++ claims s ts)) (h : History s (.discard back q :: ts))
    (hc : (s.queue q).ring.contents = msg :: ring.contents) (hus : ∀ d, inHands d us = []) :
    History { setQueue s q { s.queue q with ring } with
      dropped := Function.update s.dropped q (s.dropped q ++ [msg]) } (us ++ ts) := by
  have hnil : inHands q ts = [] := inHands_eq_nil hi (by simp [Thread.claims])
  have hrel : (s.queue q).release = true := (hi q).discard (by simp [view, Thread.claims])
  have hpushed := (h q).idle (by rw [inHands_cons, hnil]; rfl)
  refine history_at h q (fun d hd => ?_) (fun d _ => hus d) ⟨?_, ?_, ?_⟩
  · simp [record, setQueue, hd]
  · intro msg' hm
    rw [hnil, hus] at hm
    exact absurd hm (by simp)
  · intro _
    simp only [record, setQueue, Function.update_self] at hpushed ⊢
    rw [hpushed, hc]
    simp
  · intro hr
    simp [record, setQueue, hrel] at hr

theorem history_delete {c : Service} (h : History s (.delete c :: ts)) : History (mqMarkRelease s c) ([] ++ ts) := by
  have hrec : record (mqMarkRelease s c) c = { record s c with release := true } := by
    unfold mqMarkRelease
    split_ifs <;> simp [record, setQueue, globalmqPush]
  refine history_at h c (fun d hd => ?_) (fun _ _ => rfl) ?_
  · unfold mqMarkRelease
    split_ifs <;> simp [record, setQueue, globalmqPush, hd]
  · obtain ⟨hbusy, hidle, -⟩ := h c
    rw [hrec]
    exact ⟨hbusy, hidle, by simp⟩

theorem record_contextNew {l : List Claim} (hi : Inv s l) (d : Service) : record (contextNew s) d = record s d := by
  by_cases hd : d = s.next
  · have hl : (view s l s.next).launched = false :=
      Bool.eq_false_iff.2 fun hlt => Nat.not_succ_le_self _ (Nat.le_of_ble_eq_true hlt)
    obtain ⟨-, -, -, -, -, hc, -, hr⟩ := (hi s.next).fresh hl
    simp only [view] at hc hr
    simp [record, contextNew, hd, hc, hr, emptyRing]
  · simp [record, contextNew, hd]

theorem history_act (t : Thread) (hi : Inv s (t.claims ++ claims s ts)) (h : History s (t :: ts)) :
    History (act s t).1 ((act s t).2 ++ ts) := by
  cases t with
  | worker weight pc => exact history_dispatch weight pc hi h
  | orphan back q =>
    simp only [act]
    split_ifs
    · exact history_same h (fun _ => rfl) fun _ => rfl
    · exact history_same h (fun _ => rfl) fun d => inHands_resume back d
  | discard back q =>
    rcases mqPop_cases s q with ⟨hc, hp⟩ | ⟨msg, ring, hc, hp⟩
    · simp only [act, hp]
      refine history_same h (fun d => ?_) fun _ => rfl
      by_cases hd : d = q
      · simp [record, setQueue, hd]
      · exact record_setQueue_of_ne s hd _
    · simp only [act, hp]
      refine history_drop hi h hc fun d => ?_
      cases msg.source <;> rfl
  | free back q => exact history_same h (fun _ => rfl) fun d => inHands_resume back d
  | send handle msg =>
    simp only [act]
    split_ifs
    · exact history_same h (fun _ => rfl) fun _ => rfl
    · exact history_same h (fun _ => rfl) fun _ => rfl
  | push c msg => exact history_push h
  | release c => exact history_same h (fun _ => rfl) fun d => inHands_contextRelease s c d
  | delete c => exact history_delete h
  | retire handle =>
    exact history_same h (fun d => record_handleRetire s handle d) fun d => inHands_handleRetire s handle d
  | launch ok => exact history_same h (fun d => record_contextNew hi d) fun _ => rfl
  | launched c ok =>
    refine history_same h (fun _ => rfl) fun d => ?_
    rw [act, inHands_cons, inHands_contextRelease]
    split_ifs <;> rfl
  | mark c => exact history_same h (fun _ => rfl) fun _ => rfl
  | publish q => exact history_same h (fun _ => rfl) fun _ => rfl
  | failed c =>
    refine history_same h (fun d => record_handleRetire s c d) fun d => ?_
    rw [act, inHands_cons, inHands_handleRetire]
    rfl

end History

/-! ## Runs -/

/-- the state after the operations -/
def reached (ops : List (Op Thread)) : Runtime := Machine.run step boot ops

theorem inv_reached (ops : List (Op Thread)) :
    Inv (reached ops).shared (claims (reached ops).shared (reached ops).threads) ∧
      History (reached ops).shared (reached ops).threads := by
  refine pool_inv act entry (fun s ts => Inv s (claims s ts) ∧ History s ts) ?_ ?_ ?_ boot ops ⟨?_, ?_⟩
  · rintro s ts us hp ⟨hi, hh⟩
    exact ⟨hi.perm ((held_perm Thread.claims hp).append_left _), hh.perm hp⟩
  · rintro s ts t he ⟨hi, hh⟩
    have hclaims : t.claims = [] ∧ ∀ d, t.inHand d = none := by
      cases t with
      | worker weight pc => cases pc <;> simp_all [entry, Thread.claims, Pc.claims, Thread.inHand]
      | _ => simp_all [entry, Thread.claims, Thread.inHand]
    refine ⟨hi.perm ?_, fun d => ?_⟩
    · have hcons := claims_cons s t ts
      rw [hclaims.1] at hcons
      exact hcons.symm
    · rw [inHands_cons, hclaims.2 d]
      exact hh d
  · rintro s t ts ⟨hi, hh⟩
    have hi' := hi.perm (claims_cons s t ts)
    exact ⟨(inv_act t hi').perm (claims_append _ _ _).symm, history_act t hi' hh⟩
  · intro d
    exact ⟨by simp [view, boot, start, claims, held, emptyRing], by simp [view, boot, start, claims, held],
      by simp [view, boot, start, claims, held], by simp [view, boot, start], by simp [view, boot, start, emptyRing],
      by simp [view, boot, start], by simp [view, boot, start], by simp [view, boot, start, claims, held],
      by simp [view, boot, start, claims, held]⟩
  · intro d
    exact ⟨by simp [inHands, boot], by simp [record, boot, start, emptyRing], by simp [record, boot, start]⟩

section Runs

variable (ops : List (Op Thread)) (d : Service)

/-- the thread has the queue of `d` in its hands -/
def Thread.has (d : Service) (t : Thread) : Prop := .own d ∈ t.claims

/-- the service a claim is about -/
def Claim.service : Claim → Service
  | .own q => q
  | .hold c => c
  | .delete c => c
  | .discard q => q
  | .free q => q

theorem ok_reached : Ok (view (reached ops).shared (claims (reached ops).shared (reached ops).threads) d) :=
  (inv_reached ops).1 d

/-- two threads that have one claim are the same -/
theorem index_unique {ts : List Thread} {k : Claim} (hle : (held Thread.claims ts).count k ≤ 1) {i j : ℕ} {t u : Thread}
    (hi : ts[i]? = some t) (hj : ts[j]? = some u) (ht : k ∈ t.claims) (hu : k ∈ u.claims) : i = j := by
  induction ts generalizing i j with
  | nil => simp at hi
  | cons v ts ih =>
    rw [held_cons, List.count_append] at hle
    have htail : ∀ {n : ℕ} {w : Thread}, ts[n]? = some w → k ∈ w.claims → 0 < (held Thread.claims ts).count k := by
      intro n w hw hk
      exact List.count_pos_iff.2 (List.mem_flatMap.2 ⟨w, List.mem_of_getElem? hw, hk⟩)
    cases i with
    | zero =>
      cases j with
      | zero => rfl
      | succ j =>
        obtain rfl : v = t := by simpa using hi
        have := htail hj hu
        have := List.count_pos_iff.2 ht
        omega
    | succ i =>
      cases j with
      | zero =>
        obtain rfl : v = u := by simpa using hj
        have := htail hi ht
        have := List.count_pos_iff.2 hu
        omega
      | succ j => rw [ih (by omega) hi hj]

/-- **A queue is in one place.** Along every interleaving: no queue is in the global queue twice; a queue that a thread has
is with no other thread and not in the global queue; and a queue with messages in it is with a thread or in the global
queue, and not freed. -/
theorem queue_in_one_place :
    (reached ops).shared.global.Nodup ∧
      (∀ (i j : ℕ) (t u : Thread), (reached ops).threads[i]? = some t → (reached ops).threads[j]? = some u → t.has d → u.has d →
        i = j ∧ d ∉ (reached ops).shared.global) ∧
      (((reached ops).shared.queue d).ring.contents ≠ [] →
        (reached ops).shared.freed d = false ∧
          (d ∈ (reached ops).shared.global ∨ ∃ t ∈ (reached ops).threads, t.has d)) := by
  have hcount : ∀ d, (reached ops).shared.global.count d + (held Thread.claims (reached ops).threads).count (.own d) ≤ 1 := by
    intro d
    have hle := (ok_reached ops d).owners_le
    have hinj : Function.Injective Claim.own := fun a b h => by cases h; rfl
    rwa [view, claims, List.count_append, List.count_map_of_injective _ _ hinj] at hle
  refine ⟨?_, ?_, ?_⟩
  · rw [List.nodup_iff_count_le_one]
    intro d
    have := hcount d
    omega
  · intro i j t u hi hj ht hu
    have hone := hcount d
    have hthreads : (held Thread.claims (reached ops).threads).count (.own d) ≤ 1 := by omega
    refine ⟨index_unique hthreads hi hj ht hu, fun hmem => ?_⟩
    have hglobal := List.count_pos_iff.2 hmem
    have hthread := List.count_pos_iff.2 (List.mem_flatMap.2 ⟨t, List.mem_of_getElem? hi, ht⟩)
    simp only [held] at hone
    omega
  · intro hne
    have hok := ok_reached ops d
    have hfreed : (reached ops).shared.freed d = false := by
      cases hf : (reached ops).shared.freed d with
      | false => rfl
      | true => exact absurd (hok.empty (.inr hf)) hne
    have hown : (claims (reached ops).shared (reached ops).threads).count (.own d) = 1 := by
      have htoken := hok.token hfreed
      rw [hok.wake hne] at htoken
      exact htoken
    have hmem : .own d ∈ claims (reached ops).shared (reached ops).threads := List.count_pos_iff.1 (by omega)
    refine ⟨hfreed, ?_⟩
    rcases List.mem_append.1 hmem with hg | ht
    · obtain ⟨q, hq, hown⟩ := List.mem_map.1 hg
      cases hown
      exact .inl hq
    · obtain ⟨t, ht, hown⟩ := List.mem_flatMap.1 ht
      exact .inr ⟨t, ht, hown⟩

/-- **Messages are handled in order, each once.** Along every interleaving: what a service has handled is the beginning of
what was pushed to it; a message a worker has taken out is the next one; if no worker has one, what is left is what was
dropped and what is in the queue; and nothing is dropped while the service is alive. -/
theorem messages_in_order :
    (reached ops).shared.handled d <+: (reached ops).shared.pushed d ∧
      (∀ msg ∈ inHands d (reached ops).threads, (reached ops).shared.pushed d =
        (reached ops).shared.handled d ++ msg :: ((reached ops).shared.queue d).ring.contents) ∧
      (inHands d (reached ops).threads = [] → (reached ops).shared.pushed d =
        (reached ops).shared.handled d ++ (reached ops).shared.dropped d ++
          ((reached ops).shared.queue d).ring.contents) ∧
      ((reached ops).shared.dropped d ≠ [] →
        (reached ops).shared.registered d = false ∧ (reached ops).shared.ref d = 0) := by
  obtain ⟨hbusy, hidle, hdropped⟩ := (inv_reached ops).2 d
  refine ⟨?_, hbusy, hidle, fun hne => ?_⟩
  · cases hands : inHands d (reached ops).threads with
    | nil => exact ⟨_, (List.append_assoc _ _ _ ▸ hidle hands).symm⟩
    | cons msg rest => exact ⟨_, (hbusy msg (by rw [hands]; simp)).symm⟩
  · have hok := ok_reached ops d
    have href : (reached ops).shared.ref d = 0 := by
      by_contra href
      exact hne (hdropped (hok.alive href).2)
    refine ⟨?_, href⟩
    have hrefs := hok.refs
    simp only [view, href] at hrefs
    cases hreg : (reached ops).shared.registered d with
    | false => rfl
    | true =>
      rw [hreg, Bool.toNat_true] at hrefs
      omega

/-- a thread that is dropping or freeing a queue has it -/
theorem own_of_discard {t : Thread} {q : Service} (h : .discard q ∈ t.claims ∨ .free q ∈ t.claims) : t.has q := by
  cases t with
  | worker weight pc => cases pc <;> simp [Thread.claims, Pc.claims] at h
  | _ => simp_all [Thread.claims, Thread.has]

/-- **A freed queue is not used.** Along every interleaving: once a queue is freed, all that was pushed into it has been
handled or dropped, it is not in the global queue, its handle is not in the handle table, and no thread has the queue, a
reference to the context, or its deletion still to do. -/
theorem freed_queue_untouched (h : (reached ops).shared.freed d = true) :
    (reached ops).shared.pushed d = (reached ops).shared.handled d ++ (reached ops).shared.dropped d ∧
      d ∉ (reached ops).shared.global ∧ (reached ops).shared.registered d = false ∧
      ∀ t ∈ (reached ops).threads, ∀ k ∈ t.claims, k.service ≠ d := by
  have hok := ok_reached ops d
  obtain ⟨howners, hrel⟩ := hok.freed h
  have hown : .own d ∉ claims (reached ops).shared (reached ops).threads := List.count_eq_zero.1 howners
  have hnothas : ∀ t ∈ (reached ops).threads, ¬ t.has d := by
    intro t ht hhas
    exact hown (List.mem_append_right _ (List.mem_flatMap.2 ⟨t, ht, hhas⟩))
  -- the queue is marked, so nobody refers to the context and nobody is deleting it
  have href : (reached ops).shared.ref d = 0 := by
    by_contra hne
    exact absurd hrel (by simp [(hok.alive hne).2])
  have hrefs := hok.refs
  have hlaunched : (view (reached ops).shared (claims (reached ops).shared (reached ops).threads) d).launched = true := by
    cases hl : (view (reached ops).shared (claims (reached ops).shared (reached ops).threads) d).launched with
    | true => rfl
    | false => exact absurd hrel (by simp [(hok.fresh hl).2.2.2.2.2.2.2])
  have hdead := hok.dead hlaunched href
  simp only [view, href] at hrefs hrel hdead
  rw [hrel, Bool.toNat_true] at hdead
  have hreg : (reached ops).shared.registered d = false := by
    cases hreg : (reached ops).shared.registered d with
    | false => rfl
    | true =>
      rw [hreg, Bool.toNat_true] at hrefs
      omega
  have hnone : ∀ k, (claims (reached ops).shared (reached ops).threads).count k = 0 →
      ∀ t ∈ (reached ops).threads, k ∉ t.claims := by
    intro k hk t ht hmem
    exact List.count_eq_zero.1 hk (List.mem_append_right _ (List.mem_flatMap.2 ⟨t, ht, hmem⟩))
  refine ⟨?_, ?_, hreg, ?_⟩
  · have hidle := ((inv_reached ops).2 d).idle ?_
    · have hempty : ((reached ops).shared.queue d).ring.contents = [] := hok.empty (.inr h)
      simpa [record, hempty] using hidle
    · rw [inHands, List.filterMap_eq_nil_iff]
      intro t ht
      cases hm : t.inHand d with
      | none => rfl
      | some msg => exact absurd (own_of_inHand hm) (hnothas t ht)
  · exact fun hmem => hown (List.mem_append_left _ (List.mem_map_of_mem hmem))
  · intro t ht k hk hd
    cases k with
    | own q => exact hnothas t ht (hd ▸ hk)
    | hold c => exact hnone (.hold d) (by omega) t ht (hd ▸ hk)
    | delete c => exact hnone (.delete d) (by omega) t ht (hd ▸ hk)
    | discard q => exact hnothas t ht (hd ▸ own_of_discard (.inl hk))
    | free q => exact hnothas t ht (hd ▸ own_of_discard (.inr hk))

end Runs

/-- A service is launched, and a worker handles the first of its messages. The second one arrives; then the service is
retired, and the worker, which has the queue, drops it and frees the queue. -/
def retiredService : List (Op Thread) :=
  [.start (.launch true), .act 0, .act 0, .act 0, .act 0, .start (.send 0 ⟨none, 1, 10, [1]⟩), .act 0, .act 0, .act 0,
    .start (.worker none .idle), .act 0, .act 0, .act 0, .act 0, .act 0, .start (.send 0 ⟨none, 2, 10, [2]⟩), .act 0, .act 0,
    .act 0, .start (.retire 0), .act 0, .act 0, .act 0, .act 0, .act 1, .act 1, .act 0, .act 0, .act 0, .act 0, .act 0]

theorem freed_queue_untouched_retiredService :
    (reached retiredService).shared.freed 0 = true ∧
      (reached retiredService).shared.handled 0 = [⟨none, 1, 10, [1]⟩] ∧
      (reached retiredService).shared.dropped 0 = [⟨none, 2, 10, [2]⟩] ∧
      (reached retiredService).shared.pushed 0 =
        (reached retiredService).shared.handled 0 ++ (reached retiredService).shared.dropped 0 := by
  have hfreed : (reached retiredService).shared.freed 0 = true := by decide +kernel
  exact ⟨hfreed, by decide +kernel, by decide +kernel, (freed_queue_untouched retiredService 0 hfreed).1⟩

end OwliesServer.Scheduler
