/-
A client that counts its sessions up from its login, seen through the decoder and the session tracker together.

A `Delivery` is a client frame together with the call it became: the fields of the call are the ones `unpackMessage`
returned for the frame. The tracker accepts a session when it is one more than the last one, and the decoder reads the
session through signed `char`s (`signedRead`), so the client stays accepted as long as the signed reads advance by one.

`well_behaved_accepted_iff`: for every login session s and every run of n further frames with sessions s+1, ..., s+n,
whatever other connections send in between, all of them are accepted if and only if every multiple of 128 among
s+1, ..., s+n equals 0xFF80 modulo 2^16. A client that starts at 0 is locked out at its 128th message.
-/
import OwliesServer.Api.Sessions
import OwliesServer.Wire.ClientFrame

namespace OwliesServer.WellBehavedClient

open OwliesServer.CChar OwliesServer.Machine OwliesServer.Sessions OwliesServer.ClientFrame

/-! ## Model -/

/-- a client frame and the call that its handler received -/
structure Delivery where
  frame : Frame
  /-- what the decoder's local array held before -/
  messageName : Vector Byte TYPE_STRING_MAX_LEN
  call : Call
  decoded : ∃ u, unpackMessage messageName frame.bytes = some u ∧ u.session = call.clientSession.toInt ∧
    u.messageType = call.messageType ∧ u.messageName = call.sprotoName

/-- the signed read of a session below 2^31, in numbers -/
def signedRead (x : ℕ) : ℤ :=
  if 2 ^ 7 ≤ x % 2 ^ 8 then ((x % 2 ^ 8 : ℕ) : ℤ) - 2 ^ 8
  else if 2 ^ 15 ≤ x % 2 ^ 16 then ((x % 2 ^ 16 : ℕ) : ℤ) - 2 ^ 16
  else if 2 ^ 23 ≤ x % 2 ^ 24 then ((x % 2 ^ 24 : ℕ) : ℤ) - 2 ^ 24
  else x

/-! ## The decoder's arithmetic -/

theorem delivery_session (d : Delivery) (x : ℕ) (hx : x < 2 ^ 31) (h : d.frame.session = BitVec.ofNat 32 x) :
    d.call.clientSession.toInt = signedRead x := by
  obtain ⟨u, hu, hs, -⟩ := d.decoded
  have hn : (BitVec.ofNat 32 x).toNat = x := by
    rw [BitVec.toNat_ofNat]; omega
  have hi : (BitVec.ofNat 32 x).toInt = x := by
    rw [BitVec.toInt_eq_toNat_cond, hn, if_pos (by omega)]
  rw [← hs, unpackMessage_session _ _ _ hu, Frame.unpackedSession, unpackSession, toInt_orBytes4_be32, h, hn, hi]
  rfl

/-- the signed read advances by one except at multiples of 128; there it does so only at 0xFF80 modulo 2^16 -/
theorem signedRead_succ_iff (x : ℕ) (hx : x + 1 < 2 ^ 31) :
    signedRead (x + 1) = signedRead x + 1 ↔ (128 ∣ x + 1 → (x + 1) % 65536 = 65408) := by
  unfold signedRead
  split_ifs <;> omega

/-- following a start value one by one is advancing by one at each step -/
theorem telescope (f : ℕ → ℤ) (n : ℕ) : (∀ i < n, f (i + 1) = f 0 + 1 + i) ↔ ∀ i < n, f (i + 1) = f i + 1 := by
  constructor
  · intro h i hi
    rw [h i hi]
    cases i with
    | zero => simp
    | succ i => rw [h i (by omega)]; push_cast; ring
  · intro h i hi
    induction i with
    | zero => simpa using h 0 hi
    | succ i ih => rw [h (i + 1) hi, ih (by omega)]; push_cast; ring

theorem signedRead_run_iff (s n : ℕ) (hn : s + n < 2 ^ 31) :
    (∀ i < n, signedRead (s + 1 + i) = signedRead s + 1 + i) ↔
      ∀ x, s < x → x ≤ s + n → 128 ∣ x → x % 65536 = 65408 := by
  have hshift : ∀ i, signedRead (s + 1 + i) = signedRead (s + (i + 1)) := by
    intro i
    rw [Nat.add_right_comm, Nat.add_assoc]
  have htel := telescope (fun i => signedRead (s + i)) n
  simp only [Nat.add_zero] at htel
  simp only [hshift, htel]
  constructor
  · intro h x h1 h2
    have hstep := (signedRead_succ_iff (x - 1) (by omega)).1
    rw [show x - 1 + 1 = x by omega] at hstep
    apply hstep
    have := h (x - 1 - s) (by omega)
    rwa [show s + (x - 1 - s + 1) = x by omega, show s + (x - 1 - s) = x - 1 by omega] at this
  · intro h i hi
    exact (signedRead_succ_iff (s + i) (by omega)).2 (h (s + i + 1) (by omega) (by omega))

/-! ## The tracker -/

/-- calls of `fd` that are no logins are all accepted exactly when their sessions follow the entry one by one -/
theorem all_accepted_iff (fd : Fd) (m : SessionMap) (cs : List Call) (v : BitVec 32) (hm : m fd = some v)
    (hfd : ∀ c ∈ cs, c.clientFd = fd) (hl : ∀ c ∈ cs, ¬ c.IsLogin) :
    (∀ b ∈ acceptance fd m cs, b = true) ↔ ∀ i, ∀ h : i < cs.length, (cs[i]).clientSession.toInt = v.toInt + 1 + i := by
  induction cs generalizing m v with
  | nil => simp [acceptance, observed]
  | cons c cs ih =>
    have hc : c.clientFd = fd := hfd c List.mem_cons_self
    have hrec := fun m' (v' : BitVec 32) (h' : m' fd = some v') =>
      ih m' v' h' (fun c' hc' => hfd c' (List.mem_cons_of_mem _ hc')) (fun c' hc' => hl c' (List.mem_cons_of_mem _ hc'))
    have hacc := accepts_iff m c v (hl c List.mem_cons_self) (hc ▸ hm)
    have hcons : acceptance fd m (c :: cs) = accepts m c :: acceptance fd (step m c) cs := by
      simp [acceptance, observed, ofFd, hc]
    rw [hcons, List.forall_mem_cons, hacc]
    constructor
    · rintro ⟨hs, htail⟩ i hi
      have hm' : step m c fd = some c.clientSession := by
        rw [step_accepted m c (hacc.2 hs), hc, Function.update_self]
      cases i with
      | zero => simpa using hs
      | succ i =>
        have := (hrec _ _ hm').1 htail i (by simpa using hi)
        simp only [List.getElem_cons_succ, this, hs]; push_cast; ring
    · intro h
      have h0 := h 0 (by simp)
      have hs : c.clientSession.toInt = v.toInt + 1 := by
        rw [List.getElem_cons_zero] at h0; simpa using h0
      have hm' : step m c fd = some c.clientSession := by
        rw [step_accepted m c (hacc.2 hs), hc, Function.update_self]
      refine ⟨hs, (hrec _ _ hm').2 fun i hi => ?_⟩
      have := h (i + 1) (by simpa using hi)
      simp only [List.getElem_cons_succ] at this
      rw [this, hs]; push_cast; ring

/-! ## Decoder and tracker together -/

/-- **When a well-behaved client is never locked out.** From any session map, `fd` logs in with session s and then sends
frames with sessions s+1, ..., s+n, through either handler and interleaved with any other connections. All of them are
accepted if and only if every multiple of 128 among s+1, ..., s+n equals 0xFF80 modulo 2^16. -/
theorem well_behaved_accepted_iff (m : SessionMap) (ds : List Delivery) (fd : Fd) (s n : ℕ) (hn : s + n < 2 ^ 31)
    (login : Delivery) (rest : List Delivery) (hfd : ds.filter (fun d => d.call.clientFd = fd) = login :: rest)
    (hl : login.call.IsLogin) (hls : login.frame.session = BitVec.ofNat 32 s)
    (hnames : ∀ d ∈ rest, d.call.sprotoName ≠ SprotoNames.LoginRequest)
    (hseq : rest.map (fun d => d.frame.session) = (List.range n).map (fun i => BitVec.ofNat 32 (s + 1 + i))) :
    (∀ b ∈ acceptance fd m (ds.map Delivery.call), b = true) ↔
      ∀ x, s < x → x ≤ s + n → 128 ∣ x → x % 65536 = 65408 := by
  have hmine : ∀ d ∈ login :: rest, d.call.clientFd = fd := by
    intro d hd
    rw [← hfd] at hd
    simpa using (List.mem_filter.1 hd).2
  have hfilter : (ds.map Delivery.call).filter (ofFd fd) = login.call :: rest.map Delivery.call := by
    rw [List.filter_map, ← List.map_cons, ← hfd]
    rfl
  have hlfd : login.call.clientFd = fd := hmine login List.mem_cons_self
  have hentry : step m login.call fd = some login.call.clientSession := by
    rw [step_of_admission (admission_login m _ hl), hlfd, Function.update_self]
  have hhead : acceptance fd m (login.call :: rest.map Delivery.call) =
      true :: acceptance fd (step m login.call) (rest.map Delivery.call) := by
    simp [acceptance, observed, ofFd, hlfd, accepts_of_admission (admission_login m _ hl)]
  have hlen : rest.length = n := by
    simpa using congrArg List.length hseq
  have hsession : ∀ i, ∀ h : i < rest.length, rest[i].call.clientSession.toInt = signedRead (s + 1 + i) := by
    intro i h
    refine delivery_session _ _ (by omega) ?_
    have hi : (rest.map (fun d => d.frame.session))[i]? = some (BitVec.ofNat 32 (s + 1 + i)) := by
      rw [hseq, List.getElem?_map, List.getElem?_range (by omega)]; rfl
    rw [List.getElem?_map, List.getElem?_eq_getElem h] at hi
    simpa using hi
  rw [(fd_isolated fd m _).2, hfilter, hhead, List.forall_mem_cons, eq_self_iff_true, true_and,
    all_accepted_iff fd _ _ _ hentry, ← signedRead_run_iff s n hn]
  · constructor
    · intro h i hi
      have := h i (by simpa [hlen] using hi)
      rw [List.getElem_map, hsession i (by omega), delivery_session login s (by omega) hls] at this
      exact this
    · intro h i hi
      have hi' : i < rest.length := by simpa using hi
      rw [List.getElem_map, hsession i hi', delivery_session login s (by omega) hls]
      exact h i (by omega)
  · intro c hc
    obtain ⟨d, hd, rfl⟩ := List.mem_map.1 hc
    exact hmine d (List.mem_cons_of_mem _ hd)
  · intro c hc hlog
    obtain ⟨d, hd, rfl⟩ := List.mem_map.1 hc
    exact hnames d hd hlog.2

/-! ## Witnesses -/

/-- connection 5 logs in with session 1 -/
def login1 : Delivery :=
  ⟨⟨1, 1, ascii "LoginRequest", []⟩, cleanStack, ⟨.receivedApiCall, 5, 1, 1, SprotoNames.LoginRequest, []⟩,
    ⟨1, 1, ascii "LoginRequest", 12, 19⟩, by decide, by decide, by decide, by decide⟩

/-- connection 6 sends something without having logged in -/
def stranger : Delivery :=
  ⟨⟨9, 2, ascii "Person", []⟩, cleanStack, ⟨.receivedChangeEvent, 6, 9, 2, ascii "Person", []⟩,
    ⟨9, 2, ascii "Person", 6, 13⟩, by decide, by decide, by decide, by decide⟩

/-- connection 5 goes on with session 2 -/
def next2 : Delivery :=
  ⟨⟨2, 2, ascii "Person", []⟩, cleanStack, ⟨.receivedChangeEvent, 5, 2, 2, ascii "Person", []⟩,
    ⟨2, 2, ascii "Person", 6, 13⟩, by decide, by decide, by decide, by decide⟩

theorem well_behaved_sample :
    login1.call.IsLogin ∧ next2.frame.session = 2 ∧
      ∀ b ∈ acceptance 5 noSessions ([login1, stranger, next2].map Delivery.call), b = true := by
  refine ⟨by decide, by decide, ?_⟩
  exact (well_behaved_accepted_iff noSessions [login1, stranger, next2] 5 1 1 (by decide) login1 [next2] (by rfl)
    (by decide) (by decide) (by decide) (by decide)).2 (fun x h1 h2 h3 => by omega)

/-- connection 5 logs in with session 127 -/
def login127 : Delivery :=
  ⟨⟨127, 1, ascii "LoginRequest", []⟩, cleanStack, ⟨.receivedApiCall, 5, 127, 1, SprotoNames.LoginRequest, []⟩,
    ⟨127, 1, ascii "LoginRequest", 12, 19⟩, by decide, by decide, by decide, by decide⟩

/-- connection 5 goes on with session 128, which the decoder turns into −128 -/
def next128 : Delivery :=
  ⟨⟨128, 2, ascii "Person", []⟩, cleanStack, ⟨.receivedChangeEvent, 5, -128, 2, ascii "Person", []⟩,
    ⟨-128, 2, ascii "Person", 6, 13⟩, by decide, by decide, by decide, by decide⟩

/-- **Locked out at session 128**: after a login with session 127 the very next frame is rejected. -/
theorem locked_out_at_128 :
    login127.frame.session = 127 ∧ login127.call.IsLogin ∧ next128.frame.session = 128 ∧
      next128.call.sprotoName ≠ SprotoNames.LoginRequest ∧
      acceptance 5 noSessions ([login127, next128].map Delivery.call) = [true, false] := by
  decide

end OwliesServer.WellBehavedClient
