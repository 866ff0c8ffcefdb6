/-
The registry of services (3rd/skynet/skynet-src/skynet_handle.c): the contexts in a table of slots, under the low bits of
their handles, and the names of services in an array that is sorted by `strcmp`. Every function takes the registry's lock,
so the threads interleave call by call.

- A new context is put into a slot by the call that chooses its handle, and gets the handle stored into it (`ctx->handle`)
  by its thread when the call has returned. In between it is in the table with the handle 0.
- If all slots are taken, the table is doubled and every context is put into the slot of the handle that is stored in it.
- `failed`: an assertion has failed, or the table is read through a NULL. `created` are the contexts that exist; a freed
  context is never one of them again.

`Book` is what the registry is for: the services that can be reached under a handle, and the names.
- `registry_refines`: the registry is the book, in every interleaving in which the table is not doubled while a context is
  without its handle;
- `unstored_context_lost`: if it is doubled then, the context cannot be reached under its handle, or an assertion fails.
-/
import OwliesServer.Core.BinarySearch
import OwliesServer.Core.CChar
import OwliesServer.Core.Machine

namespace OwliesServer.Handle

open OwliesServer.Machine OwliesServer.BinarySearch OwliesServer.CChar

/-! ## The registry -/

def DEFAULT_SLOT_SIZE : ℕ := 4
def MAX_SLOT_SIZE : ℕ := 0x40000000
def HANDLE_MASK : ℕ := 0xffffff
def HANDLE_REMOTE_SHIFT : ℕ := 24

abbrev Ctx := ℕ

/-- of two strings, without their NULs -/
def strcmp (a b : Bytes) : Ordering := List.compareLex compare a b

instance : Std.TransCmp strcmp := inferInstanceAs (Std.TransCmp (List.compareLex compare))

instance : Std.LawfulEqCmp strcmp := inferInstanceAs (Std.LawfulEqCmp (List.compareLex compare))

structure HandleName where
  name : Bytes
  handle : ℕ
deriving DecidableEq, Repr

structure St where
  harbor : ℕ
  handleIndex : ℕ
  slotSize : ℕ
  slot : ℕ → Option Ctx
  nameCap : ℕ
  name : List HandleName
  /-- the handle that is stored in a context -/
  handle : Ctx → ℕ
  /-- the handle that the thread of a context has got, and has not stored yet -/
  returned : Ctx → Option ℕ
  created : List Ctx
  failed : Bool

/-- `skynet_handle_init` -/
def init (harbor : ℕ) : St where
  harbor := (harbor &&& 0xff) <<< HANDLE_REMOTE_SHIFT
  handleIndex := 1
  slotSize := DEFAULT_SLOT_SIZE
  slot _ := none
  nameCap := 2
  name := []
  handle _ := 0
  returned _ := none
  created := []
  failed := false

def hash (s : St) (handle : ℕ) : ℕ := handle &&& (s.slotSize - 1)

/-- the handle that is tried in round `i` -/
def candidate (s : St) (i : ℕ) : ℕ := (i + s.handleIndex) % 2 ^ 32 &&& HANDLE_MASK

/-- the inner loop of `skynet_handle_register` -/
def findSlot (s : St) : Option ℕ :=
  ((List.range s.slotSize).map (candidate s)).find? fun handle => (s.slot (hash s handle)).isNone

def take (s : St) (ctx : Ctx) (handle : ℕ) : St :=
  { s with slot := Function.update s.slot (hash s handle) (some ctx), handleIndex := handle + 1,
           returned := Function.update s.returned ctx (some (handle ||| s.harbor)) }

/-- the new slots after the first rounds of the loop that doubles them -/
def rehash (s : St) : ℕ → Option (ℕ → Option Ctx)
  | 0 => some fun _ => none
  | i + 1 =>
    (rehash s i).bind fun newSlot => (s.slot i).bind fun ctx =>
      if (newSlot (s.handle ctx &&& (s.slotSize * 2 - 1))).isNone then
        some (Function.update newSlot (s.handle ctx &&& (s.slotSize * 2 - 1)) (some ctx))
      else none

def doubled (s : St) (newSlot : ℕ → Option Ctx) : St := { s with slot := newSlot, slotSize := s.slotSize * 2 }

def expand (s : St) : Option St :=
  if s.slotSize * 2 - 1 ≤ HANDLE_MASK then (rehash s s.slotSize).map (doubled s) else none

/-- the outer loop; with each round the size doubles, up to 2^24 -/
def registerLoop (ctx : Ctx) : ℕ → St → Option St
  | 0, _ => none
  | rounds + 1, s =>
    match findSlot s with
    | some handle => some (take s ctx handle)
    | none => (expand s).bind (registerLoop ctx rounds)

/-- `skynet_context_new` up to `ctx->handle = 0` -/
def create (s : St) (ctx : Ctx) : St :=
  { s with handle := Function.update s.handle ctx 0, created := ctx :: s.created }

/-- and up to the return of `skynet_handle_register` -/
def register (s : St) (ctx : Ctx) : Option St :=
  if ctx ∈ s.created then some s else registerLoop ctx 24 (create s ctx)

/-- `ctx->handle = ` what was returned -/
def store (s : St) (ctx : Ctx) : St :=
  match s.returned ctx with
  | some handle => { s with handle := Function.update s.handle ctx handle, returned := Function.update s.returned ctx none }
  | none => s

def grab (s : St) (handle : ℕ) : Option Ctx :=
  (s.slot (hash s handle)).filter fun ctx => s.handle ctx = handle

def retire (s : St) (handle : ℕ) : St :=
  match grab s handle with
  | some _ => { s with slot := Function.update s.slot (hash s handle) none, name := s.name.filter fun n => n.handle ≠ handle }
  | none => s

def findname (s : St) (name : Bytes) : ℕ :=
  match find strcmp HandleName.name s.name name with
  | .inl n => n.handle
  | .inr _ => 0

def insertNameBefore (s : St) (n : HandleName) (before : ℕ) : Option St :=
  if s.nameCap ≤ s.name.length then
    if s.nameCap * 2 ≤ MAX_SLOT_SIZE then
      some { s with nameCap := s.nameCap * 2, name := insertBefore s.name before n }
    else none
  else some { s with name := insertBefore s.name before n }

def namehandle (s : St) (handle : ℕ) (name : Bytes) : Option St :=
  match find strcmp HandleName.name s.name name with
  | .inl _ => some s
  | .inr before => insertNameBefore s ⟨name, handle⟩ before

inductive Op where
  | register (ctx : Ctx)
  | store (ctx : Ctx)
  | retire (handle : ℕ)
  | namehandle (handle : ℕ) (name : Bytes)
deriving DecidableEq, Repr

def exec (s : St) : Op → Option St
  | .register ctx => register s ctx
  | .store ctx => some (store s ctx)
  | .retire handle => some (retire s handle)
  | .namehandle handle name => namehandle s handle name

def step (s : St) (o : Op) : St := if s.failed then s else (exec s o).getD { s with failed := true }

/-! ## The book -/

structure Book where
  service : ℕ → Option Ctx
  names : Bytes → Option ℕ

inductive Event where
  | publish (handle : ℕ) (ctx : Ctx)
  | retire (handle : ℕ)
  | name (handle : ℕ) (name : Bytes)

def Book.empty : Book := ⟨fun _ => none, fun _ => none⟩

/-- a service takes its names with it, and a name is given once -/
def Book.apply (b : Book) : Event → Book
  | .publish handle ctx => { b with service := Function.update b.service handle (some ctx) }
  | .retire handle =>
    if (b.service handle).isSome then
      ⟨Function.update b.service handle none, fun n => if b.names n = some handle then none else b.names n⟩
    else b
  | .name handle name => if b.names name = none then { b with names := Function.update b.names name (some handle) } else b

def event (s : St) : Op → Option Event
  | .register _ => none
  | .store ctx => (s.returned ctx).map fun handle => .publish handle ctx
  | .retire handle => some (.retire handle)
  | .namehandle handle name => some (.name handle name)

/-- the registry beside the book -/
def bothStep (p : St × Book) (o : Op) : St × Book := (step p.1 o, (event p.1 o).elim p.2 p.2.apply)

/-- no context is without its handle when the table is doubled, both tables stay within their limits, and nobody retires
the handle 0 -/
def Orderly (p : St × Book) : Op → Prop
  | .register _ => findSlot p.1 = none → p.1.slotSize * 2 - 1 ≤ HANDLE_MASK ∧ ∀ c ∈ p.1.created, p.1.returned c = none
  | .store _ => True
  | .retire handle => handle ≠ 0
  | .namehandle _ _ => p.1.nameCap ≤ p.1.name.length → p.1.nameCap * 2 ≤ MAX_SLOT_SIZE

/-! ## Slots -/

/-- the handle that a context was given -/
def given (s : St) (c : Ctx) : ℕ := (s.returned c).getD (s.handle c)

/-- the size is a power of 2, and the harbor leaves the low 24 bits free -/
structure Sized (s : St) : Prop where
  size : ∃ k ≤ 24, s.slotSize = 2 ^ k
  harbor : 2 ^ 24 ∣ s.harbor

theorem Sized.hash_eq {s : St} (h : Sized s) (handle : ℕ) : hash s handle = handle % s.slotSize := by
  obtain ⟨k, -, hk⟩ := h.size
  rw [hash, hk, Nat.and_two_pow_sub_one_eq_mod]

theorem Sized.pos {s : St} (h : Sized s) : 0 < s.slotSize := by
  obtain ⟨k, -, hk⟩ := h.size
  exact hk ▸ Nat.two_pow_pos k

theorem Sized.dvd {s : St} (h : Sized s) : s.slotSize ∣ 2 ^ 24 := by
  obtain ⟨k, hle, hk⟩ := h.size
  exact hk ▸ Nat.pow_dvd_pow 2 hle

theorem candidate_eq (s : St) (i : ℕ) : candidate s i = (i + s.handleIndex) % 2 ^ 24 := by
  rw [candidate, show HANDLE_MASK = 2 ^ 24 - 1 from rfl, Nat.and_two_pow_sub_one_eq_mod,
    Nat.mod_mod_of_dvd _ (Nat.pow_dvd_pow 2 (by decide))]

/-- the harbor's bits make no difference to the slot -/
theorem Sized.or_harbor_mod {s : St} (h : Sized s) (handle : ℕ) :
    (handle ||| s.harbor) % s.slotSize = handle % s.slotSize := by
  obtain ⟨k, hle, hk⟩ := h.size
  have hzero : s.harbor % 2 ^ k = 0 := Nat.mod_eq_zero_of_dvd ((Nat.pow_dvd_pow 2 hle).trans h.harbor)
  rw [hk, Nat.or_mod_two_pow, hzero, Nat.or_zero]

/-- the rounds of the inner loop try every slot -/
theorem Sized.exists_candidate {s : St} (h : Sized s) {j : ℕ} (hj : j < s.slotSize) :
    ∃ i < s.slotSize, hash s (candidate s i) = j := by
  have hle : s.handleIndex % s.slotSize ≤ s.slotSize := (Nat.mod_lt _ h.pos).le
  refine ⟨(j + (s.slotSize - s.handleIndex % s.slotSize)) % s.slotSize, Nat.mod_lt _ h.pos, ?_⟩
  calc hash s (candidate s ((j + (s.slotSize - s.handleIndex % s.slotSize)) % s.slotSize))
      = ((j + (s.slotSize - s.handleIndex % s.slotSize)) % s.slotSize + s.handleIndex) % s.slotSize := by
        rw [h.hash_eq, candidate_eq, Nat.mod_mod_of_dvd _ h.dvd]
    _ = (j + (s.slotSize - s.handleIndex % s.slotSize) + s.handleIndex % s.slotSize) % s.slotSize := by
        rw [Nat.mod_add_mod, Nat.add_mod_mod]
    _ = (j + s.slotSize) % s.slotSize := by rw [Nat.add_assoc, Nat.sub_add_cancel hle]
    _ = j := by rw [Nat.add_mod_right, Nat.mod_eq_of_lt hj]

theorem Sized.filled {s : St} (h : Sized s) (hfull : findSlot s = none) {j : ℕ} (hj : j < s.slotSize) :
    ∃ c, s.slot j = some c := by
  obtain ⟨i, hi, rfl⟩ := h.exists_candidate hj
  have hnot := List.find?_eq_none.1 hfull _ (List.mem_map_of_mem (List.mem_range.2 hi))
  exact Option.ne_none_iff_exists'.1 (by simpa using hnot)

theorem findSlot_some {s : St} {handle : ℕ} (h : findSlot s = some handle) :
    handle < 2 ^ 24 ∧ s.slot (hash s handle) = none := by
  obtain ⟨i, -, rfl⟩ := List.mem_map.1 (List.mem_of_find?_eq_some h)
  refine ⟨?_, by simpa using List.find?_some h⟩
  rw [candidate_eq]
  exact Nat.mod_lt _ (by decide)

theorem grab_eq_some {s : St} {handle : ℕ} {c : Ctx} :
    grab s handle = some c ↔ s.slot (hash s handle) = some c ∧ s.handle c = handle := by
  simp [grab, Option.filter_eq_some_iff]

theorem grab_congr {s s' : St} {handle : ℕ} (h : ∀ c, (s.slot (hash s handle) = some c ∧ s.handle c = handle) ↔
    (s'.slot (hash s' handle) = some c ∧ s'.handle c = handle)) : grab s handle = grab s' handle := by
  refine Option.ext fun c => ?_
  rw [grab_eq_some, grab_eq_some]
  exact h c

/-! ## The invariant -/

structure Inv (s : St) (b : Book) : Prop where
  alive : s.failed = false
  sized : Sized s
  placed : ∀ j c, s.slot j = some c → given s c % s.slotSize = j
  created : ∀ j c, s.slot j = some c → c ∈ s.created
  unstored : ∀ c a, s.returned c = some a → s.handle c = 0 ∧ s.slot (a % s.slotSize) = some c
  service : ∀ handle ≠ 0, grab s handle = b.service handle
  sorted : Sorted strcmp HandleName.name s.name
  names : ∀ n handle, ⟨n, handle⟩ ∈ s.name ↔ b.names n = some handle

theorem inv_init (harbor : ℕ) : Inv (init harbor) Book.empty where
  alive := rfl
  sized := ⟨⟨2, by decide, rfl⟩, by rw [init, Nat.shiftLeft_eq]; exact Nat.dvd_mul_left _ _⟩
  placed _ _ h := absurd h.symm (Option.some_ne_none _)
  created _ _ h := absurd h.symm (Option.some_ne_none _)
  unstored _ _ h := absurd h.symm (Option.some_ne_none _)
  service _ _ := rfl
  sorted := .nil
  names n handle := by simp [init, Book.empty]

section Register

variable {s : St} {b : Book} {ctx : Ctx}

theorem inv_create (h : Inv s b) (hnew : ctx ∉ s.created) : Inv (create s ctx) b := by
  have hne {j : ℕ} {c : Ctx} (hc : s.slot j = some c) : c ≠ ctx := by
    rintro rfl
    exact hnew (h.created j c hc)
  have hhandle {j : ℕ} {c : Ctx} (hc : s.slot j = some c) : (create s ctx).handle c = s.handle c :=
    Function.update_of_ne (hne hc) _ _
  refine ⟨h.alive, ⟨h.sized.size, h.sized.harbor⟩, ?_, ?_, ?_, ?_, h.sorted, h.names⟩
  · intro j c hc
    have hgiven : given (create s ctx) c = given s c := congrArg _ (hhandle hc)
    rw [hgiven]
    exact h.placed j c hc
  · exact fun j c hc => List.mem_cons_of_mem _ (h.created j c hc)
  · intro c a hc
    obtain ⟨hzero, hslot⟩ := h.unstored c a hc
    exact ⟨(hhandle hslot).trans hzero, hslot⟩
  · intro handle hnonzero
    rw [← h.service handle hnonzero]
    exact grab_congr fun c => and_congr_right fun hc => by rw [hhandle hc]

/-- a context that no slot has and that has no handle gets a free slot -/
theorem inv_take (h : Inv s b) (hctx : ctx ∈ s.created) (hout : ∀ j, s.slot j ≠ some ctx) (hzero : s.handle ctx = 0)
    {handle : ℕ} (hfree : s.slot (hash s handle) = none) : Inv (take s ctx handle) b := by
  have hslot {j : ℕ} (hj : j ≠ hash s handle) : (take s ctx handle).slot j = s.slot j := Function.update_of_ne hj _ _
  have hreturned {c : Ctx} (hc : c ≠ ctx) : (take s ctx handle).returned c = s.returned c := Function.update_of_ne hc _ _
  have hself : (take s ctx handle).slot (hash s handle) = some ctx := Function.update_self _ _ _
  have hgiven : (take s ctx handle).returned ctx = some (handle ||| s.harbor) := Function.update_self _ _ _
  have hmod : (handle ||| s.harbor) % s.slotSize = hash s handle := by rw [h.sized.or_harbor_mod, h.sized.hash_eq]
  refine ⟨h.alive, ⟨h.sized.size, h.sized.harbor⟩, ?_, ?_, ?_, ?_, h.sorted, h.names⟩
  · intro j c hc
    by_cases hj : j = hash s handle
    · rw [hj, hself] at hc
      obtain rfl := Option.some.inj hc
      rw [given, hgiven, hj]
      exact hmod
    · rw [hslot hj] at hc
      have hne : c ≠ ctx := fun heq => hout j (heq ▸ hc)
      rw [given, hreturned hne]
      exact h.placed j c hc
  · intro j c hc
    by_cases hj : j = hash s handle
    · rw [hj, hself] at hc
      exact Option.some.inj hc ▸ hctx
    · exact h.created j c (hslot hj ▸ hc)
  · intro c a hc
    by_cases hne : c = ctx
    · rw [hne, hgiven] at hc
      obtain rfl := Option.some.inj hc
      rw [hne]
      exact ⟨hzero, (congrArg _ hmod).trans hself⟩
    · obtain ⟨hhandle, hold⟩ := h.unstored c a (hreturned hne ▸ hc)
      have hj : a % s.slotSize ≠ hash s handle := by
        intro heq
        rw [heq, hfree] at hold
        exact Option.some_ne_none c hold.symm
      exact ⟨hhandle, (hslot hj).trans hold⟩
  · intro k hnonzero
    rw [← h.service k hnonzero]
    refine grab_congr fun c => ?_
    by_cases hk : hash s k = hash s handle
    · -- the new context has the handle 0 still
      refine iff_of_false ?_ ?_
      · rintro ⟨hc, hhandle⟩
        have hctx' : some ctx = some c := hself.symm.trans ((congrArg _ hk.symm).trans hc)
        obtain rfl := Option.some.inj hctx'
        exact hnonzero (hhandle.symm.trans hzero)
      · rintro ⟨hc, -⟩
        rw [hk, hfree] at hc
        exact Option.some_ne_none c hc.symm
    · exact and_congr_left fun _ => by rw [← hslot hk]; rfl

/-- what the loop that doubles the table has put where, by induction on its rounds -/
theorem rehash_spec {m : ℕ} (hm : m ≤ s.slotSize) (hsize : ∃ k, s.slotSize = 2 ^ k)
    (hfull : ∀ j < s.slotSize, ∃ c, s.slot j = some c)
    (hplaced : ∀ j c, s.slot j = some c → s.handle c % s.slotSize = j) :
    ∃ newSlot, rehash s m = some newSlot ∧
      ∀ j c, newSlot j = some c ↔ ∃ i < m, s.slot i = some c ∧ s.handle c % (s.slotSize * 2) = j := by
  have hmask (x : ℕ) : x &&& (s.slotSize * 2 - 1) = x % (s.slotSize * 2) := by
    obtain ⟨k, hk⟩ := hsize
    rw [hk, ← Nat.pow_succ, Nat.and_two_pow_sub_one_eq_mod]
  -- contexts of different slots go to different ones
  have hsame {i i' : ℕ} {c c' : Ctx} (hc : s.slot i = some c) (hc' : s.slot i' = some c')
      (heq : s.handle c % (s.slotSize * 2) = s.handle c' % (s.slotSize * 2)) : i = i' := by
    rw [← hplaced i c hc, ← hplaced i' c' hc', ← Nat.mod_mul_right_mod (s.handle c) s.slotSize 2, heq,
      Nat.mod_mul_right_mod]
  induction m with
  | zero => exact ⟨fun _ => none, rfl, by simp⟩
  | succ m ih =>
    obtain ⟨newSlot, hnew, hspec⟩ := ih (Nat.le_of_succ_le hm)
    obtain ⟨c, hc⟩ := hfull m hm
    have hnone : newSlot (s.handle c % (s.slotSize * 2)) = none := by
      refine Option.eq_none_iff_forall_ne_some.2 fun c' hc' => ?_
      obtain ⟨i, hi, hslot, heq⟩ := (hspec _ c').1 hc'
      exact absurd (hsame hslot hc heq) hi.ne
    refine ⟨Function.update newSlot (s.handle c % (s.slotSize * 2)) (some c), ?_, fun j d => ?_⟩
    · rw [rehash, hnew, Option.bind_some, hc, Option.bind_some, hmask, hnone, if_pos Option.isNone_none]
    · by_cases hj : j = s.handle c % (s.slotSize * 2)
      · rw [hj, Function.update_self]
        apply Iff.intro
        · intro hd
          obtain rfl := Option.some.inj hd
          exact ⟨m, Nat.lt_succ_self m, hc, rfl⟩
        · rintro ⟨i, -, hslot, heq⟩
          obtain rfl := hsame hslot hc heq
          exact hc.symm.trans hslot
      · rw [Function.update_of_ne hj, hspec]
        apply Iff.intro
        · rintro ⟨i, hi, hslot, heq⟩
          exact ⟨i, hi.trans (Nat.lt_succ_self m), hslot, heq⟩
        · rintro ⟨i, hi, hslot, heq⟩
          refine ⟨i, Nat.lt_of_le_of_ne (Nat.le_of_lt_succ hi) ?_, hslot, heq⟩
          rintro rfl
          obtain rfl := Option.some.inj (hc.symm.trans hslot)
          exact hj heq.symm

/-- a full table of contexts that have their handles is doubled -/
theorem inv_expand (h : Inv s b) (hfull : findSlot s = none) (hlimit : s.slotSize * 2 - 1 ≤ HANDLE_MASK)
    (hstored : ∀ c, s.returned c = none) :
    ∃ newSlot, expand s = some (doubled s newSlot) ∧ Inv (doubled s newSlot) b ∧
      (∃ j < s.slotSize * 2, newSlot j = none) ∧ ∀ j c, newSlot j = some c → ∃ i, s.slot i = some c := by
  obtain ⟨k, hk24, hk⟩ := h.sized.size
  have hpos := h.sized.pos
  have hgiven (c : Ctx) : given s c = s.handle c := by rw [given, hstored, Option.getD_none]
  have hplaced : ∀ j c, s.slot j = some c → s.handle c % s.slotSize = j := fun j c hc => hgiven c ▸ h.placed j c hc
  obtain ⟨newSlot, hnew, hspec⟩ := rehash_spec le_rfl ⟨k, hk⟩ (fun j hj => h.sized.filled hfull hj) hplaced
  have hsized : Sized (doubled s newSlot) := by
    have hpow : s.slotSize * 2 = 2 ^ (k + 1) := by rw [hk, ← Nat.pow_succ]
    refine ⟨⟨k + 1, (Nat.pow_le_pow_iff_right (show 1 < 2 by decide)).1 ?_, hpow⟩, h.sized.harbor⟩
    rw [← hpow]
    exact Nat.le_of_pred_lt (Nat.lt_succ_of_le hlimit)
  refine ⟨newSlot, by rw [expand, if_pos hlimit, hnew, Option.map_some], ?_, ?_, ?_⟩
  · refine ⟨h.alive, hsized, ?_, ?_, ?_, ?_, h.sorted, h.names⟩
    · intro j c hc
      obtain ⟨i, -, -, heq⟩ := (hspec j c).1 hc
      exact (congrArg (· % _) (hgiven c)).trans heq
    · intro j c hc
      obtain ⟨i, -, hslot, -⟩ := (hspec j c).1 hc
      exact h.created i c hslot
    · intro c a hc
      exact absurd ((hstored c).symm.trans hc).symm (Option.some_ne_none a)
    · intro handle hnonzero
      rw [← h.service handle hnonzero]
      refine grab_congr fun c => ?_
      rw [hsized.hash_eq, h.sized.hash_eq]
      refine and_congr_left fun hhandle => (hspec _ c).trans (Iff.intro ?_ fun hslot => ?_)
      · rintro ⟨i, -, hslot, -⟩
        have hi : s.handle c % s.slotSize = i := hplaced i c hslot
        rw [← hhandle]
        exact (congrArg s.slot hi).trans hslot
      · exact ⟨_, Nat.mod_lt _ hpos, hslot, congrArg (· % (s.slotSize * 2)) hhandle⟩
  · -- of the two slots for a context of slot 0, one stays free
    obtain ⟨c, hc⟩ := h.sized.filled hfull hpos
    refine ⟨(s.handle c + s.slotSize) % (s.slotSize * 2), Nat.mod_lt _ (by omega), ?_⟩
    refine Option.eq_none_iff_forall_ne_some.2 fun d hd => ?_
    obtain ⟨i, -, hslot, heq⟩ := (hspec _ d).1 hd
    have hi : i = 0 := by
      calc i = s.handle d % (s.slotSize * 2) % s.slotSize := by rw [Nat.mod_mul_right_mod, hplaced i d hslot]
        _ = (s.handle c + s.slotSize) % s.slotSize := by rw [heq, Nat.mod_mul_right_mod]
        _ = 0 := by rw [Nat.add_mod_right, hplaced 0 c hc]
    rw [hi, hc] at hslot
    obtain rfl := Option.some.inj hslot
    have hmodEq : 0 ≡ s.slotSize [MOD s.slotSize * 2] := Nat.ModEq.add_left_cancel' (s.handle c) heq
    rw [Nat.ModEq, Nat.zero_mod, Nat.mod_eq_of_lt (by omega)] at hmodEq
    exact hpos.ne hmodEq
  · intro j c hc
    obtain ⟨i, -, hslot, -⟩ := (hspec j c).1 hc
    exact ⟨i, hslot⟩

theorem inv_register (h : Inv s b) (ho : Orderly (s, b) (.register ctx)) : ∃ s', register s ctx = some s' ∧ Inv s' b := by
  unfold register
  by_cases hold : ctx ∈ s.created
  · exact ⟨s, if_pos hold, h⟩
  · rw [if_neg hold]
    have hcreate := inv_create h hold
    have hctx : ctx ∈ (create s ctx).created := List.mem_cons_self
    have hout (j : ℕ) : (create s ctx).slot j ≠ some ctx := fun hj => hold (h.created j ctx hj)
    have hzero : (create s ctx).handle ctx = 0 := Function.update_self _ _ _
    cases hfind : findSlot (create s ctx) with
    | some handle =>
      exact ⟨_, by rw [registerLoop, hfind], inv_take hcreate hctx hout hzero (findSlot_some hfind).2⟩
    | none =>
      obtain ⟨hlimit, hcreated⟩ := ho hfind
      have hstored (c : Ctx) : (create s ctx).returned c = none := by
        refine Option.eq_none_iff_forall_ne_some.2 fun a ha => ?_
        have hmem := h.created _ c (h.unstored c a ha).2
        exact Option.some_ne_none a (ha.symm.trans (hcreated c hmem))
      obtain ⟨newSlot, hexpand, hinv, ⟨j, hj, hfree⟩, hfrom⟩ := inv_expand hcreate hfind hlimit hstored
      have hout' (j : ℕ) : newSlot j ≠ some ctx := by
        intro hnew
        obtain ⟨i, hi⟩ := hfrom j ctx hnew
        exact hout i hi
      cases hagain : findSlot (doubled (create s ctx) newSlot) with
      | none =>
        obtain ⟨c, hc⟩ := hinv.sized.filled hagain hj
        exact absurd (hc.symm.trans hfree) (Option.some_ne_none c)
      | some handle =>
        refine ⟨_, ?_, inv_take hinv hctx hout' hzero (findSlot_some hagain).2⟩
        rw [registerLoop, hfind]
        change (expand (create s ctx)).bind (registerLoop ctx 23) = _
        rw [hexpand, Option.bind_some, registerLoop, hagain]

end Register

/-! ## The other calls -/

section Calls

variable {s : St} {b : Book}

theorem inv_store (h : Inv s b) (ctx : Ctx) : Inv (store s ctx) ((event s (.store ctx)).elim b b.apply) := by
  cases hr : s.returned ctx with
  | none =>
    rw [store, event, hr]
    exact h
  | some a =>
    obtain ⟨hzero, hplace⟩ := h.unstored ctx a hr
    rw [store, event, hr]
    refine ⟨h.alive, ⟨h.sized.size, h.sized.harbor⟩, ?_, h.created, ?_, ?_, h.sorted, h.names⟩
    · intro j c hc
      refine Eq.trans (congrArg (· % s.slotSize) ?_) (h.placed j c hc)
      by_cases hne : c = ctx
      · simp [given, hne, hr]
      · simp [given, hne]
    · intro c k hc
      have hne : c ≠ ctx := by
        rintro rfl
        simp at hc
      simp only [Function.update_of_ne hne] at hc ⊢
      exact h.unstored c k hc
    · intro k hnonzero
      refine Option.ext fun c => ?_
      rw [grab_eq_some]
      change s.slot (hash s k) = some c ∧ Function.update s.handle ctx a c = k ↔
        Function.update b.service a (some ctx) k = some c
      by_cases hka : k = a
      · -- the slot of the handle has the context
        rw [hka, Function.update_self, h.sized.hash_eq, hplace]
        apply Iff.intro
        · exact fun hc => hc.1
        · intro hc
          obtain rfl := Option.some.inj hc
          exact ⟨rfl, Function.update_self _ _ _⟩
      · rw [Function.update_of_ne hka, ← h.service k hnonzero, grab_eq_some]
        refine and_congr_right fun _ => ?_
        by_cases hne : c = ctx
        · rw [hne, Function.update_self, hzero]
          exact iff_of_false (Ne.symm hka) (Ne.symm hnonzero)
        · rw [Function.update_of_ne hne]

theorem inv_retire (h : Inv s b) {handle : ℕ} (hnonzero : handle ≠ 0) :
    Inv (retire s handle) (b.apply (.retire handle)) := by
  have hservice := h.service handle hnonzero
  unfold retire Book.apply
  cases hgrab : grab s handle with
  | none => simpa [← hservice, hgrab] using h
  | some ctx =>
    obtain ⟨hslot, hhandle⟩ := grab_eq_some.1 hgrab
    simp only [← hservice, hgrab, Option.isSome_some, if_true]
    have hkept {j : ℕ} {c : Ctx} (hc : Function.update s.slot (hash s handle) none j = some c) :
        s.slot j = some c ∧ j ≠ hash s handle := by
      by_cases hj : j = hash s handle
      · rw [hj, Function.update_self] at hc
        exact absurd hc.symm (Option.some_ne_none c)
      · exact ⟨(Function.update_of_ne hj none s.slot).symm.trans hc, hj⟩
    refine ⟨h.alive, ⟨h.sized.size, h.sized.harbor⟩, ?_, ?_, ?_, ?_, h.sorted.filter _, ?_⟩
    · exact fun j c hc => h.placed j c (hkept hc).1
    · exact fun j c hc => h.created j c (hkept hc).1
    · intro c a hc
      obtain ⟨hzero, hold⟩ := h.unstored c a hc
      have hj : a % s.slotSize ≠ hash s handle := by
        intro heq
        rw [heq, hslot] at hold
        obtain rfl := Option.some.inj hold
        exact hnonzero (hhandle.symm.trans hzero)
      exact ⟨hzero, (Function.update_of_ne hj _ _).trans hold⟩
    · intro k hk
      refine Option.ext fun c => ?_
      rw [grab_eq_some]
      change Function.update s.slot (hash s handle) none (hash s k) = some c ∧ s.handle c = k ↔
        Function.update b.service handle none k = some c
      by_cases heq : k = handle
      · rw [heq, Function.update_self, Function.update_self]
        simp
      · rw [Function.update_of_ne heq, ← h.service k hk, grab_eq_some]
        by_cases hj : hash s k = hash s handle
        · -- the slot had a context with another handle
          rw [hj, Function.update_self, hslot]
          refine iff_of_false (fun hc => Option.some_ne_none c hc.1.symm) ?_
          rintro ⟨hc, hck⟩
          obtain rfl := Option.some.inj hc
          exact heq (hck.symm.trans hhandle)
        · rw [Function.update_of_ne hj]
    · intro n k
      have hnames := h.names n k
      by_cases hk : k = handle
      · subst hk
        simp [hnames]
      · by_cases hn : b.names n = some handle
        · simp [hn, hk, hnames, Ne.symm hk]
        · simp [hn, hk, hnames]

/-- the search finds the name, or the place for it -/
theorem Inv.find_cases (h : Inv s b) (name : Bytes) :
    (∃ handle, find strcmp HandleName.name s.name name = .inl ⟨name, handle⟩ ∧ b.names name = some handle) ∨
      ∃ before, find strcmp HandleName.name s.name name = .inr before ∧
        Splits strcmp HandleName.name s.name name before before ∧ b.names name = none := by
  rcases BinarySearch.find_cases h.sorted name with ⟨⟨name', handle⟩, hmem, hfind, rfl⟩ | ⟨before, hfind, hsplits⟩
  · exact .inl ⟨handle, hfind, (h.names _ _).1 hmem⟩
  · refine .inr ⟨before, hfind, hsplits, Option.eq_none_iff_forall_ne_some.2 fun handle hhandle => ?_⟩
    exact hsplits.key_ne ((h.names name handle).2 hhandle) rfl

theorem inv_namehandle (h : Inv s b) {handle : ℕ} {name : Bytes} (ho : Orderly (s, b) (.namehandle handle name)) :
    ∃ s', namehandle s handle name = some s' ∧ Inv s' (b.apply (.name handle name)) := by
  rcases h.find_cases name with ⟨old, hfind, hsome⟩ | ⟨before, hfind, hsplits, hnone⟩
  · rw [namehandle, hfind, Book.apply, hsome, if_neg (Option.some_ne_none old)]
    exact ⟨s, rfl, h⟩
  · have hinsert (cap : ℕ) : Inv { s with nameCap := cap, name := insertBefore s.name before ⟨name, handle⟩ }
        { b with names := Function.update b.names name (some handle) } := by
      refine ⟨h.alive, ⟨h.sized.size, h.sized.harbor⟩, h.placed, h.created, h.unstored, h.service,
        sorted_insertBefore h.sorted hsplits, fun m k => ?_⟩
      rw [mem_insertBefore, h.names]
      by_cases hm : m = name
      · simp [hm, hnone, eq_comm]
      · simp [hm]
    rw [namehandle, hfind, Book.apply, hnone, if_pos rfl]
    change ∃ s', insertNameBefore s ⟨name, handle⟩ before = some s' ∧ _
    rw [insertNameBefore]
    by_cases hgrow : s.nameCap ≤ s.name.length
    · rw [if_pos hgrow, if_pos (ho hgrow)]
      exact ⟨_, rfl, hinsert _⟩
    · rw [if_neg hgrow]
      exact ⟨_, rfl, hinsert _⟩

theorem Inv.findname_eq (h : Inv s b) (name : Bytes) : findname s name = (b.names name).getD 0 := by
  rcases h.find_cases name with ⟨handle, hfind, hsome⟩ | ⟨before, hfind, -, hnone⟩
  · rw [findname, hfind, hsome, Option.getD_some]
  · rw [findname, hfind, hnone, Option.getD_none]

/-- a handle that is not stored yet is that of no other context -/
theorem Inv.returned_unique (h : Inv s b) {c : Ctx} {a : ℕ} (hc : s.returned c = some a) :
    (a ≠ 0 → b.service a = none) ∧ ∀ d, s.returned d = some a → d = c := by
  obtain ⟨hzero, hslot⟩ := h.unstored c a hc
  refine ⟨fun hnonzero => ?_, fun d hd => ?_⟩
  · rw [← h.service a hnonzero]
    refine Option.eq_none_iff_forall_ne_some.2 fun d hd => ?_
    obtain ⟨hslot', hhandle⟩ := grab_eq_some.1 hd
    rw [h.sized.hash_eq, hslot] at hslot'
    obtain rfl := Option.some.inj hslot'
    exact hnonzero (hhandle.symm.trans hzero)
  · exact Option.some.inj ((h.unstored d a hd).2.symm.trans hslot)

end Calls

/-! ## Runs -/

theorem inv_bothStep (p : St × Book) (o : Op) (ho : Orderly p o) (h : Inv p.1 p.2) :
    Inv (bothStep p o).1 (bothStep p o).2 := by
  obtain ⟨s, b⟩ := p
  have hstep {s' : St} (hexec : exec s o = some s') : step s o = s' := by
    rw [step, h.alive, if_neg Bool.false_ne_true, hexec, Option.getD_some]
  cases o with
  | register ctx =>
    obtain ⟨s', hexec, hinv⟩ := inv_register h ho
    rw [bothStep, hstep hexec]
    exact hinv
  | store ctx =>
    rw [bothStep, hstep rfl]
    exact inv_store h ctx
  | retire handle =>
    rw [bothStep, hstep rfl]
    exact inv_retire h ho
  | namehandle handle name =>
    obtain ⟨s', hexec, hinv⟩ := inv_namehandle h ho
    rw [bothStep, hstep hexec]
    exact hinv

/-- the registry and the book after the calls `ops` -/
def reached (harbor : ℕ) (ops : List Op) : St × Book := run bothStep (init harbor, Book.empty) ops

theorem inv_reached {harbor : ℕ} {ops : List Op} (hops : Guarded bothStep Orderly (init harbor, Book.empty) ops) :
    Inv (reached harbor ops).1 (reached harbor ops).2 :=
  guarded_inv bothStep Orderly (fun p => Inv p.1 p.2) inv_bothStep _ ops hops (inv_init harbor)

/-- **The registry is the book.** In every interleaving of orderly calls no assertion fails, a handle other than 0 is
grabbed as the service that the book has for it, a name is found as in the book, and a handle that a thread has not stored
yet is neither that of a service nor of another thread. -/
theorem registry_refines (harbor : ℕ) (ops : List Op)
    (hops : Guarded bothStep Orderly (init harbor, Book.empty) ops) :
    (reached harbor ops).1.failed = false ∧
      (∀ handle ≠ 0, grab (reached harbor ops).1 handle = (reached harbor ops).2.service handle) ∧
      (∀ name, findname (reached harbor ops).1 name = ((reached harbor ops).2.names name).getD 0) ∧
      ∀ c a, (reached harbor ops).1.returned c = some a →
        (a ≠ 0 → (reached harbor ops).2.service a = none) ∧ ∀ d, (reached harbor ops).1.returned d = some a → d = c := by
  have h := inv_reached hops
  exact ⟨h.alive, h.service, h.findname_eq, fun c a hc => h.returned_unique hc⟩

instance (p : St × Book) : (o : Op) → Decidable (Orderly p o)
  | .register _ => inferInstanceAs (Decidable (_ → _ ∧ _))
  | .store _ => inferInstanceAs (Decidable True)
  | .retire handle => inferInstanceAs (Decidable (handle ≠ 0))
  | .namehandle _ _ => inferInstanceAs (Decidable (_ → _))

/-- the fifth service doubles the table -/
def sampleCalls : List Op :=
  [.register 0, .store 0, .register 1, .register 2, .store 2, .store 1, .namehandle 3 (CChar.ascii "db"), .register 3,
    .namehandle 2 (CChar.ascii "api"), .store 3, .register 4, .retire 2, .store 4]

theorem registry_refines_sampleCalls :
    Guarded bothStep Orderly (init 1, Book.empty) sampleCalls ∧ (reached 1 sampleCalls).1.slotSize = 8 ∧
      (reached 1 sampleCalls).1.failed = false ∧
      grab (reached 1 sampleCalls).1 0x01000005 = (reached 1 sampleCalls).2.service 0x01000005 := by
  have hops : Guarded bothStep Orderly (init 1, Book.empty) sampleCalls := by
    simp only [Guarded, sampleCalls, and_true]
    decide +kernel
  obtain ⟨halive, hgrab, -⟩ := registry_refines 1 sampleCalls hops
  exact ⟨hops, by decide +kernel, halive, hgrab _ (by decide)⟩

/-! ## A table that is doubled too early -/

/-- a context without its handle is in no slot but 0, and there are 2^k slots or more -/
structure Strayed (c : Ctx) (a k : ℕ) (s : St) : Prop where
  slot : ∀ j, s.slot j = some c → j = 0
  handle : s.handle c = 0
  returned : s.returned c = some a
  size : ∃ k', k ≤ k' ∧ s.slotSize = 2 ^ k'

/-- a context is put into the slot of the handle that is stored in it -/
theorem rehash_slot {s : St} {m : ℕ} {newSlot : ℕ → Option Ctx} (h : rehash s m = some newSlot) {j : ℕ} {c : Ctx}
    (hc : newSlot j = some c) : j = s.handle c &&& (s.slotSize * 2 - 1) := by
  induction m generalizing newSlot with
  | zero =>
    obtain rfl := Option.some.inj h
    exact absurd hc.symm (Option.some_ne_none c)
  | succ m ih =>
    obtain ⟨old, hold, h⟩ := Option.bind_eq_some_iff.1 h
    obtain ⟨d, -, h⟩ := Option.bind_eq_some_iff.1 h
    split_ifs at h
    obtain rfl := Option.some.inj h
    by_cases hj : j = s.handle d &&& (s.slotSize * 2 - 1)
    · rw [hj, Function.update_self] at hc
      obtain rfl := Option.some.inj hc
      exact hj
    · rw [Function.update_of_ne hj] at hc
      exact ih hold hc

theorem strayed_expand {c : Ctx} {a k : ℕ} {s s' : St} (hhandle : s.handle c = 0) (hreturned : s.returned c = some a)
    (hsize : ∃ k', k ≤ k' + 1 ∧ s.slotSize = 2 ^ k') (h : expand s = some s') : Strayed c a k s' := by
  rw [expand] at h
  split_ifs at h
  obtain ⟨newSlot, hnew, rfl⟩ := Option.map_eq_some_iff.1 h
  obtain ⟨k', hk, hsize⟩ := hsize
  refine ⟨fun j hj => ?_, hhandle, hreturned, k' + 1, hk, ?_⟩
  · rw [rehash_slot hnew hj, hhandle, Nat.zero_and]
  · rw [doubled, hsize, ← Nat.pow_succ]

theorem strayed_registerLoop {c ctx : Ctx} {a k : ℕ} (hne : c ≠ ctx) (rounds : ℕ) {s s' : St} (hs : Strayed c a k s)
    (h : registerLoop ctx rounds s = some s') : Strayed c a k s' := by
  induction rounds generalizing s with
  | zero => exact absurd h.symm (Option.some_ne_none s')
  | succ rounds ih =>
    rw [registerLoop] at h
    cases hfind : findSlot s with
    | some handle =>
      rw [hfind] at h
      obtain rfl := Option.some.inj h
      refine ⟨fun j hj => ?_, hs.handle, (Function.update_of_ne hne _ _).trans hs.returned, hs.size⟩
      by_cases hhash : j = hash s handle
      · rw [hhash] at hj
        have hself : (take s ctx handle).slot (hash s handle) = some ctx := Function.update_self _ _ _
        exact absurd (Option.some.inj (hj.symm.trans hself)) hne
      · exact hs.slot j ((Function.update_of_ne hhash _ _).symm.trans hj)
    | none =>
      rw [hfind] at h
      obtain ⟨t, ht, h⟩ := Option.bind_eq_some_iff.1 h
      obtain ⟨k', hk, hsize⟩ := hs.size
      exact ih (strayed_expand hs.handle hs.returned ⟨k', hk.trans (Nat.le_succ k'), hsize⟩ ht) h

/-- **A context that has no handle yet is lost when the table is doubled**: an assertion fails, or the context is not
found under its handle when it has it, unless the new slot of the handle is 0. -/
theorem unstored_context_lost (harbor : ℕ) (ops : List Op)
    (hops : Guarded bothStep Orderly (init harbor, Book.empty) ops) (c ctx : Ctx) (a : ℕ)
    (hc : (reached harbor ops).1.returned c = some a) (hfull : findSlot (reached harbor ops).1 = none)
    (hnew : ctx ∉ (reached harbor ops).1.created) (ha : a % ((reached harbor ops).1.slotSize * 2) ≠ 0) :
    (step (reached harbor ops).1 (.register ctx)).failed = true ∨
      grab (store (step (reached harbor ops).1 (.register ctx)) c) a ≠ some c := by
  have h := inv_reached hops
  generalize (reached harbor ops).1 = s at *
  obtain ⟨hzero, hslot⟩ := h.unstored c a hc
  have hne : c ≠ ctx := by
    rintro rfl
    exact hnew (h.created _ c hslot)
  obtain ⟨k, -, hk⟩ := h.sized.size
  rw [step, h.alive, if_neg Bool.false_ne_true, exec, register, if_neg hnew]
  cases hloop : registerLoop ctx 24 (create s ctx) with
  | none => exact .inl rfl
  | some s' =>
    have hstrayed : Strayed c a (k + 1) s' := by
      have hfind : findSlot (create s ctx) = none := hfull
      rw [registerLoop, hfind] at hloop
      obtain ⟨t, ht, hloop⟩ := Option.bind_eq_some_iff.1 hloop
      have hhandle : (create s ctx).handle c = 0 := (Function.update_of_ne hne _ _).trans hzero
      exact strayed_registerLoop hne 23 (strayed_expand hhandle hc ⟨k, le_rfl, hk⟩ ht) hloop
    refine .inr fun hgrab => ha ?_
    obtain ⟨k', hle, hsize⟩ := hstrayed.size
    rw [Option.getD_some, store, hstrayed.returned] at hgrab
    have hhash : hash s' a = 0 := hstrayed.slot _ (grab_eq_some.1 hgrab).1
    rw [hash, hsize, Nat.and_two_pow_sub_one_eq_mod] at hhash
    rw [hk, ← Nat.pow_succ]
    exact Nat.mod_eq_zero_of_dvd ((Nat.pow_dvd_pow 2 hle).trans (Nat.dvd_of_mod_eq_zero hhash))

/-- the third service has not got its handle when the fifth is launched -/
def earlyCalls : List Op :=
  [.register 0, .store 0, .register 1, .store 1, .register 2, .register 3, .store 3]

theorem unstored_context_lost_earlyCalls :
    Guarded bothStep Orderly (init 1, Book.empty) earlyCalls ∧ (reached 1 earlyCalls).1.returned 2 = some 0x01000003 ∧
      ((step (reached 1 earlyCalls).1 (.register 4)).failed = true ∨
        grab (store (step (reached 1 earlyCalls).1 (.register 4)) 2) 0x01000003 ≠ some 2) := by
  have hops : Guarded bothStep Orderly (init 1, Book.empty) earlyCalls := by
    simp only [Guarded, earlyCalls, and_true]
    decide +kernel
  have hreturned : (reached 1 earlyCalls).1.returned 2 = some 0x01000003 := by decide +kernel
  exact ⟨hops, hreturned, unstored_context_lost 1 earlyCalls hops 2 4 0x01000003 hreturned (by decide +kernel)
    (by decide +kernel) (by decide +kernel)⟩

end OwliesServer.Handle
