/-
The timers (3rd/skynet/skynet-src/skynet_timer.c): `skynet_timeout` of any thread puts a timer into a wheel with five levels
of lists, and the timer thread turns the wheel by one for each hundredth of a second that has passed. Expiry times are 32
bits and wrap.

- The two sides take the wheel's lock. `Op.work` is what the timer thread does until it gives the lock up or reads the clock
  again; it has no lock while it pushes the messages of expired timers (`dispatch_list`), and timers are added in between.
- `ticks`, `added` and the first component of `out` are no part of the code: how often the time was shifted, for each timer
  the tick at which it is due, and the tick at which its message was pushed.

`timers_on_time`: in every interleaving, the messages pushed in a tick are those of the timers that are due at it, in the
order in which they were added; no timer is lost, early, late or fired twice, also when the 32 bits wrap.
-/
import OwliesServer.Core.Machine
import OwliesServer.Core.Wheel

namespace OwliesServer.SkynetTimer

open OwliesServer.Machine OwliesServer.Wheel

/-! ## The wheel -/

def TIME_NEAR_SHIFT : ℕ := 8
def TIME_NEAR : ℕ := 1 <<< TIME_NEAR_SHIFT
def TIME_LEVEL_SHIFT : ℕ := 6
def TIME_LEVEL : ℕ := 1 <<< TIME_LEVEL_SHIFT
def TIME_NEAR_MASK : ℕ := TIME_NEAR - 1
def TIME_LEVEL_MASK : ℕ := TIME_LEVEL - 1

structure Event where
  handle : ℕ
  session : ℕ
deriving DecidableEq, Repr

structure Node where
  expire : ℕ
  event : Event
deriving DecidableEq, Repr

/-- `near[idx]` -/
def near (idx : ℕ) : ℕ × ℕ := (0, idx)

/-- `t[i][idx]` -/
def far (i idx : ℕ) : ℕ × ℕ := (i + 1, idx)

/-- `struct timer` -/
structure Timer where
  lists : ℕ × ℕ → List Node
  time : ℕ

/-- the loop of `add_node` over the levels -/
def searchLevel (expire time : ℕ) : ℕ → ℕ → ℕ → ℕ
  | 0, i, _ => i
  | left + 1, i, mask =>
    if expire ||| (mask - 1) = time ||| (mask - 1) then i
    else searchLevel expire time left (i + 1) (mask <<< TIME_LEVEL_SHIFT)

/-- the list `add_node` puts a timer into -/
def slot (expire time : ℕ) : ℕ × ℕ :=
  if expire ||| TIME_NEAR_MASK = time ||| TIME_NEAR_MASK then near (expire &&& TIME_NEAR_MASK)
  else far (searchLevel expire time 3 0 (TIME_NEAR <<< TIME_LEVEL_SHIFT))
    ((expire >>> (TIME_NEAR_SHIFT + searchLevel expire time 3 0 (TIME_NEAR <<< TIME_LEVEL_SHIFT) * TIME_LEVEL_SHIFT)) &&&
      TIME_LEVEL_MASK)

def addNode (T : Timer) (node : Node) : Timer := { T with lists := link T.lists (slot node.expire T.time) node }

def timerAdd (T : Timer) (event : Event) (time : ℕ) : Timer := addNode T ⟨(time + T.time) % 2 ^ 32, event⟩

def moveList (T : Timer) (level idx : ℕ) : Timer :=
  (T.lists (far level idx)).foldl addNode { T with lists := clear T.lists (far level idx) }

/-- the loop of `timer_shift` over the levels; it ends before they do unless `ct` is 0 -/
def shiftLoop (ct : ℕ) : ℕ → ℕ → ℕ → ℕ → Timer → Timer
  | 0, _, _, _, T => T
  | left + 1, i, mask, time, T =>
    if ct &&& (mask - 1) = 0 then
      if time &&& TIME_LEVEL_MASK ≠ 0 then moveList T i (time &&& TIME_LEVEL_MASK)
      else shiftLoop ct left (i + 1) (mask <<< TIME_LEVEL_SHIFT) (time >>> TIME_LEVEL_SHIFT) T
    else T

/-- `timer_shift`, with the time after it -/
def shiftTo (T : Timer) (ct : ℕ) : Timer :=
  if ct = 0 then moveList { T with time := ct } 3 0
  else shiftLoop ct 4 0 TIME_NEAR (ct >>> TIME_NEAR_SHIFT) { T with time := ct }

def timerShift (T : Timer) : Timer := shiftTo T ((T.time + 1) % 2 ^ 32)

/-! ## The threads -/

/-- which `timer_execute` of `timer_update` -/
inductive Phase where
  | before
  | after
deriving DecidableEq, Repr

structure St where
  timer : Timer
  /-- hundredths of a second, and the clock's at the last reading -/
  current : BitVec 64
  currentPoint : BitVec 64
  /-- calls of `timer_update` that the loop of `skynet_updatetime` has left -/
  owed : ℕ
  /-- what `dispatch_list` has left to push -/
  thread : Option (Phase × List Node)
  ticks : ℕ
  /-- the timers with the tick at which they are due -/
  added : List (ℕ × Event)
  /-- the messages of expired timers, with the tick at which they were pushed -/
  out : List (ℕ × Event)
  /-- the messages of timeouts that are not positive -/
  direct : List Event

inductive Op where
  /-- `skynet_timeout` -/
  | timeout (event : Event) (time : BitVec 32)
  /-- the timer thread; `cp` is what it reads if it reads the clock -/
  | work (cp : BitVec 64)

def init (current currentPoint : BitVec 64) : St := ⟨⟨fun _ => [], 0⟩, current, currentPoint, 0, none, 0, [], [], []⟩

def timeout (s : St) (event : Event) (time : BitVec 32) : St :=
  if time.toInt ≤ 0 then { s with direct := s.direct ++ [event] }
  else { s with timer := timerAdd s.timer event time.toNat, added := s.added ++ [(s.ticks + time.toNat, event)] }

/-- the list of the current instant -/
def current (T : Timer) : ℕ × ℕ := near (T.time &&& TIME_NEAR_MASK)

/-- `timer_execute` with the lock: the list is taken out and dispatched without it -/
def take (s : St) (phase : Phase) : St :=
  { s with timer := { s.timer with lists := clear s.timer.lists (current s.timer) },
           thread := some (phase, s.timer.lists (current s.timer)) }

/-- the second `timer_execute` -/
def executeAfter (s : St) : St :=
  if (s.timer.lists (current s.timer)).isEmpty then { s with thread := none } else take s .after

/-- the first one, and `timer_shift` behind it -/
def executeBefore (s : St) : St :=
  if (s.timer.lists (current s.timer)).isEmpty then
    executeAfter { s with timer := timerShift s.timer, ticks := s.ticks + 1 }
  else take s .before

/-- `skynet_updatetime` up to its loop; the difference is cast to 32 bits -/
def updatetime (s : St) (cp : BitVec 64) : St :=
  if cp < s.currentPoint then { s with currentPoint := cp }
  else
    let diff := (cp - s.currentPoint).toNat % 2 ^ 32
    { s with currentPoint := cp, current := s.current + BitVec.ofNat 64 diff, owed := diff }

def work (s : St) (cp : BitVec 64) : St :=
  match s.thread with
  | some (phase, node :: rest) => { s with out := s.out ++ [(s.ticks, node.event)], thread := some (phase, rest) }
  | some (.before, []) => executeBefore s
  | some (.after, []) => executeAfter s
  | none => match s.owed with
    | 0 => updatetime s cp
    | owed + 1 => executeBefore { s with owed := owed }

def step (s : St) : Op → St
  | .timeout event time => timeout s event time
  | .work cp => work s cp

/-! ## The lists are those of the library -/

/-- 8 bits below the first level, and 6 for each -/
def bits (j : ℕ) : ℕ := TIME_NEAR_SHIFT + j * TIME_LEVEL_SHIFT

theorem monotone_bits : Monotone bits := fun _ _ hij => Nat.add_le_add_left (Nat.mul_le_mul_right _ hij) _

theorem bits_succ (j : ℕ) : bits (j + 1) = bits j + 6 := by
  rw [bits, bits, Nat.succ_mul, Nat.add_assoc]
  rfl

theorem bits_le {j : ℕ} (hj : j < 4) : bits j + 6 ≤ 32 := by
  unfold bits TIME_NEAR_SHIFT TIME_LEVEL_SHIFT
  omega

theorem lor_mask_eq_iff (k x y : ℕ) : x ||| (2 ^ k - 1) = y ||| (2 ^ k - 1) ↔ x / 2 ^ k = y / 2 ^ k := by
  apply Iff.intro
  · intro h
    apply Nat.eq_of_testBit_eq
    intro i
    have hbit := congrArg (fun n => n.testBit (k + i)) h
    simpa [Nat.testBit_or, Nat.testBit_two_pow_sub_one, Nat.testBit_div_two_pow, Nat.add_comm] using hbit
  · intro h
    apply Nat.eq_of_testBit_eq
    intro i
    rw [Nat.testBit_or, Nat.testBit_or, Nat.testBit_two_pow_sub_one]
    by_cases hi : i < k
    · simp [hi]
    · have hbit := congrArg (fun n => n.testBit (i - k)) h
      simp only [Nat.testBit_div_two_pow, Nat.sub_add_cancel (Nat.le_of_not_lt hi)] at hbit
      rw [hbit]

section Wrapped

variable {due now : ℕ} (hle : now ≤ due) (hlt : due < now + 2 ^ 31)

theorem div_mod_eq {k : ℕ} (hk : k ≤ 32) (x : ℕ) : x % 2 ^ 32 / 2 ^ k = x / 2 ^ k % 2 ^ (32 - k) := by
  rw [← Nat.mod_mul_right_div_self, ← Nat.pow_add, Nat.add_sub_cancel' hk]

include hle hlt in
/-- times less than 2^31 apart are in one block if their low 32 bits are -/
theorem wrapped_block_iff {k : ℕ} (hk : k < 32) :
    due % 2 ^ 32 / 2 ^ k = now % 2 ^ 32 / 2 ^ k ↔ due / 2 ^ k = now / 2 ^ k := by
  rw [div_mod_eq (Nat.le_of_lt hk), div_mod_eq (Nat.le_of_lt hk)]
  apply Iff.intro
  · intro h
    have hlow : now / 2 ^ k ≤ due / 2 ^ k := Nat.div_le_div_right hle
    have hhigh : due / 2 ^ k ≤ now / 2 ^ k + 2 ^ (31 - k) := by
      calc due / 2 ^ k ≤ (now + 2 ^ k * 2 ^ (31 - k)) / 2 ^ k := by
            refine Nat.div_le_div_right ?_
            rw [← Nat.pow_add, Nat.add_sub_cancel' (by omega)]
            omega
        _ = now / 2 ^ k + 2 ^ (31 - k) := Nat.add_mul_div_left _ _ (Nat.pow_pos (by decide))
    have hdvd : 2 ^ (32 - k) ∣ due / 2 ^ k - now / 2 ^ k := (Nat.modEq_iff_dvd' hlow).1 h.symm
    have hpow : 2 ^ (32 - k) = 2 * 2 ^ (31 - k) := by rw [← Nat.pow_succ', show (31 - k).succ = 32 - k by omega]
    have hpos : 0 < 2 ^ (31 - k) := Nat.pow_pos (by decide)
    have hzero : due / 2 ^ k - now / 2 ^ k = 0 := Nat.eq_zero_of_dvd_of_lt hdvd (by omega)
    omega
  · intro h
    rw [h]

include hle hlt in
/-- the comparison of `add_node` for a level -/
theorem masked_eq_iff {j mask : ℕ} (hj : j < 4) (hmask : mask = 2 ^ bits j) :
    due % 2 ^ 32 ||| (mask - 1) = now % 2 ^ 32 ||| (mask - 1) ↔ block bits j due = block bits j now := by
  have hbits := bits_le hj
  rw [hmask, lor_mask_eq_iff]
  exact wrapped_block_iff hle hlt (by omega)

theorem mask_succ {j mask : ℕ} (hmask : mask = 2 ^ bits j) : mask <<< TIME_LEVEL_SHIFT = 2 ^ bits (j + 1) := by
  rw [hmask, Nat.shiftLeft_eq, ← Nat.pow_add, bits_succ]
  rfl

include hle hlt in
theorem searchLevel_eq (left i mask : ℕ) (hi : left + i = 3) (hmask : mask = 2 ^ bits (i + 1)) :
    searchLevel (due % 2 ^ 32) (now % 2 ^ 32) left i mask + 1 = levelFrom bits due now left (i + 1) := by
  induction left generalizing i mask with
  | zero => rfl
  | succ left ih =>
    rw [searchLevel, levelFrom]
    simp only [masked_eq_iff hle hlt (show i + 1 < 4 by omega) hmask]
    by_cases hblock : block bits (i + 1) due = block bits (i + 1) now
    · rw [if_pos hblock, if_pos hblock]
    · rw [if_neg hblock, if_neg hblock]
      exact ih (i + 1) _ (by omega) (mask_succ hmask)

/-- the index of a list, from the low 32 bits -/
theorem index_mod {j : ℕ} (hj : j < 4) : ((due % 2 ^ 32) >>> bits j) &&& TIME_LEVEL_MASK = index bits due (j + 1) := by
  have hbits := bits_le hj
  have hwidth : bits (j + 1) - bits j = 6 := by rw [bits_succ, Nat.add_sub_cancel_left]
  have hdvd : 2 ^ 6 ∣ 2 ^ (32 - bits j) := Nat.pow_dvd_pow 2 (by omega)
  calc ((due % 2 ^ 32) >>> bits j) &&& TIME_LEVEL_MASK
      = due % 2 ^ 32 / 2 ^ bits j % 2 ^ 6 := by
        rw [Nat.shiftRight_eq_div_pow]
        exact Nat.and_two_pow_sub_one_eq_mod _ 6
    _ = due / 2 ^ bits j % 2 ^ (32 - bits j) % 2 ^ 6 := by rw [div_mod_eq (by omega)]
    _ = index bits due (j + 1) := by rw [Nat.mod_mod_of_dvd _ hdvd, index, hwidth, block]

include hle hlt in
/-- **`add_node` finds the place of the library.** -/
theorem slot_eq_place : slot (due % 2 ^ 32) (now % 2 ^ 32) = place bits 4 due now := by
  have hnear := masked_eq_iff hle hlt (show 0 < 4 by decide) (show TIME_NEAR = 2 ^ bits 0 by decide)
  have hsearch := searchLevel_eq hle hlt 3 0 (TIME_NEAR <<< TIME_LEVEL_SHIFT) rfl (by decide)
  unfold slot
  simp only [show TIME_NEAR_MASK = TIME_NEAR - 1 from rfl, hnear]
  by_cases hblock : block bits 0 due = block bits 0 now
  · have hlevel : level bits 4 due now = 0 := level_eq_iff.2 ⟨by decide, fun _ => hblock, fun j hj => absurd hj (Nat.not_lt_zero j)⟩
    rw [if_pos hblock, place, hlevel, near, index]
    congr 1
    calc due % 2 ^ 32 &&& (TIME_NEAR - 1) = due % 2 ^ 32 % 2 ^ 8 := Nat.and_two_pow_sub_one_eq_mod _ 8
      _ = due % 2 ^ 8 := Nat.mod_mod_of_dvd _ (by decide)
  · have hlevel : level bits 4 due now =
        searchLevel (due % 2 ^ 32) (now % 2 ^ 32) 3 0 (TIME_NEAR <<< TIME_LEVEL_SHIFT) + 1 := by
      rw [level, levelFrom, if_neg hblock, hsearch]
    have hle4 : level bits 4 due now ≤ 4 := (level_eq_iff.1 rfl).1
    rw [if_neg hblock, place, hlevel, far, ← index_mod (by omega)]
    rfl

end Wrapped

theorem moveList_eq (T : Timer) (level idx : ℕ) :
    moveList T level idx = { T with lists := move T.lists (fun node => slot node.expire T.time) (far level idx) } := by
  have hfold : ∀ (nodes : List Node) (lists : ℕ × ℕ → List Node), nodes.foldl addNode { T with lists := lists } =
      { T with lists := nodes.foldl (fun w node => link w (slot node.expire T.time) node) lists } := by
    intro nodes
    induction nodes with
    | nil => exact fun _ => rfl
    | cons node nodes ih => exact fun lists => ih _
  exact hfold _ _

/-- a new block begins with a multiple of its size -/
theorem block_succ (j now : ℕ) : block bits j (now + 1) = block bits j now + if 2 ^ bits j ∣ now + 1 then 1 else 0 :=
  Nat.succ_div

/-- a level whose block begins, and whose index is not 0, is that of the carry -/
theorem level_succ_eq {now i : ℕ} (hi : i < 4) (hdvd : 2 ^ bits i ∣ now + 1)
    (hindex : index bits (now + 1) (i + 1) ≠ 0) : level bits 4 (now + 1) now = i + 1 := by
  refine level_eq_iff.2 ⟨hi, fun _ => ?_, fun j hj => ?_⟩
  · rw [block_succ, if_neg, Nat.add_zero]
    intro hnext
    refine hindex ?_
    rw [bits_succ, Nat.pow_add] at hnext
    rw [index, bits_succ, Nat.add_sub_cancel_left, block]
    exact Nat.mod_eq_zero_of_dvd (Nat.dvd_div_of_mul_dvd hnext)
  · have hj' : 2 ^ bits j ∣ now + 1 := (Nat.pow_dvd_pow 2 (monotone_bits (Nat.le_of_lt_succ hj))).trans hdvd
    rw [block_succ, if_pos hj']
    omega

theorem dvd_of_index_zero {now i : ℕ} (hdvd : 2 ^ bits i ∣ now + 1) (hindex : index bits (now + 1) (i + 1) = 0) :
    2 ^ bits (i + 1) ∣ now + 1 := by
  rw [index, bits_succ, Nat.add_sub_cancel_left, block] at hindex
  rw [bits_succ, Nat.pow_add]
  exact Nat.mul_dvd_of_dvd_div hdvd (Nat.dvd_of_mod_eq_zero hindex)

/-- what the carry moves -/
def carry (T : Timer) (now : ℕ) : Timer :=
  { T with lists := move T.lists (fun node => slot node.expire T.time) (moved bits 4 now) }

theorem shiftLoop_eq {now : ℕ} (hct : (now + 1) % 2 ^ 32 ≠ 0) (T : Timer) (left i mask time : ℕ) (hi : left + i = 4)
    (hmask : mask = 2 ^ bits i) (htime : time = ((now + 1) % 2 ^ 32) >>> bits i) (hdvd : 2 ^ bits i ∣ now + 1) :
    shiftLoop ((now + 1) % 2 ^ 32) left i mask time T = carry T now := by
  induction left generalizing i mask time with
  | zero =>
    obtain rfl : i = 4 := by omega
    exact absurd (Nat.mod_eq_zero_of_dvd hdvd) hct
  | succ left ih =>
    have hi4 : i < 4 := by omega
    have hbits : bits i ≤ 32 := (Nat.le_add_right _ _).trans (bits_le hi4)
    have hzero : (now + 1) % 2 ^ 32 &&& (mask - 1) = 0 := by
      rw [hmask, Nat.and_two_pow_sub_one_eq_mod, Nat.mod_mod_of_dvd _ (Nat.pow_dvd_pow 2 hbits)]
      exact Nat.mod_eq_zero_of_dvd hdvd
    have hidx : time &&& TIME_LEVEL_MASK = index bits (now + 1) (i + 1) := by rw [htime, index_mod hi4]
    rw [shiftLoop, if_pos hzero, hidx]
    by_cases hindex : index bits (now + 1) (i + 1) = 0
    · rw [if_neg (by simpa using hindex)]
      refine ih (i + 1) _ _ (by omega) (mask_succ hmask) ?_ (dvd_of_index_zero hdvd hindex)
      rw [htime, ← Nat.shiftRight_add, bits_succ]
      rfl
    · rw [if_pos hindex, moveList_eq, carry, moved, level_succ_eq hi4 hdvd hindex]
      rfl

/-- **`timer_shift` moves the list of the library**, if there is a carry. -/
theorem shiftTo_eq (T : Timer) (now : ℕ) : shiftTo T ((now + 1) % 2 ^ 32) =
    if level bits 4 (now + 1) now = 0 then { T with time := (now + 1) % 2 ^ 32 }
    else carry { T with time := (now + 1) % 2 ^ 32 } now := by
  unfold shiftTo
  by_cases hct : (now + 1) % 2 ^ 32 = 0
  · -- every level carries, and the index on the last one is 0
    have hdvd : 2 ^ 32 ∣ now + 1 := Nat.dvd_of_mod_eq_zero hct
    have hlevel : level bits 4 (now + 1) now = 4 := by
      refine level_eq_iff.2 ⟨le_rfl, fun h => absurd h (Nat.lt_irrefl _), fun j hj => ?_⟩
      have hbits : bits j ≤ 32 := (Nat.le_add_right _ _).trans (bits_le hj)
      rw [block_succ, if_pos ((Nat.pow_dvd_pow 2 hbits).trans hdvd)]
      omega
    have hindex : index bits (now + 1) 4 = 0 := by
      rw [← index_mod (show 3 < 4 by decide), hct]
      rfl
    rw [if_pos hct, hlevel, if_neg (by decide), moveList_eq, carry, moved, hlevel, hindex]
    rfl
  · rw [if_neg hct]
    by_cases hdvd : 2 ^ bits 0 ∣ now + 1
    · have hlevel : level bits 4 (now + 1) now ≠ 0 := by
        intro hzero
        have hblock := (level_eq_iff.1 hzero).2.1 (by decide)
        rw [block_succ, if_pos hdvd] at hblock
        omega
      rw [if_neg hlevel]
      exact shiftLoop_eq hct _ 4 0 TIME_NEAR _ rfl (by decide) rfl hdvd
    · have hlevel : level bits 4 (now + 1) now = 0 := by
        refine level_eq_iff.2 ⟨Nat.zero_le _, fun _ => ?_, fun j hj => absurd hj (Nat.not_lt_zero j)⟩
        rw [block_succ, if_neg hdvd, Nat.add_zero]
      have hnonzero : (now + 1) % 2 ^ 32 &&& (TIME_NEAR - 1) ≠ 0 := by
        rw [show TIME_NEAR - 1 = 2 ^ 8 - 1 from rfl, Nat.and_two_pow_sub_one_eq_mod, Nat.mod_mod_of_dvd _ (by decide)]
        exact fun h => hdvd (Nat.dvd_of_mod_eq_zero h)
      rw [if_pos hlevel, shiftLoop, if_neg hnonzero]

/-! ## The invariant -/

/-- how a timer is stored -/
def node (a : ℕ × Event) : Node := ⟨a.1 % 2 ^ 32, a.2⟩

def pending (s : St) : List (ℕ × Event) := s.added.filter fun a => s.ticks < a.1

/-- what `dispatch_list` has left -/
def todo (s : St) : List Node :=
  match s.thread with
  | some (_, nodes) => nodes
  | none => []

/-- the messages that are pushed, or about to be -/
def fired (s : St) : List (ℕ × Event) := s.out ++ (todo s).map fun n => (s.ticks, n.event)

structure Inv (start : BitVec 64) (s : St) : Prop where
  time : s.timer.time = s.ticks % 2 ^ 32
  ahead : ∀ a ∈ s.added, a.1 < s.ticks + 2 ^ 31
  lists : Holds s.timer.lists node (fun a => place bits 4 a.1 s.ticks) (pending s)
  /-- no timer is due at once, so the first `timer_execute` finds nothing -/
  thread : ∀ nodes, s.thread ≠ some (.before, nodes)
  past : ∀ x ∈ fired s, x.1 ≤ s.ticks
  due : ∀ n ≤ s.ticks, (fired s).filter (fun x => x.1 = n) = s.added.filter fun x => x.1 = n
  ordered : (fired s).Pairwise fun x y => x.1 ≤ y.1
  clock : s.current = start + BitVec.ofNat 64 (s.ticks + s.owed)

theorem current_eq (lists : ℕ × ℕ → List Node) (now : ℕ) : current ⟨lists, now % 2 ^ 32⟩ = (0, now % 2 ^ bits 0) := by
  unfold current near
  congr 1
  calc now % 2 ^ 32 &&& TIME_NEAR_MASK = now % 2 ^ 32 % 2 ^ 8 := Nat.and_two_pow_sub_one_eq_mod _ 8
    _ = now % 2 ^ 8 := Nat.mod_mod_of_dvd _ (by decide)

section Shift

variable {lists : ℕ × ℕ → List Node} {items : List (ℕ × Event)} {now : ℕ}
  (h : Holds lists node (fun a => place bits 4 a.1 now) items)
  (hitems : ∀ a ∈ items, now < a.1 ∧ a.1 < now + 2 ^ 31)

include h hitems in
/-- turning the wheel keeps its lists right -/
theorem holds_shift : (timerShift ⟨lists, now % 2 ^ 32⟩).time = (now + 1) % 2 ^ 32 ∧
    Holds (timerShift ⟨lists, now % 2 ^ 32⟩).lists node (fun a => place bits 4 a.1 (now + 1)) items := by
  have hct : (now % 2 ^ 32 + 1) % 2 ^ 32 = (now + 1) % 2 ^ 32 := Nat.mod_add_mod _ _ _
  rw [timerShift, hct, shiftTo_eq]
  by_cases hcarry : level bits 4 (now + 1) now = 0
  · rw [if_pos hcarry]
    refine ⟨rfl, fun p => (h p).trans ?_⟩
    simp only [place_succ_of_zero monotone_bits (show 0 < 4 by decide) hcarry]
  · rw [if_neg hcarry]
    have hsucc {a : ℕ × Event} (ha : a ∈ items) := by
      obtain ⟨hlo, hhi⟩ := hitems a ha
      have hfar : block bits (4 - 1) a.1 < block bits (4 - 1) (now + 1) + 2 ^ (bits 4 - bits (4 - 1)) := by
        change a.1 / 2 ^ 26 < (now + 1) / 2 ^ 26 + 2 ^ 6
        omega
      exact place_succ monotone_bits hlo hfar (Nat.pos_of_ne_zero hcarry)
    refine ⟨rfl, holds_move h ?_ ?_ ?_⟩
    · intro a ha _
      obtain ⟨hlo, hhi⟩ := hitems a ha
      exact slot_eq_place hlo (by omega)
    · exact fun a ha hne => (hsucc ha).1 hne
    · intro a ha hmoved b hb heq
      have hbelow := (hsucc ha).2 hmoved
      have habove : level bits 4 (now + 1) now ≤ level bits 4 b.1 now := carry_le_level (hitems b hb).1
      rw [← heq] at hbelow
      exact absurd habove (Nat.not_le.2 hbelow)

include h in
/-- the list of the current instant -/
theorem current_list : lists (current ⟨lists, now % 2 ^ 32⟩) = (items.filter fun a => a.1 = now).map node := by
  rw [current_eq, h]
  simp only [place_eq_now (show 0 < 4 by decide)]

include h in
/-- taking that list out -/
theorem holds_take : Holds (clear lists (current ⟨lists, now % 2 ^ 32⟩)) node (fun a => place bits 4 a.1 now)
    (items.filter fun a => a.1 ≠ now) := by
  have hclear := holds_clear h (0, now % 2 ^ bits 0)
  simp only [ne_eq, place_eq_now (show 0 < 4 by decide)] at hclear
  rw [current_eq]
  exact hclear

end Shift

theorem eq_of_mem_due {l : List (ℕ × Event)} {n : ℕ} {a : ℕ × Event} (ha : a ∈ l.filter fun x => x.1 = n) : a.1 = n := by
  simpa using (List.mem_filter.1 ha).2

theorem mem_pending {s : St} {a : ℕ × Event} : a ∈ pending s ↔ a ∈ s.added ∧ s.ticks < a.1 := by
  simp [pending]

theorem Inv.timer_eq {start : BitVec 64} {s : St} (h : Inv start s) : s.timer = ⟨s.timer.lists, s.ticks % 2 ^ 32⟩ := by
  rw [← h.time]

/-- no timer is due at once -/
theorem Inv.current_empty {start : BitVec 64} {s : St} (h : Inv start s) : s.timer.lists (current s.timer) = [] := by
  have hlist := current_list h.lists
  rw [← h.timer_eq] at hlist
  rw [hlist, List.filter_eq_nil_iff.2, List.map_nil]
  intro a ha
  have := (mem_pending.1 ha).2
  simp only [decide_eq_true_eq]
  omega

theorem inv_timeout {start : BitVec 64} {s : St} (h : Inv start s) (event : Event) (time : BitVec 32) :
    Inv start (timeout s event time) := by
  unfold timeout
  by_cases hpos : time.toInt ≤ 0
  · rw [if_pos hpos]
    exact ⟨h.time, h.ahead, h.lists, h.thread, h.past, h.due, h.ordered, h.clock⟩
  · rw [if_neg hpos]
    have htime : 0 < time.toNat ∧ time.toNat < 2 ^ 31 := by
      rw [BitVec.toInt_eq_toNat_cond] at hpos
      have := time.isLt
      split_ifs at hpos <;> omega
    have hpending : pending { s with added := s.added ++ [(s.ticks + time.toNat, event)] } =
        pending s ++ [(s.ticks + time.toNat, event)] := by
      simp [pending, htime.1]
    have hexpire : (⟨(time.toNat + s.timer.time) % 2 ^ 32, event⟩ : Node) = node (s.ticks + time.toNat, event) := by
      rw [h.time, Nat.add_mod_mod, Nat.add_comm]
      rfl
    have hslot : slot (node (s.ticks + time.toNat, event)).expire s.timer.time =
        place bits 4 (s.ticks + time.toNat) s.ticks := by
      rw [h.time]
      exact slot_eq_place (by omega) (by omega)
    refine ⟨h.time, ?_, ?_, h.thread, h.past, ?_, h.ordered, h.clock⟩
    · intro a ha
      rcases List.mem_append.1 ha with ha | ha
      · exact h.ahead a ha
      · obtain rfl := List.mem_singleton.1 ha
        exact Nat.add_lt_add_left htime.2 _
    · change Holds (link s.timer.lists (slot _ s.timer.time) _) node _ (pending { s with added := _ })
      rw [hpending, hexpire, hslot]
      exact holds_link h.lists (s.ticks + time.toNat, event)
    · intro n hn
      have hlater : ¬ s.ticks + time.toNat = n := by
        change n ≤ s.ticks at hn
        omega
      rw [List.filter_append, ← h.due n hn, List.filter_cons_of_neg (by simpa using hlater), List.filter_nil,
        List.append_nil]
      rfl

/-- the second `timer_execute` takes the list of the current instant out, if it is not empty -/
theorem executeAfter_eq (s : St) : ∃ thread : Option (Phase × List Node),
    executeAfter s = { s with timer := { s.timer with lists := clear s.timer.lists (current s.timer) }, thread := thread } ∧
      (∀ nodes, thread ≠ some (.before, nodes)) ∧
      todo { s with thread := thread } = s.timer.lists (current s.timer) := by
  unfold executeAfter
  cases hlist : s.timer.lists (current s.timer) with
  | nil =>
    refine ⟨none, ?_, by simp, rfl⟩
    rw [List.isEmpty_nil, if_pos rfl, clear, ← hlist, Function.update_eq_self]
  | cons n rest =>
    refine ⟨some (.after, n :: rest), ?_, by simp, rfl⟩
    rw [List.isEmpty_cons, if_neg Bool.false_ne_true, take, hlist]

/-- when nothing is due any more -/
theorem inv_executeAfter {start : BitVec 64} {s : St} (h : Inv start s) (hthread : s.thread = some (.after, [])) :
    Inv start (executeAfter s) := by
  have hfired : fired { s with thread := none } = fired s := by simp [fired, todo, hthread]
  rw [executeAfter, h.current_empty, List.isEmpty_nil, if_pos rfl]
  exact ⟨h.time, h.ahead, h.lists, nofun, hfired ▸ h.past, hfired ▸ h.due, hfired ▸ h.ordered, h.clock⟩

/-- the timers that become due with the next tick -/
theorem events_due {s : St} :
    ((pending s).filter fun a => a.1 = s.ticks + 1).map (fun a => (s.ticks + 1, (node a).event)) =
      s.added.filter fun a => a.1 = s.ticks + 1 := by
  have hfilter : (pending s).filter (fun a => a.1 = s.ticks + 1) = s.added.filter fun a => a.1 = s.ticks + 1 := by
    rw [pending, List.filter_filter]
    refine List.filter_congr fun a _ => ?_
    by_cases ha : a.1 = s.ticks + 1
    · simp [ha]
    · simp [ha]
  rw [hfilter]
  refine (List.map_congr_left fun a ha => ?_).trans (List.map_id _)
  rw [← eq_of_mem_due ha]
  rfl

theorem pending_succ (s : St) : (pending s).filter (fun a => a.1 ≠ s.ticks + 1) =
    s.added.filter fun a => s.ticks + 1 < a.1 := by
  rw [pending, List.filter_filter]
  refine List.filter_congr fun a _ => ?_
  simp only [ne_eq, ← Bool.decide_and, decide_eq_decide]
  omega

/-- **A tick**: `timer_update` up to its first message. -/
theorem inv_executeBefore {start : BitVec 64} {s : St} (h : Inv start s) (hthread : s.thread = none) (owed : ℕ)
    (howed : s.owed = owed + 1) : Inv start (executeBefore { s with owed := owed }) := by
  have hitems : ∀ a ∈ pending s, s.ticks < a.1 ∧ a.1 < s.ticks + 2 ^ 31 := by
    intro a ha
    obtain ⟨hadded, hlt⟩ := mem_pending.1 ha
    exact ⟨hlt, h.ahead a hadded⟩
  obtain ⟨htime, hlists⟩ := holds_shift h.lists hitems
  rw [← h.timer_eq] at htime hlists
  have hshifted : timerShift s.timer = ⟨(timerShift s.timer).lists, (s.ticks + 1) % 2 ^ 32⟩ := by rw [← htime]
  have hlist := current_list hlists
  have htake := holds_take hlists
  rw [← hshifted] at hlist htake
  rw [pending_succ] at htake
  have hbefore : executeBefore { s with owed := owed } =
      executeAfter { s with owed := owed, timer := timerShift s.timer, ticks := s.ticks + 1 } := by
    rw [executeBefore]
    change (if (s.timer.lists (current s.timer)).isEmpty then _ else _) = _
    rw [h.current_empty, List.isEmpty_nil, if_pos rfl]
  obtain ⟨thread, heq, hphase, htodo⟩ := executeAfter_eq
    { s with owed := owed, timer := timerShift s.timer, ticks := s.ticks + 1 }
  -- what was fired before, and the timers that have become due
  have hout : fired s = s.out := by simp [fired, todo, hthread]
  have hfired : fired { s with owed := owed, timer := ⟨clear (timerShift s.timer).lists (current (timerShift s.timer)),
      (timerShift s.timer).time⟩, ticks := s.ticks + 1, thread := thread } =
      fired s ++ s.added.filter fun a => a.1 = s.ticks + 1 := by
    rw [hout, ← events_due, fired]
    change s.out ++ (todo { s with thread := thread, owed := owed, timer := timerShift s.timer, ticks := s.ticks + 1 }).map
      _ = _
    rw [htodo, hlist, List.map_map]
    rfl
  rw [hbefore, heq]
  refine ⟨htime, fun a ha => ?_, htake, hphase, ?_, ?_, ?_, ?_⟩
  · exact (h.ahead a ha).trans (by change _ < s.ticks + 1 + 2 ^ 31; omega)
  · rw [hfired]
    intro x hx
    rcases List.mem_append.1 hx with hx | hx
    · exact (h.past x hx).trans (Nat.le_succ _)
    · exact (eq_of_mem_due hx).le
  · intro n hn
    rw [hfired, List.filter_append, List.filter_filter]
    rcases Nat.eq_or_lt_of_le hn with rfl | hlt
    · rw [List.filter_eq_nil_iff.2, List.nil_append]
      · refine List.filter_congr fun a _ => ?_
        simp
      · intro x hx
        have := h.past x hx
        simp only [decide_eq_true_eq]
        omega
    · have hnone : s.added.filter (fun a => decide (a.1 = n) && decide (a.1 = s.ticks + 1)) = [] := by
        rw [List.filter_eq_nil_iff]
        intro a _
        change n < s.ticks + 1 at hlt
        simp only [← Bool.decide_and, decide_eq_true_eq]
        omega
      rw [hnone, List.append_nil]
      exact h.due n (Nat.le_of_lt_succ hlt)
  · rw [hfired, List.pairwise_append]
    refine ⟨h.ordered, ?_, ?_⟩
    · refine List.pairwise_of_forall_mem_list fun x hx y hy => ?_
      exact ((eq_of_mem_due hx).trans (eq_of_mem_due hy).symm).le
    · intro x hx y hy
      calc x.1 ≤ s.ticks := h.past x hx
        _ ≤ s.ticks + 1 := Nat.le_succ _
        _ = y.1 := (eq_of_mem_due hy).symm
  · have hclock := h.clock
    rw [howed] at hclock
    rw [hclock]
    change _ = start + BitVec.ofNat 64 (s.ticks + 1 + owed)
    rw [Nat.add_right_comm, Nat.add_assoc]

theorem inv_step (start : BitVec 64) (s : St) (o : Op) (h : Inv start s) : Inv start (step s o) := by
  cases o with
  | timeout event time => exact inv_timeout h event time
  | work cp =>
    simp only [step, work]
    cases hthread : s.thread with
    | none =>
      cases howed : s.owed with
      | zero =>
        simp only [updatetime]
        have hclock := h.clock
        by_cases hback : cp < s.currentPoint
        · rw [if_pos hback]
          exact ⟨h.time, h.ahead, h.lists, h.thread, h.past, h.due, h.ordered, h.clock⟩
        · rw [if_neg hback]
          refine ⟨h.time, h.ahead, h.lists, h.thread, h.past, h.due, h.ordered, ?_⟩
          rw [howed, Nat.add_zero] at hclock
          rw [hclock, BitVec.add_assoc, ← BitVec.ofNat_add]
      | succ owed => exact inv_executeBefore h hthread owed howed
    | some x =>
      obtain ⟨phase, nodes⟩ := x
      cases phase with
      | before => exact absurd hthread (h.thread nodes)
      | after =>
        cases nodes with
        | nil => exact inv_executeAfter h hthread
        | cons n rest =>
          have hfired : fired { s with out := s.out ++ [(s.ticks, n.event)], thread := some (.after, rest) } = fired s := by
            simp [fired, todo, hthread]
          exact ⟨h.time, h.ahead, h.lists, nofun, hfired ▸ h.past, hfired ▸ h.due, hfired ▸ h.ordered, h.clock⟩

theorem inv_init (current currentPoint : BitVec 64) : Inv current (init current currentPoint) :=
  ⟨rfl, nofun, fun _ => rfl, nofun, nofun, fun _ _ => rfl, .nil, (BitVec.add_zero current).symm⟩

def reached (current currentPoint : BitVec 64) (ops : List Op) : St := run step (init current currentPoint) ops

/-- **Timers fire on time.** In every interleaving of threads that set timers with the timer thread: the messages of a tick,
pushed or about to be, are those of the timers that are due at it, in the order in which they were added; no message is
pushed ahead of its tick or of an earlier one; and `skynet_now` counts the ticks done or owed, in 64 bits. -/
theorem timers_on_time (current currentPoint : BitVec 64) (ops : List Op) :
    (∀ n ≤ (reached current currentPoint ops).ticks,
      (fired (reached current currentPoint ops)).filter (fun x => x.1 = n) =
        (reached current currentPoint ops).added.filter fun x => x.1 = n) ∧
      (∀ x ∈ fired (reached current currentPoint ops), x.1 ≤ (reached current currentPoint ops).ticks) ∧
      (fired (reached current currentPoint ops)).Pairwise (fun x y => x.1 ≤ y.1) ∧
      (reached current currentPoint ops).current = current +
        BitVec.ofNat 64 ((reached current currentPoint ops).ticks + (reached current currentPoint ops).owed) := by
  have h := run_inv step (Inv current) (inv_step current) (init current currentPoint) ops (inv_init current currentPoint)
  exact ⟨h.due, h.past, h.ordered, h.clock⟩

end OwliesServer.SkynetTimer
