/-
The Redis keys of user accounts: `get_user_account_redis_item_key` of Src/DBObject/dbobjuseraccountlib.c.

A call seeds the generator with the clock's second, copies the prefix into a fresh block of 27 bytes, draws 22 characters
behind it, overwrites four of them with dashes and pushes the block as a C string.
- `rand seed n` is the n-th draw after `srand(seed)`.
- `FIX_HASH_KEY_PREFIX` is an array of 5 for "redis", without a terminator: `strcpy` copies on from the memory behind the
  array (`afterArray`) up to its first NUL.
- The 27 characters fill the block: the pushed string ends where the memory behind the block (`behind`) lets it.

- `item_key_wellFormed_iff`: when the pushed string is the key alone.
- `item_keys_wellFormed_distinct_iff`: over sequences of calls, the keys are well formed and distinct exactly when every
  call finds a NUL at offset 27 and no two calls draw the same eighteen characters.
- `keyText_of_time_eq`: two calls in one second draw the same.
-/
import Mathlib.Data.List.GetD
import Mathlib.Data.List.TakeWhile
import OwliesServer.Core.CString
import OwliesServer.Wire.ClientFrame

namespace OwliesServer.AccountKey

open OwliesServer.CChar OwliesServer.CString OwliesServer.ClientFrame

/-! ## Model -/

def HASH_KEY_LEN : ℕ := 27

def KEY_CHAR_POOL_LEN : ℕ := 62

def KEY_CHAR_POOL : Bytes := ascii "abcdefghijklmnopqrstuvwxyzABCDEFGHIJKLMNOPQRSTUVWXYZ0123456789"

def FIX_HASH_KEY_PREFIX : Bytes := ascii "redis"

/-- what a call meets: the clock's second, the block `malloc` returns, the memory behind it and behind the prefix array -/
structure Call where
  time : ℕ
  block : Vector Byte HASH_KEY_LEN
  behind : Bytes
  afterArray : Bytes
deriving DecidableEq

/-- `srand` takes an unsigned int -/
def Call.seed (c : Call) : ℕ := c.time % 2 ^ 32

/-- `KEY_CHAR_POOL[rand() % KEY_CHAR_POOL_LEN]` -/
def poolChar (draw : ℕ) : Byte := KEY_CHAR_POOL.getD (draw % KEY_CHAR_POOL_LEN) 0#8

def dash : Byte := 45#8

/-- `get_user_account_redis_item_key` -/
def getUserAccountRedisItemKey (rand : ℕ → ℕ → ℕ) (c : Call) : Option Bytes := do
  let src ← cString (FIX_HASH_KEY_PREFIX ++ c.afterArray)
  let m ← strcpy ⟨c.block.toList ++ c.behind, []⟩ src
  let key := fill m.bytes 5 22 fun k => poolChar (rand c.seed k)
  cString ((((key.set 20 dash).set 14 dash).set 9 dash).set 5 dash)

/-! ## The key -/

/-- redis-xxx-xxxx-xxxxx-xxxxxx with alphanumeric x -/
def WellFormed (key : Bytes) : Prop :=
  ∃ x3 x4 x5 x6 : Bytes, x3.length = 3 ∧ x4.length = 4 ∧ x5.length = 5 ∧ x6.length = 6 ∧
    (∀ x ∈ x3 ++ x4 ++ x5 ++ x6, x ∈ KEY_CHAR_POOL) ∧
    key = ascii "redis" ++ dash :: x3 ++ dash :: x4 ++ dash :: x5 ++ dash :: x6

/-- the places, counted from the first draw, that a dash overwrites -/
def dashes : List ℕ := [0, 4, 9, 15]

/-- the character drawn k-th, or the dash that overwrites it -/
def drawn (rand : ℕ → ℕ → ℕ) (seed k : ℕ) : Byte := if k ∈ dashes then dash else poolChar (rand seed k)

/-- the 27 characters that a call stores -/
def keyText (rand : ℕ → ℕ → ℕ) (c : Call) : Bytes := FIX_HASH_KEY_PREFIX ++ (List.range 22).map (drawn rand c.seed)

theorem keyText_of_time_eq (rand : ℕ → ℕ → ℕ) {c d : Call} (h : c.time = d.time) : keyText rand c = keyText rand d := by
  simp [keyText, Call.seed, h]

@[simp] theorem length_fixed : FIX_HASH_KEY_PREFIX.length = 5 := by simp [FIX_HASH_KEY_PREFIX, ascii]

theorem nul_notMem_fixed : 0#8 ∉ FIX_HASH_KEY_PREFIX := by simp [FIX_HASH_KEY_PREFIX, ascii]

theorem nodup_pool : KEY_CHAR_POOL.Nodup := by decide +kernel

theorem length_pool : KEY_CHAR_POOL.length = KEY_CHAR_POOL_LEN := by decide +kernel

theorem draw_lt (draw : ℕ) : draw % KEY_CHAR_POOL_LEN < KEY_CHAR_POOL.length := by
  rw [length_pool]
  exact Nat.mod_lt _ (by decide)

theorem poolChar_eq_getElem (draw : ℕ) : poolChar draw = KEY_CHAR_POOL.get ⟨_, draw_lt draw⟩ :=
  List.getD_eq_getElem _ _ (draw_lt draw)

theorem poolChar_mem (draw : ℕ) : poolChar draw ∈ KEY_CHAR_POOL := by
  rw [poolChar_eq_getElem]
  exact List.get_mem _ _

theorem poolChar_eq_iff (m n : ℕ) : poolChar m = poolChar n ↔ m % KEY_CHAR_POOL_LEN = n % KEY_CHAR_POOL_LEN := by
  rw [poolChar_eq_getElem, poolChar_eq_getElem]
  exact nodup_pool.getElem_inj_iff

theorem nul_notMem_keyText (rand : ℕ → ℕ → ℕ) (c : Call) : 0#8 ∉ keyText rand c := by
  simp only [keyText, List.mem_append, List.mem_map, not_or, not_exists, not_and]
  refine ⟨nul_notMem_fixed, ?_⟩
  intro k _ hk
  unfold drawn at hk
  split_ifs at hk
  · exact absurd hk (by decide)
  · exact absurd (hk ▸ poolChar_mem _) (show 0#8 ∉ KEY_CHAR_POOL by decide +kernel)

@[simp] theorem length_keyText (rand : ℕ → ℕ → ℕ) (c : Call) : (keyText rand c).length = HASH_KEY_LEN := by
  simp only [keyText, List.length_append, List.length_map, List.length_range, length_fixed, HASH_KEY_LEN]

theorem keyText_wellFormed (rand : ℕ → ℕ → ℕ) (c : Call) : WellFormed (keyText rand c) := by
  refine ⟨[1, 2, 3].map (drawn rand c.seed), [5, 6, 7, 8].map (drawn rand c.seed),
    [10, 11, 12, 13, 14].map (drawn rand c.seed), [16, 17, 18, 19, 20, 21].map (drawn rand c.seed), rfl, rfl, rfl, rfl,
    ?_, rfl⟩
  intro x hx
  simp only [← List.map_append, List.mem_map] at hx
  obtain ⟨k, hk, rfl⟩ := hx
  have hk' : k ∉ dashes := by
    revert k
    decide
  rw [drawn, if_neg hk']
  exact poolChar_mem _

theorem length_of_wellFormed {key : Bytes} (h : WellFormed key) : key.length = HASH_KEY_LEN := by
  obtain ⟨x3, x4, x5, x6, h3, h4, h5, h6, -, rfl⟩ := h
  have hfixed : (ascii "redis").length = 5 := length_fixed
  simp only [List.length_append, List.length_cons, hfixed, h3, h4, h5, h6, HASH_KEY_LEN]

/-! ## One call -/

/-- the stores behind the prefix -/
theorem stored_eq (rand : ℕ → ℕ → ℕ) (c : Call) (rest : Bytes) (h : 22 ≤ rest.length) :
    ((((fill (FIX_HASH_KEY_PREFIX ++ rest) 5 22 fun k => poolChar (rand c.seed k)).set 20 dash).set 14 dash).set 9
      dash).set 5 dash = keyText rand c ++ rest.drop 22 := by
  rw [fill_eq _ _ _ _ (by rw [List.length_append, length_fixed]; omega), ← length_fixed, List.take_left, List.drop_length_add_append]
  rfl

theorem Call.length_block (c : Call) : c.block.toList.length = 27 := by
  rw [Vector.length_toList]
  rfl

/-- what stands behind the key's place once `strcpy` has copied the prefix and the bytes behind its array -/
def afterKey (c : Call) (junk : Bytes) : Bytes :=
  (junk ++ 0#8 :: (c.block.toList ++ c.behind).drop (junk.length + 6)).drop 22

/-- a call, when the copied bytes fit into the mapped memory and when they do not -/
theorem item_key_spec (rand : ℕ → ℕ → ℕ) (c : Call) (junk : Bytes) (hj : cString c.afterArray = some junk) :
    (junk.length < 22 + c.behind.length →
      getUserAccountRedisItemKey rand c = cString (keyText rand c ++ afterKey c junk)) ∧
    (22 + c.behind.length ≤ junk.length → getUserAccountRedisItemKey rand c = none) := by
  have hblock := c.length_block
  simp only [getUserAccountRedisItemKey, cString_append _ _ nul_notMem_fixed, hj, Option.map_some, Option.bind_eq_bind,
    Option.bind_some, strcpy_spec, List.length_append, length_fixed, hblock]
  refine ⟨?_, ?_⟩
  · intro hfit
    rw [if_pos (by omega), Option.bind_some]
    have hrest : 22 ≤ (junk ++ 0#8 :: (c.block.toList ++ c.behind).drop (junk.length + 6)).length := by
      simp only [List.length_append, List.length_cons, List.length_drop, hblock]
      omega
    rw [List.append_assoc, show 5 + junk.length + 1 = junk.length + 6 by omega, stored_eq rand c _ hrest, afterKey]
  · intro hbig
    rw [if_neg (by omega)]
    rfl

/-- a NUL stands at offset 27 when the key is pushed: one that was there, or the terminator of a prefix copy that ran to
the end of the block -/
def Terminated (c : Call) : Prop :=
  ∃ junk, cString c.afterArray = some junk ∧
    (junk.length < 22 ∧ c.behind.head? = some 0#8 ∨ junk.length = 22 ∧ c.behind ≠ [])

theorem afterKey_of_lt (c : Call) (junk : Bytes) (h : junk.length < 22) : afterKey c junk = c.behind := by
  have hblock := c.length_block
  obtain ⟨k, hk⟩ : ∃ k, 22 = junk.length + (k + 1) := ⟨21 - junk.length, by omega⟩
  rw [afterKey, hk, List.drop_length_add_append, List.drop_succ_cons, List.drop_drop,
    show junk.length + 6 + k = c.block.toList.length by omega, List.drop_left]

theorem head_afterKey_of_gt (c : Call) {junk : Bytes} (hj : cString c.afterArray = some junk) (h : 22 < junk.length) :
    (afterKey c junk).head? ≠ some 0#8 := by
  have hnul : 0#8 ∉ junk := by
    unfold cString at hj
    split_ifs at hj
    cases hj
    intro hmem
    simpa using List.mem_takeWhile_imp hmem
  rw [afterKey, List.head?_drop, List.getElem?_append_left h, List.getElem?_eq_getElem h]
  intro he
  exact hnul (Option.some.inj he ▸ List.getElem_mem h)

theorem head_afterKey_iff (c : Call) {junk : Bytes} (hj : cString c.afterArray = some junk)
    (hfit : junk.length < 22 + c.behind.length) : (afterKey c junk).head? = some 0#8 ↔ Terminated c := by
  have hterm : Terminated c ↔
      (junk.length < 22 ∧ c.behind.head? = some 0#8 ∨ junk.length = 22 ∧ c.behind ≠ []) := by
    simp [Terminated, hj]
  rw [hterm]
  obtain hlt | heq | hgt := Nat.lt_trichotomy junk.length 22
  · rw [afterKey_of_lt c junk hlt]
    simp [hlt, hlt.ne]
  · have hbehind : c.behind ≠ [] := List.ne_nil_of_length_pos (by omega)
    have hhead : (afterKey c junk).head? = some 0#8 := by
      rw [afterKey, List.head?_drop, List.getElem?_append_right (by omega), heq]
      rfl
    simp [hhead, heq, hbehind]
  · have := head_afterKey_of_gt c hj hgt
    simp [this, hgt.ne', hgt.not_gt]

/-- **One call.** The pushed string is a well-formed key exactly when a NUL stands behind the block's 27 characters. -/
theorem item_key_wellFormed_iff (rand : ℕ → ℕ → ℕ) (c : Call) :
    (∃ key, getUserAccountRedisItemKey rand c = some key ∧ WellFormed key) ↔ Terminated c := by
  cases hj : cString c.afterArray with
  | none =>
    have hnone : getUserAccountRedisItemKey rand c = none := by
      rw [getUserAccountRedisItemKey, cString_append _ _ nul_notMem_fixed, hj]
      rfl
    simp [hnone, Terminated, hj]
  | some junk =>
    obtain ⟨hok, hfault⟩ := item_key_spec rand c junk hj
    by_cases hfit : junk.length < 22 + c.behind.length
    · rw [hok hfit, ← head_afterKey_iff c hj hfit, ← cString_append_iff _ _ (nul_notMem_keyText rand c)]
      apply Iff.intro
      · intro ⟨key, hkey, hwf⟩
        -- a longer string does not have 27 characters
        rw [cString_append _ _ (nul_notMem_keyText rand c)] at hkey ⊢
        obtain ⟨more, hmore, rfl⟩ := Option.map_eq_some_iff.1 hkey
        have hlen := length_of_wellFormed hwf
        rw [List.length_append, length_keyText] at hlen
        obtain rfl : more = [] := List.length_eq_zero_iff.1 (by omega)
        simp [hmore]
      · intro h
        exact ⟨_, h, keyText_wellFormed rand c⟩
    · rw [hfault (by omega)]
      have hnot : ¬ Terminated c := by
        intro ⟨junk', hj', h⟩
        obtain rfl : junk = junk' := Option.some.inj (hj.symm.trans hj')
        obtain ⟨hlt, -⟩ | ⟨heq, hb⟩ := h
        · omega
        · have := List.length_pos_iff.2 hb
          omega
      simp [hnot]

theorem item_key_of_terminated (rand : ℕ → ℕ → ℕ) {c : Call} (h : Terminated c) :
    getUserAccountRedisItemKey rand c = some (keyText rand c) := by
  obtain ⟨junk, hj, hcase⟩ := h
  have hfit : junk.length < 22 + c.behind.length := by
    obtain ⟨hlt, -⟩ | ⟨heq, hb⟩ := hcase
    · omega
    · have := List.length_pos_iff.2 hb
      omega
  rw [(item_key_spec rand c junk hj).1 hfit, cString_append_iff _ _ (nul_notMem_keyText rand c),
    head_afterKey_iff c hj hfit]
  exact ⟨junk, hj, hcase⟩

/-! ## Sequences of calls -/

/-- the two calls draw different characters at a place that no dash overwrites -/
def DrawsDiffer (rand : ℕ → ℕ → ℕ) (c d : Call) : Prop :=
  ∃ k < 22, k ∉ dashes ∧ rand c.seed k % KEY_CHAR_POOL_LEN ≠ rand d.seed k % KEY_CHAR_POOL_LEN

theorem keyText_ne_iff (rand : ℕ → ℕ → ℕ) (c d : Call) : keyText rand c ≠ keyText rand d ↔ DrawsDiffer rand c d := by
  have hdrawn : ∀ k, drawn rand c.seed k = drawn rand d.seed k ↔
      (k ∉ dashes → rand c.seed k % KEY_CHAR_POOL_LEN = rand d.seed k % KEY_CHAR_POOL_LEN) := by
    intro k
    unfold drawn
    split_ifs with hk
    · simp [hk]
    · simp [hk, poolChar_eq_iff]
  simp only [keyText, ne_eq, List.append_right_inj, List.map_inj_left, List.mem_range, hdrawn, DrawsDiffer]
  push Not
  rfl

/-- every call pushes a well-formed key, and no two push the same -/
def WellFormedDistinct (rand : ℕ → ℕ → ℕ) (calls : List Call) : Prop :=
  (∀ c ∈ calls, ∃ key, getUserAccountRedisItemKey rand c = some key ∧ WellFormed key) ∧
    calls.Pairwise fun c d => getUserAccountRedisItemKey rand c ≠ getUserAccountRedisItemKey rand d

/-- **Sequences of calls.** The keys are well formed and pairwise distinct exactly when every call finds a NUL behind its
block and any two calls draw different characters; two calls in one second never do (`keyText_of_time_eq`). -/
theorem item_keys_wellFormed_distinct_iff (rand : ℕ → ℕ → ℕ) (calls : List Call) :
    WellFormedDistinct rand calls ↔ (∀ c ∈ calls, Terminated c) ∧ calls.Pairwise (DrawsDiffer rand) := by
  simp only [WellFormedDistinct, item_key_wellFormed_iff]
  apply and_congr_right
  intro hterm
  apply List.Pairwise.iff_of_mem
  intro c d hc hd
  rw [item_key_of_terminated rand (hterm c hc), item_key_of_terminated rand (hterm d hd), ne_eq, Option.some.injEq]
  exact keyText_ne_iff rand c d

/-- a call in a zeroed block with zeroed memory behind it -/
def zeroedCall (time : ℕ) : Call := ⟨time, Vector.replicate HASH_KEY_LEN 0#8, [0#8], [0#8]⟩

theorem zeroedCall_terminated (time : ℕ) : Terminated (zeroedCall time) := ⟨[], rfl, Or.inl ⟨by decide, rfl⟩⟩

/-- two accounts stored in one second get one key, whatever the generator; and without a NUL behind the block the pushed
string is longer than a key -/
theorem same_second_same_key :
    (∀ rand : ℕ → ℕ → ℕ, ∃ key, getUserAccountRedisItemKey rand (zeroedCall 1500000000) = some key ∧
      getUserAccountRedisItemKey rand { zeroedCall 1500000000 with block := Vector.replicate HASH_KEY_LEN 0x41#8 } =
        some key) ∧
    ∃ key, getUserAccountRedisItemKey (fun _ _ => 0) { zeroedCall 0 with behind := [0x41#8, 0#8] } = some key ∧
      key.length = 28 := by
  refine ⟨?_, ?_⟩
  · intro rand
    refine ⟨_, item_key_of_terminated rand (zeroedCall_terminated 1500000000), ?_⟩
    refine (item_key_of_terminated rand ⟨[], rfl, Or.inl ⟨by decide, rfl⟩⟩).trans ?_
    exact congrArg some (keyText_of_time_eq rand rfl)
  · refine ⟨_, rfl, ?_⟩
    decide +kernel

end OwliesServer.AccountKey
