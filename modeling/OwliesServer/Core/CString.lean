/-
NUL-terminated strings in raw memory.

`Memory` is a stretch of mapped memory from the start of a block on, across the block's end, together with the offsets
written so far. The block's own size is not part of it: C's string functions do not know it. An access behind the
mapped stretch faults, for which the operations answer `none`.
- `CStr`: the bytes of a C string, none of them NUL;
- `strlen`, `write`, `strcpy`, `strcat`: as in C;
- `strcpy_spec`, `strcat_spec`, `strcatAll_spec`: where the bytes and the (last) terminator go, for every previous content;
- `fill`: a loop that stores one byte after the other.
-/
import OwliesServer.Core.CChar

namespace OwliesServer.CString

open OwliesServer.CChar

/-- the bytes of a C string -/
structure CStr where
  bytes : Bytes
  nul_free : 0#8 ∉ bytes
deriving DecidableEq

theorem CStr.ext_bytes {s t : CStr} (h : s.bytes = t.bytes) : s = t := by
  cases s
  cases t
  cases h
  rfl

structure Memory where
  bytes : Bytes
  writes : List ℕ
deriving DecidableEq, Repr

/-! ## Operations -/

/-- the offset of the first NUL -/
def strlen (m : Memory) : Option ℕ := m.bytes.idxOf? 0#8

/-- store bytes from an offset on -/
def write (m : Memory) (off : ℕ) (bs : Bytes) : Option Memory :=
  if off + bs.length ≤ m.bytes.length then
    some ⟨m.bytes.take off ++ bs ++ m.bytes.drop (off + bs.length), m.writes ++ List.range' off bs.length⟩
  else none

def strcpy (m : Memory) (src : Bytes) : Option Memory := write m 0 (src ++ [0#8])

def strcat (m : Memory) (src : Bytes) : Option Memory := do
  let n ← strlen m
  write m n (src ++ [0#8])

/-- one `strcat` after the other -/
def strcatAll (m : Memory) (srcs : List Bytes) : Option Memory := srcs.foldlM strcat m

/-- `for (i = p; i < p + n; ++i) mem[i] = f(i - p)` -/
def fill (l : Bytes) (p n : ℕ) (f : ℕ → Byte) : Bytes := (List.range n).foldl (fun l k => l.set (p + k) (f k)) l

/-! ## What the operations do -/

theorem exists_split_of_mem {l : Bytes} (h : 0#8 ∈ l) : ∃ s rest, 0#8 ∉ s ∧ l = s ++ 0#8 :: rest := by
  obtain ⟨s, rest, rfl, hs⟩ := List.eq_append_cons_of_mem h
  exact ⟨s, rest, hs, rfl⟩

theorem strlen_of_split {m : Memory} {s rest : Bytes} (hs : 0#8 ∉ s) (h : m.bytes = s ++ 0#8 :: rest) :
    strlen m = some s.length := by
  rw [strlen, List.idxOf?_eq_some_iff, h]
  refine ⟨by simp, by simp, ?_⟩
  intro j hj
  rw [List.getElem_append_left hj]
  intro he
  exact hs (he ▸ List.getElem_mem hj)

theorem strlen_eq_none {m : Memory} (h : 0#8 ∉ m.bytes) : strlen m = none := by
  rw [strlen, List.idxOf?_eq_none_iff]
  exact h

theorem strcpy_spec (m : Memory) (src : Bytes) :
    strcpy m src = if src.length < m.bytes.length then
      some ⟨src ++ 0#8 :: m.bytes.drop (src.length + 1), m.writes ++ List.range' 0 (src.length + 1)⟩ else none := by
  simp only [strcpy, write, List.length_append, List.length_singleton, Nat.zero_add, List.take_zero, List.nil_append,
    List.append_assoc, List.singleton_append, Nat.lt_iff_add_one_le]

/-- the appended bytes overwrite the old terminator and what stands behind it -/
theorem strcat_spec {m : Memory} {s rest : Bytes} (hs : 0#8 ∉ s) (h : m.bytes = s ++ 0#8 :: rest) (src : Bytes) :
    strcat m src = if src.length ≤ rest.length then
      some ⟨s ++ src ++ 0#8 :: rest.drop src.length, m.writes ++ List.range' s.length (src.length + 1)⟩ else none := by
  have hlen : m.bytes.length = s.length + (rest.length + 1) := by simp [h]
  simp only [strcat, strlen_of_split hs h, Option.bind_eq_bind, Option.bind_some, write, List.length_append,
    List.length_singleton, hlen]
  by_cases hle : src.length ≤ rest.length
  · rw [if_pos hle, if_pos (by omega), h]
    have hdrop : (s ++ 0#8 :: rest).drop (s.length + (src.length + 1)) = rest.drop src.length := by
      rw [List.drop_append, List.drop_of_length_le (by omega)]
      simp
    rw [List.take_left, hdrop]
    simp
  · rw [if_neg hle, if_neg (by omega)]

/-- **A sequence of appends.** The text grows behind what stood before the first NUL; together the appends write every
offset from that NUL up to the last terminator, and no other. -/
theorem strcatAll_spec (srcs : List Bytes) (hsrcs : ∀ x ∈ srcs, 0#8 ∉ x) (m : Memory) (s rest : Bytes) (hs : 0#8 ∉ s)
    (h : m.bytes = s ++ 0#8 :: rest) :
    (srcs.flatten.length ≤ rest.length → ∃ m', strcatAll m srcs = some m' ∧
      m'.bytes = s ++ srcs.flatten ++ 0#8 :: rest.drop srcs.flatten.length ∧
      ∀ o, o ∈ m'.writes ↔ o ∈ m.writes ∨ (srcs ≠ [] ∧ s.length ≤ o ∧ o ≤ s.length + srcs.flatten.length)) ∧
    (rest.length < srcs.flatten.length → strcatAll m srcs = none) := by
  induction srcs generalizing m s rest with
  | nil => exact ⟨fun _ => ⟨m, rfl, by simp [h], by simp⟩, fun hlt => absurd hlt (by simp)⟩
  | cons x srcs ih =>
    have hx : 0#8 ∉ x := hsrcs x List.mem_cons_self
    have hsx : 0#8 ∉ s ++ x := by simp [hs, hx]
    have hstep := strcat_spec hs h x
    simp only [strcatAll, List.foldlM_cons, Option.bind_eq_bind, List.flatten_cons, List.length_append]
    by_cases hle : x.length ≤ rest.length
    · -- the first append fits: the others start from its terminator
      rw [if_pos hle] at hstep
      rw [hstep]
      obtain ⟨hok, hbad⟩ := ih (fun y hy => hsrcs y (List.mem_cons_of_mem x hy))
        ⟨s ++ x ++ 0#8 :: rest.drop x.length, m.writes ++ List.range' s.length (x.length + 1)⟩
        (s ++ x) (rest.drop x.length) hsx rfl
      rw [List.length_drop] at hok hbad
      refine ⟨?_, ?_⟩
      · intro hfit
        obtain ⟨m', hm', hbytes, hwrites⟩ := hok (by omega)
        refine ⟨m', hm', ?_, ?_⟩
        · rw [hbytes, List.drop_drop, List.append_assoc s]
        · intro o
          rw [hwrites]
          simp only [List.mem_append, List.mem_range'_1, List.length_append, ne_eq, reduceCtorEq, not_false_eq_true,
            true_and, or_assoc]
          apply or_congr_right
          by_cases hnil : srcs = []
          · simp only [hnil, not_true_eq_false, false_and, or_false, List.flatten_nil, List.length_nil]
            omega
          · simp only [hnil, not_false_eq_true, true_and]
            omega
      · intro hlt
        exact hbad (by omega)
    · rw [if_neg hle] at hstep
      rw [hstep]
      exact ⟨fun hfit => absurd hfit (by omega), fun _ => rfl⟩

theorem fill_eq (l : Bytes) (p n : ℕ) (f : ℕ → Byte) (h : p + n ≤ l.length) :
    fill l p n f = l.take p ++ (List.range n).map f ++ l.drop (p + n) := by
  induction n with
  | zero => simp [fill]
  | succ n ih =>
    have hlen : (l.take p ++ (List.range n).map f).length = p + n := by simp; omega
    have hdrop : l.drop (p + n) = l[p + n] :: l.drop (p + n + 1) := List.drop_eq_getElem_cons (by omega)
    -- the loop body overwrites the first byte not yet stored
    calc fill l p (n + 1) f
        = (fill l p n f).set (p + n) (f n) := by simp [fill, List.range_succ]
      _ = (l.take p ++ (List.range n).map f ++ l.drop (p + n)).set (p + n) (f n) := by rw [ih (by omega)]
      _ = l.take p ++ (List.range n).map f ++ (f n :: l.drop (p + n + 1)) := by
          rw [List.set_append_right _ _ (by omega), hlen, Nat.sub_self, hdrop, List.set_cons_zero]
      _ = l.take p ++ (List.range (n + 1)).map f ++ l.drop (p + (n + 1)) := by
          simp [List.range_succ, Nat.add_assoc]

end OwliesServer.CString
