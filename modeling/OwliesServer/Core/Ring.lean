/-
Ring buffers that grow. Elements are written at `tail` and taken at `head`; an index that reaches the capacity starts
again at 0. A write that makes the two meet has filled the buffer, and the elements move to a bigger one, in order.
One slot is therefore always free, and `head = tail` means that the buffer is empty.

- `Ring`: the bounds of the two indices are part of the type.
- `contents`: the elements from head to tail.
- `contents_push`, `pop_eq`: the buffer is a first-in-first-out queue, whatever capacity it starts with and whatever it
  grows to. Slots outside the contents are never read.
-/
import Mathlib.Tactic

namespace OwliesServer

/-- `slot` is the memory of the buffer; only the indices below `cap` exist -/
structure Ring (α : Type) where
  cap : ℕ
  head : ℕ
  tail : ℕ
  slot : ℕ → α
  head_lt : head < cap
  tail_lt : tail < cap

namespace Ring

variable {α : Type}

/-! ## Operations -/

def empty (cap : ℕ) (fresh : ℕ → α) (h : 0 < cap) : Ring α := ⟨cap, 0, 0, fresh, h, h⟩

/-- the index after `i` -/
def next (cap i : ℕ) : ℕ := if cap ≤ i + 1 then 0 else i + 1

theorem next_lt {cap i : ℕ} (h : 0 < cap) : next cap i < cap := by
  unfold next
  split_ifs <;> omega

/-- how far a buffer of each capacity grows -/
structure Growth where
  size : ℕ → ℕ
  lt_size : ∀ c, 0 < c → c < size c

/-- the number of elements -/
def length (r : Ring α) : ℕ := if r.head ≤ r.tail then r.tail - r.head else r.tail + r.cap - r.head

/-- all `cap` slots move to the front of a bigger buffer; `fresh` is the memory behind them -/
def expand (g : Growth) (fresh : ℕ → α) (r : Ring α) : Ring α where
  cap := g.size r.cap
  head := 0
  tail := r.cap
  slot := fun i => if i < r.cap then r.slot ((r.head + i) % r.cap) else fresh i
  head_lt := lt_of_le_of_lt (Nat.zero_le _) (g.lt_size _ (lt_of_le_of_lt (Nat.zero_le _) r.head_lt))
  tail_lt := g.lt_size _ (lt_of_le_of_lt (Nat.zero_le _) r.head_lt)

/-- the element is written, and nothing else happens -/
def write (r : Ring α) (x : α) : Ring α :=
  { r with
    slot := Function.update r.slot r.tail x
    tail := next r.cap r.tail
    tail_lt := next_lt (lt_of_le_of_lt (Nat.zero_le _) r.head_lt) }

def push (g : Growth) (fresh : ℕ → α) (r : Ring α) (x : α) : Ring α :=
  if r.head = (r.write x).tail then expand g fresh (r.write x) else r.write x

/-- the first element is gone -/
def drop (r : Ring α) : Ring α :=
  { r with head := next r.cap r.head, head_lt := next_lt (lt_of_le_of_lt (Nat.zero_le _) r.head_lt) }

def pop (r : Ring α) : Option (α × Ring α) := if r.head = r.tail then none else some (r.slot r.head, r.drop)

/-- the elements, oldest first -/
def contents (r : Ring α) : List α := (List.range r.length).map fun i => r.slot ((r.head + i) % r.cap)

/-! ## Indices -/

section Indices

variable (r : Ring α)

theorem length_lt : r.length < r.cap := by
  have := r.head_lt
  have := r.tail_lt
  unfold length
  split_ifs <;> omega

theorem length_eq_zero : r.length = 0 ↔ r.head = r.tail := by
  have := r.head_lt
  unfold length
  split_ifs <;> omega

/-- the slot `i` places behind the head; the indices wrap around at most once -/
theorem index_eq {head i cap : ℕ} (hh : head < cap) (hi : i < cap) :
    (head + i) % cap = if head + i < cap then head + i else head + i - cap := by
  split_ifs with h
  · exact Nat.mod_eq_of_lt h
  · rw [Nat.mod_eq_sub_mod (by omega), Nat.mod_eq_of_lt (by omega)]

theorem tail_eq : r.tail = (r.head + r.length) % r.cap := by
  have := r.head_lt
  have := r.tail_lt
  rw [index_eq r.head_lt r.length_lt]
  unfold length
  split_ifs <;> omega

/-- the slots of the contents are not the one the next element is written to -/
theorem index_ne_tail {i : ℕ} (hi : i < r.length) : (r.head + i) % r.cap ≠ r.tail := by
  have hl := r.length_lt
  rw [r.tail_eq, index_eq r.head_lt (by omega), index_eq r.head_lt hl]
  have := r.head_lt
  split_ifs <;> omega

@[simp] theorem length_contents : r.contents.length = r.length := by simp [contents]

end Indices

/-! ## Writing -/

/-- the length after a write that leaves a slot free -/
theorem length_write {r : Ring α} {x : α} (h : r.head ≠ (r.write x).tail) : (r.write x).length = r.length + 1 := by
  have := r.head_lt
  have := r.tail_lt
  simp only [write, next] at h
  simp only [write, next, length]
  split_ifs at h ⊢ <;> omega

/-- the length before a write that fills the last slot -/
theorem length_of_full {r : Ring α} {x : α} (h : r.head = (r.write x).tail) : r.length + 1 = r.cap := by
  have := r.head_lt
  have := r.tail_lt
  simp only [write, next] at h
  simp only [length]
  split_ifs at h ⊢ <;> omega

/-- what the slots from the head on hold after a write: the contents, then the element -/
theorem slots_write (r : Ring α) (x : α) :
    (List.range (r.length + 1)).map (fun i => (r.write x).slot ((r.head + i) % r.cap)) = r.contents ++ [x] := by
  rw [List.range_succ, List.map_append, List.map_singleton]
  congr 1
  · apply List.map_congr_left
    intro i hi
    exact Function.update_of_ne (r.index_ne_tail (List.mem_range.1 hi)) _ _
  · have hx : (r.write x).slot r.tail = x := Function.update_self _ _ _
    rw [← r.tail_eq, hx]

theorem contents_expand_write (g : Growth) (fresh : ℕ → α) {r : Ring α} {x : α} (h : r.head = (r.write x).tail) :
    (expand g fresh (r.write x)).contents = r.contents ++ [x] := by
  have hlen : (expand g fresh (r.write x)).length = r.length + 1 := by
    rw [length_of_full h]
    simp [length, expand, write]
  rw [← slots_write, contents, hlen]
  apply List.map_congr_left
  intro i hi
  -- the moved slots start at 0, so they are found without wrapping
  have hi' : i < r.cap := by
    rw [← length_of_full h]
    exact List.mem_range.1 hi
  have hmod : (0 + i) % g.size r.cap = i := by
    rw [Nat.zero_add]
    exact Nat.mod_eq_of_lt (hi'.trans (g.lt_size _ (by omega)))
  calc (expand g fresh (r.write x)).slot ((0 + i) % g.size r.cap)
      = (expand g fresh (r.write x)).slot i := by rw [hmod]
    _ = (r.write x).slot ((r.head + i) % r.cap) := if_pos hi'

/-- **First in**: an element is added behind the others, also when the buffer has to grow. -/
theorem contents_push (g : Growth) (fresh : ℕ → α) (r : Ring α) (x : α) :
    (r.push g fresh x).contents = r.contents ++ [x] := by
  unfold push
  split_ifs with h
  · exact contents_expand_write g fresh h
  · rw [contents, length_write h]
    exact slots_write r x

/-! ## Taking -/

theorem length_drop {r : Ring α} (h : r.head ≠ r.tail) : r.drop.length + 1 = r.length := by
  have := r.head_lt
  have := r.tail_lt
  simp only [drop, next, length]
  split_ifs <;> omega

theorem contents_eq_cons {r : Ring α} (h : r.head ≠ r.tail) : r.contents = r.slot r.head :: r.drop.contents := by
  have hcap := r.head_lt
  have hlast := r.length_lt
  rw [contents, contents, ← length_drop h, List.range_succ_eq_map, List.map_cons, List.map_map, Nat.add_zero,
    Nat.mod_eq_of_lt hcap]
  congr 1
  apply List.map_congr_left
  intro i hi
  have hi' : i + 1 < r.cap := by
    have := List.mem_range.1 hi
    have := length_drop h
    omega
  have hidx : (r.head + (i + 1)) % r.cap = (next r.cap r.head + i) % r.cap := by
    rw [index_eq hcap hi', index_eq (next_lt (by omega)) (by omega)]
    unfold next
    split_ifs <;> omega
  show r.slot ((r.head + (i + 1)) % r.cap) = r.slot ((next r.cap r.head + i) % r.cap)
  rw [hidx]

theorem contents_eq_nil {r : Ring α} (h : r.head = r.tail) : r.contents = [] := by
  rw [contents, r.length_eq_zero.2 h]
  rfl

/-- **First out**: the oldest element is taken, and there is none only if the buffer is empty. -/
theorem pop_eq (r : Ring α) :
    (r.pop = none ∧ r.contents = []) ∨ ∃ x r', r.pop = some (x, r') ∧ r.contents = x :: r'.contents := by
  unfold pop
  split_ifs with h
  · exact .inl ⟨rfl, contents_eq_nil h⟩
  · exact .inr ⟨_, _, rfl, contents_eq_cons h⟩

@[simp] theorem contents_empty (cap : ℕ) (fresh : ℕ → α) (h : 0 < cap) : (empty cap fresh h).contents = [] :=
  contents_eq_nil rfl

end Ring

end OwliesServer
