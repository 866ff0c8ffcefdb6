/-
Binary search in a list that is sorted by the keys of its items, and insertion where the search ends. The keys are of any
type with a comparison `cmp` that is transitive and tells different keys apart.

- `search` looks at the items from `lo` up to, but not including, `hi`. It ends with an item, or with the place where one
  with the key would stand;
- `Splits items k lo hi`: the items before `lo` have smaller keys than `k`, those from `hi` on greater ones;
- `find_cases`: the search in the whole list finds the item with the key, or a place that splits the list at the key;
- `sorted_insertBefore`: an item that is inserted at that place leaves the list sorted.
-/
import Mathlib.Tactic

namespace OwliesServer.BinarySearch

variable {κ ε : Type*} (cmp : κ → κ → Ordering) (key : ε → κ)

/-- the loop; it has at most `fuel` rounds -/
def search (items : List ε) (k : κ) : ℕ → ℕ → ℕ → ε ⊕ ℕ
  | 0, lo, _ => .inr lo
  | fuel + 1, lo, hi =>
    if lo < hi then
      match items[(lo + hi - 1) / 2]? with
      | none => .inr lo
      | some x =>
        match cmp (key x) k with
        | .eq => .inl x
        | .lt => search items k fuel ((lo + hi - 1) / 2 + 1) hi
        | .gt => search items k fuel lo ((lo + hi - 1) / 2)
    else .inr lo

def find (items : List ε) (k : κ) : ε ⊕ ℕ := search cmp key items k items.length 0 items.length

def insertBefore (items : List ε) (place : ℕ) (x : ε) : List ε := items.take place ++ x :: items.drop place

def Sorted (items : List ε) : Prop := items.Pairwise fun x y => cmp (key x) (key y) = .lt

structure Splits (items : List ε) (k : κ) (lo hi : ℕ) : Prop where
  below : ∀ i x, i < lo → items[i]? = some x → cmp (key x) k = .lt
  above : ∀ i x, hi ≤ i → items[i]? = some x → cmp (key x) k = .gt

variable {cmp key} {items : List ε} {k : κ}

theorem Sorted.lt_of_lt (hs : Sorted cmp key items) {i j : ℕ} {x y : ε} (hij : i < j) (hx : items[i]? = some x)
    (hy : items[j]? = some y) : cmp (key x) (key y) = .lt := by
  obtain ⟨hi, rfl⟩ := List.getElem?_eq_some_iff.1 hx
  obtain ⟨hj, rfl⟩ := List.getElem?_eq_some_iff.1 hy
  exact List.pairwise_iff_getElem.1 hs i j hi hj hij

section Search

variable [Std.TransCmp cmp] (hs : Sorted cmp key items) {lo hi mid : ℕ} {x : ε} (h : Splits cmp key items k lo hi)
  (hx : items[mid]? = some x)

include hs h hx

theorem Splits.right (hlt : cmp (key x) k = .lt) : Splits cmp key items k (mid + 1) hi := by
  refine ⟨fun i y hi hy => ?_, h.above⟩
  rcases Nat.lt_or_eq_of_le (Nat.le_of_lt_succ hi) with hbefore | rfl
  · exact Std.TransCmp.lt_trans (hs.lt_of_lt hbefore hy hx) hlt
  · rw [hx] at hy
    obtain rfl := Option.some.inj hy
    exact hlt

theorem Splits.left (hgt : cmp (key x) k = .gt) : Splits cmp key items k lo mid := by
  refine ⟨h.below, fun i y hi hy => ?_⟩
  rcases Nat.lt_or_eq_of_le hi with hbehind | rfl
  · have hlt : cmp k (key y) = .lt := Std.TransCmp.lt_trans (Std.OrientedCmp.gt_iff_lt.1 hgt) (hs.lt_of_lt hbehind hx hy)
    exact Std.OrientedCmp.gt_iff_lt.2 hlt
  · rw [hx] at hy
    obtain rfl := Option.some.inj hy
    exact hgt

end Search

/-- **The loop**: by induction on the rounds that are left; each halves what is left to look at. -/
theorem search_cases [Std.TransCmp cmp] (hs : Sorted cmp key items) (fuel lo hi : ℕ) (hlen : hi ≤ items.length)
    (hle : lo ≤ hi) (hfuel : hi ≤ lo + fuel) (h : Splits cmp key items k lo hi) :
    (∃ x ∈ items, search cmp key items k fuel lo hi = .inl x ∧ cmp (key x) k = .eq) ∨
      ∃ place, search cmp key items k fuel lo hi = .inr place ∧ Splits cmp key items k place place := by
  induction fuel generalizing lo hi with
  | zero =>
    obtain rfl : lo = hi := Nat.le_antisymm hle hfuel
    exact .inr ⟨lo, rfl, h⟩
  | succ fuel ih =>
    rw [search]
    by_cases hlt : lo < hi
    · have hmid : lo ≤ (lo + hi - 1) / 2 ∧ (lo + hi - 1) / 2 < hi := by omega
      obtain ⟨x, hx⟩ : ∃ x, items[(lo + hi - 1) / 2]? = some x :=
        ⟨_, List.getElem?_eq_getElem (Nat.lt_of_lt_of_le hmid.2 hlen)⟩
      rw [if_pos hlt, hx]
      cases hcmp : cmp (key x) k with
      | eq => exact .inl ⟨x, List.mem_of_getElem? hx, by simp only [hcmp], hcmp⟩
      | lt =>
        simp only [hcmp]
        exact ih _ _ hlen hmid.2 (by omega) (h.right hs hx hcmp)
      | gt =>
        simp only [hcmp]
        exact ih _ _ (hmid.2.le.trans hlen) hmid.1 (by omega) (h.left hs hx hcmp)
    · rw [if_neg hlt]
      obtain rfl : lo = hi := Nat.le_antisymm hle (Nat.le_of_not_lt hlt)
      exact .inr ⟨lo, rfl, h⟩

theorem find_cases [Std.TransCmp cmp] [Std.LawfulEqCmp cmp] (hs : Sorted cmp key items) (k : κ) :
    (∃ x ∈ items, find cmp key items k = .inl x ∧ key x = k) ∨
      ∃ place, find cmp key items k = .inr place ∧ Splits cmp key items k place place := by
  have hsplits : Splits cmp key items k 0 items.length := by
    refine ⟨fun i _ hi => absurd hi (Nat.not_lt_zero i), fun i x hi hx => ?_⟩
    rw [List.getElem?_eq_none hi] at hx
    exact absurd hx.symm (Option.some_ne_none x)
  rcases search_cases hs items.length 0 items.length le_rfl (Nat.zero_le _) (Nat.zero_add _).ge hsplits with
    ⟨x, hx, hfind, heq⟩ | hplace
  · exact .inl ⟨x, hx, hfind, Std.LawfulEqCmp.eq_of_compare heq⟩
  · exact .inr hplace

/-! ## Insertion -/

theorem mem_insertBefore {place : ℕ} {x y : ε} : y ∈ insertBefore items place x ↔ y = x ∨ y ∈ items := by
  rw [insertBefore, List.perm_middle.mem_iff, List.take_append_drop, List.mem_cons]

section Place

variable {place : ℕ} (h : Splits cmp key items k place place)

include h

theorem Splits.lt_of_mem_take {y : ε} (hy : y ∈ items.take place) : cmp (key y) k = .lt := by
  obtain ⟨i, hi⟩ := List.mem_iff_getElem?.1 hy
  rw [List.getElem?_take] at hi
  split_ifs at hi with hlt
  exact h.below i y hlt hi

theorem Splits.gt_of_mem_drop {y : ε} (hy : y ∈ items.drop place) : cmp (key y) k = .gt := by
  obtain ⟨i, hi⟩ := List.mem_iff_getElem?.1 hy
  rw [List.getElem?_drop] at hi
  exact h.above _ y (Nat.le_add_right place i) hi

/-- no item has the key -/
theorem Splits.key_ne [Std.ReflCmp cmp] {y : ε} (hy : y ∈ items) : key y ≠ k := by
  rintro rfl
  rw [← List.take_append_drop place items, List.mem_append] at hy
  rcases hy with hy | hy
  · exact absurd ((h.lt_of_mem_take hy).symm.trans Std.ReflCmp.compare_self) (by decide)
  · exact absurd ((h.gt_of_mem_drop hy).symm.trans Std.ReflCmp.compare_self) (by decide)

end Place

theorem sorted_insertBefore [Std.OrientedCmp cmp] (hs : Sorted cmp key items) {place : ℕ} {x : ε}
    (h : Splits cmp key items (key x) place place) : Sorted cmp key (insertBefore items place x) := by
  rw [Sorted, ← List.take_append_drop place items, List.pairwise_append] at hs
  obtain ⟨htake, hdrop, hacross⟩ := hs
  refine List.pairwise_append.2 ⟨htake, List.pairwise_cons.2 ⟨fun y hy => ?_, hdrop⟩, fun y hy z hz => ?_⟩
  · exact Std.OrientedCmp.gt_iff_lt.1 (h.gt_of_mem_drop hy)
  · rcases List.mem_cons.1 hz with rfl | hz
    · exact h.lt_of_mem_take hy
    · exact hacross y hy z hz

end OwliesServer.BinarySearch
