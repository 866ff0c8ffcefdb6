/-
Hierarchical timing wheels. Items are kept in lists by the time at which they are due, in a finer resolution the nearer it
is: level 0 has a list for each instant of the current block, level `j + 1` one for each block of level `j` of the current
block of the next level. `shift j` is the number of low bits of a time that do not matter for its block of level `j`.

- `place`: the list an item belongs to, from its due time and the current time.
- `Holds`: each list has the pending items that belong to it, in the order in which they came.
- `place_succ`: when the time goes on by one, only the items of one list belong to other ones from then on, and these are
  all empty. So moving that list keeps `Holds` (`holds_move`).
- `place_eq_now`: the items of the list of the current instant are those that are due.
-/
import Mathlib.Tactic

namespace OwliesServer.Wheel

/-! ## Lists by place -/

section Lists

variable {P α β : Type} [DecidableEq P]

def link (w : P → List β) (p : P) (b : β) : P → List β := Function.update w p (w p ++ [b])

def clear (w : P → List β) (p : P) : P → List β := Function.update w p []

/-- the items of one list, each to the place it has now -/
def move (w : P → List β) (slot : β → P) (p : P) : P → List β := (w p).foldl (fun w b => link w (slot b) b) (clear w p)

/-- `pending` in the order in which they came; `f` is how an item is stored -/
def Holds (w : P → List β) (f : α → β) (place : α → P) (pending : List α) : Prop :=
  ∀ p, w p = (pending.filter fun a => place a = p).map f

variable {w : P → List β} {f : α → β} {place : α → P} {pending : List α}

theorem holds_link (h : Holds w f place pending) (a : α) : Holds (link w (place a) (f a)) f place (pending ++ [a]) := by
  intro p
  rw [List.filter_append, List.map_append, ← h p, link]
  by_cases hp : place a = p
  · subst hp
    simp
  · rw [Function.update_of_ne (Ne.symm hp)]
    simp [hp]

theorem foldl_link (slot : β → P) (bs : List β) (w : P → List β) (p : P) :
    bs.foldl (fun w b => link w (slot b) b) w p = w p ++ bs.filter fun b => slot b = p := by
  induction bs generalizing w with
  | nil => simp
  | cons b bs ih =>
    rw [List.foldl_cons, ih, link]
    by_cases hp : slot b = p
    · subst hp
      simp
    · rw [Function.update_of_ne (Ne.symm hp)]
      simp [hp]

/-- **A list is moved**: its items go to places that hold nothing, and the other items stay where they belong. -/
theorem holds_move (h : Holds w f place pending) {place' : α → P} {slot : β → P} {m : P}
    (hslot : ∀ a ∈ pending, place a = m → slot (f a) = place' a)
    (hstay : ∀ a ∈ pending, place a ≠ m → place' a = place a)
    (hfree : ∀ a ∈ pending, place a = m → ∀ b ∈ pending, place b ≠ place' a) :
    Holds (move w slot m) f place' pending := by
  intro p
  have hmoved : (w m).filter (fun b => slot b = p) = (pending.filter fun a => place a = m ∧ place' a = p).map f := by
    rw [h m, List.filter_map, List.filter_filter]
    congr 1
    refine List.filter_congr fun a ha => ?_
    by_cases hm : place a = m
    · simp [hm, hslot a ha hm]
    · simp [hm]
  have hrest : clear w m p = (pending.filter fun a => place a ≠ m ∧ place' a = p).map f := by
    by_cases hp : p = m
    · subst hp
      rw [clear, Function.update_self, List.filter_eq_nil_iff.2 fun a ha => ?_, List.map_nil]
      simp only [decide_eq_true_eq, not_and]
      intro hne
      rw [hstay a ha hne]
      exact hne
    · rw [clear, Function.update_of_ne hp, h p]
      congr 1
      refine List.filter_congr fun a ha => ?_
      by_cases hm : place a = m
      · simp [hm, Ne.symm hp]
      · simp [hm, hstay a ha hm]
  rw [move, foldl_link, hmoved, hrest]
  by_cases hany : ∃ a ∈ pending, place a = m ∧ place' a = p
  · -- nothing was there before, so the order is that of the moved items
    obtain ⟨a, ha, hm, rfl⟩ := hany
    have hnone : (pending.filter fun b => place b ≠ m ∧ place' b = place' a) = [] := by
      rw [List.filter_eq_nil_iff]
      intro b hb
      simp only [decide_eq_true_eq, not_and]
      intro hne
      rw [hstay b hb hne]
      exact hfree a ha hm b hb
    rw [hnone, List.map_nil, List.nil_append]
    congr 1
    refine List.filter_congr fun b hb => ?_
    by_cases hbm : place b = m
    · simp [hbm]
    · simp [hbm, hstay b hb hbm, hfree a ha hm b hb]
  · have hnone : (pending.filter fun b => place b = m ∧ place' b = p) = [] := by
      rw [List.filter_eq_nil_iff]
      intro b hb
      simp only [decide_eq_true_eq]
      exact fun hboth => hany ⟨b, hb, hboth⟩
    rw [hnone, List.map_nil, List.append_nil]
    congr 1
    refine List.filter_congr fun b hb => ?_
    by_cases hbm : place b = m
    · have hne : place' b ≠ p := fun hp => hany ⟨b, hb, hbm, hp⟩
      simp [hbm, hne]
    · simp [hbm]

/-- the pending items of one place are taken out -/
theorem holds_clear (h : Holds w f place pending) (m : P) :
    Holds (clear w m) f place (pending.filter fun a => place a ≠ m) := by
  intro p
  rw [List.filter_filter]
  by_cases hp : p = m
  · subst hp
    rw [clear, Function.update_self, List.filter_eq_nil_iff.2 (by simp), List.map_nil]
  · rw [clear, Function.update_of_ne hp, h p]
    congr 1
    refine List.filter_congr fun a _ => ?_
    by_cases ha : place a = p
    · simp [ha, hp]
    · simp [ha]

end Lists

/-! ## Places -/

variable (shift : ℕ → ℕ)

def block (j x : ℕ) : ℕ := x / 2 ^ shift j

/-- the first level, from `j` on, on which the two times are in one block; there are `n` to look at -/
def levelFrom (due now : ℕ) : ℕ → ℕ → ℕ
  | 0, j => j
  | n + 1, j => if block shift j due = block shift j now then j else levelFrom due now n (j + 1)

def level (n due now : ℕ) : ℕ := levelFrom shift due now n 0

def index (due : ℕ) : ℕ → ℕ
  | 0 => due % 2 ^ shift 0
  | j + 1 => block shift j due % 2 ^ (shift (j + 1) - shift j)

def place (n due now : ℕ) : ℕ × ℕ := (level shift n due now, index shift due (level shift n due now))

variable {shift}

theorem levelFrom_spec (due now n j : ℕ) :
    levelFrom shift due now n j ≤ j + n ∧ j ≤ levelFrom shift due now n j ∧
      (levelFrom shift due now n j < j + n →
        block shift (levelFrom shift due now n j) due = block shift (levelFrom shift due now n j) now) ∧
      ∀ i, j ≤ i → i < levelFrom shift due now n j → block shift i due ≠ block shift i now := by
  induction n generalizing j with
  | zero => exact ⟨le_rfl, le_rfl, fun h => absurd h (Nat.lt_irrefl _), fun i hi hlt => absurd hi (Nat.not_le.2 hlt)⟩
  | succ n ih =>
    rw [levelFrom]
    by_cases hblock : block shift j due = block shift j now
    · rw [if_pos hblock]
      exact ⟨Nat.le_add_right _ _, le_rfl, fun _ => hblock, fun i hi hlt => absurd hi (Nat.not_le.2 hlt)⟩
    · rw [if_neg hblock]
      obtain ⟨hle, hge, hsame, hdiff⟩ := ih (j + 1)
      refine ⟨by omega, by omega, fun h => hsame (by omega), fun i hi hlt => ?_⟩
      rcases Nat.eq_or_lt_of_le hi with rfl | hlt'
      · exact hblock
      · exact hdiff i hlt' hlt

theorem level_eq_iff {n due now j : ℕ} : level shift n due now = j ↔
    j ≤ n ∧ (j < n → block shift j due = block shift j now) ∧ ∀ i < j, block shift i due ≠ block shift i now := by
  obtain ⟨hle, -, hsame, hdiff⟩ := @levelFrom_spec shift due now n 0
  rw [Nat.zero_add] at hle hsame
  apply Iff.intro
  · rintro rfl
    exact ⟨hle, hsame, fun i hi => hdiff i (Nat.zero_le i) hi⟩
  · rintro ⟨hjn, hj, hbelow⟩
    rcases Nat.lt_trichotomy (level shift n due now) j with hlt | heq | hgt
    · exact absurd (hsame (by unfold level at hlt; omega)) (hbelow _ hlt)
    · exact heq
    · exact absurd (hj (by unfold level at hgt; omega)) (hdiff j (Nat.zero_le j) hgt)

section Monotone

variable (hshift : Monotone shift)
include hshift

theorem block_eq_of_le {i j a b : ℕ} (hij : i ≤ j) (h : block shift i a = block shift i b) :
    block shift j a = block shift j b := by
  have hdiv (x : ℕ) : block shift j x = block shift i x / 2 ^ (shift j - shift i) := by
    rw [block, block, Nat.div_div_eq_div_mul, ← Nat.pow_add, Nat.add_sub_cancel' (hshift hij)]
  rw [hdiv, hdiv, h]

theorem block_succ_eq_of_le {n now j : ℕ} (hj : level shift n (now + 1) now ≤ j) (hn : level shift n (now + 1) now < n) :
    block shift j (now + 1) = block shift j now :=
  block_eq_of_le hshift hj ((level_eq_iff.1 rfl).2.1 hn)

/-- the items of a level above the carry stay on it -/
theorem level_succ_of_lt {n due now : ℕ} (hlt : level shift n (now + 1) now < level shift n due now) :
    level shift n due (now + 1) = level shift n due now := by
  obtain ⟨hle, hsame, hdiff⟩ := level_eq_iff.1 (Eq.refl (level shift n due now))
  have hcarry {j : ℕ} (hj : level shift n (now + 1) now ≤ j) : block shift j (now + 1) = block shift j now :=
    block_succ_eq_of_le hshift hj (by omega)
  refine level_eq_iff.2 ⟨hle, fun h => ?_, fun i hi heq => ?_⟩
  · rw [hsame h, hcarry (Nat.le_of_lt hlt)]
  · -- in one block with the new time on level `i`, so on the higher ones too, and there the new time is in the old block
    have hmax : level shift n (now + 1) now ≤ max i (level shift n (now + 1) now) := le_max_right _ _
    refine hdiff (max i (level shift n (now + 1) now)) (max_lt hi hlt) ?_
    rw [← hcarry hmax]
    exact block_eq_of_le hshift (le_max_left _ _) heq

omit hshift in
/-- no item is on a level below the carry -/
theorem carry_le_level {n due now : ℕ} (hdue : now < due) : level shift n (now + 1) now ≤ level shift n due now := by
  by_contra hlt
  obtain ⟨hle, -, hcarry⟩ := level_eq_iff.1 (Eq.refl (level shift n (now + 1) now))
  obtain ⟨-, hsame, -⟩ := level_eq_iff.1 (Eq.refl (level shift n due now))
  have hblock := hsame (by omega)
  have hne := hcarry (level shift n due now) (by omega)
  have hlow : now / 2 ^ shift (level shift n due now) ≤ (now + 1) / 2 ^ shift (level shift n due now) :=
    Nat.div_le_div_right (Nat.le_succ now)
  have hhigh : (now + 1) / 2 ^ shift (level shift n due now) ≤ due / 2 ^ shift (level shift n due now) :=
    Nat.div_le_div_right hdue
  unfold block at hblock hne
  omega

/-- on the level of the carry, an item stays as long as its block does not come -/
theorem level_succ_of_ne {n due now c : ℕ} (hc : level shift n (now + 1) now = c + 1) (hlevel : level shift n due now = c + 1)
    (hne : block shift c due ≠ block shift c (now + 1)) : level shift n due (now + 1) = c + 1 := by
  obtain ⟨hle, hsame, -⟩ := level_eq_iff.1 hlevel
  refine level_eq_iff.2 ⟨hle, fun h => ?_, fun i hi heq => ?_⟩
  · rw [hsame h, block_succ_eq_of_le hshift (by omega) (by omega : level shift n (now + 1) now < n)]
  · exact hne (block_eq_of_le hshift (Nat.le_of_lt_succ hi) heq)

omit hshift in
theorem level_le_of_eq {n due now c : ℕ} (h : block shift c due = block shift c now) :
    level shift n due now ≤ c := by
  by_contra hlt
  obtain ⟨-, -, hdiff⟩ := level_eq_iff.1 (Eq.refl (level shift n due now))
  exact hdiff c (by omega) h

/-- two times in one block of the next level, with one index, are in one block -/
theorem block_eq_of_index {c a b : ℕ} (hblock : block shift (c + 1) a = block shift (c + 1) b)
    (hindex : index shift a (c + 1) = index shift b (c + 1)) : block shift c a = block shift c b := by
  have hdiv (x : ℕ) : block shift (c + 1) x = block shift c x / 2 ^ (shift (c + 1) - shift c) := by
    rw [block, block, Nat.div_div_eq_div_mul, ← Nat.pow_add, Nat.add_sub_cancel' (hshift (Nat.le_succ c))]
  calc block shift c a
      = 2 ^ (shift (c + 1) - shift c) * block shift (c + 1) a + index shift a (c + 1) := by
        rw [hdiv, index, Nat.div_add_mod]
    _ = 2 ^ (shift (c + 1) - shift c) * block shift (c + 1) b + index shift b (c + 1) := by rw [hblock, hindex]
    _ = block shift c b := by rw [hdiv, index, Nat.div_add_mod]

omit hshift in
/-- on the last level the index alone tells the block, for times that are not too far ahead -/
theorem block_eq_of_index_last {c a b : ℕ} (hle : block shift c b ≤ block shift c a)
    (hlt : block shift c a < block shift c b + 2 ^ (shift (c + 1) - shift c))
    (hindex : index shift a (c + 1) = index shift b (c + 1)) : block shift c a = block shift c b := by
  have hdvd : 2 ^ (shift (c + 1) - shift c) ∣ block shift c a - block shift c b :=
    (Nat.modEq_iff_dvd' hle).1 hindex.symm
  have hzero : block shift c a - block shift c b = 0 := Nat.eq_zero_of_dvd_of_lt hdvd (by omega)
  omega

/-- the list that is moved when the time goes on -/
def moved (shift : ℕ → ℕ) (n now : ℕ) : ℕ × ℕ :=
  (level shift n (now + 1) now, index shift (now + 1) (level shift n (now + 1) now))

/-- without a carry everything stays -/
theorem place_succ_of_zero {n due now : ℕ} (hn : 0 < n) (hc : level shift n (now + 1) now = 0) :
    place shift n due (now + 1) = place shift n due now := by
  have hlevel : level shift n due (now + 1) = level shift n due now := by
    obtain ⟨hle, hsame, hdiff⟩ := level_eq_iff.1 (Eq.refl (level shift n due now))
    have hblock (j : ℕ) : block shift j (now + 1) = block shift j now :=
      block_succ_eq_of_le hshift (by omega) (by omega : level shift n (now + 1) now < n)
    exact level_eq_iff.2 ⟨hle, fun h => (hsame h).trans (hblock _).symm, fun i hi => (hblock i).symm ▸ hdiff i hi⟩
  rw [place, place, hlevel]

/-- **When the time goes on**, an item that is not in the moved list stays, and one that is belongs below the level of the
carry, where there is nothing. -/
theorem place_succ {n due now : ℕ} (hdue : now < due)
    (hfar : block shift (n - 1) due < block shift (n - 1) (now + 1) + 2 ^ (shift n - shift (n - 1)))
    (hc : 0 < level shift n (now + 1) now) :
    (place shift n due now ≠ moved shift n now → place shift n due (now + 1) = place shift n due now) ∧
      (place shift n due now = moved shift n now → (place shift n due (now + 1)).1 < (moved shift n now).1) := by
  obtain ⟨c, hcarry⟩ : ∃ c, level shift n (now + 1) now = c + 1 := ⟨_, (Nat.succ_pred_eq_of_pos hc).symm⟩
  obtain ⟨hcn, -, -⟩ := level_eq_iff.1 hcarry
  refine ⟨fun hne => ?_, fun heq => ?_⟩
  · have hle : level shift n (now + 1) now ≤ level shift n due now := carry_le_level hdue
    rcases Nat.eq_or_lt_of_le hle with hsame | hlt
    · have hlevel : level shift n due now = c + 1 := by omega
      have hblock : block shift c due ≠ block shift c (now + 1) := by
        intro h
        refine hne ?_
        rw [place, moved, hlevel, hcarry, index, index, h]
      rw [place, place, level_succ_of_ne hshift hcarry hlevel hblock, hlevel]
    · rw [place, place, level_succ_of_lt hshift hlt]
  · rw [place, moved, Prod.mk.injEq, hcarry] at heq
    obtain ⟨hlevel, hindex⟩ := heq
    rw [hlevel] at hindex
    have hblock : block shift c due = block shift c (now + 1) := by
      rcases Nat.eq_or_lt_of_le hcn with hlast | hlt
      · subst hlast
        exact block_eq_of_index_last (Nat.div_le_div_right hdue) hfar hindex
      · refine block_eq_of_index hshift ?_ hindex
        rw [(level_eq_iff.1 hlevel).2.1 hlt, block_succ_eq_of_le hshift (by omega) (by omega : level shift n (now + 1) now < n)]
    have hle : level shift n due (now + 1) ≤ c := level_le_of_eq hblock
    rw [place, moved, hcarry]
    exact Nat.lt_succ_of_le hle

end Monotone

/-- the list of the current instant has the items that are due -/
theorem place_eq_now {n due now : ℕ} (hn : 0 < n) :
    place shift n due now = (0, now % 2 ^ shift 0) ↔ due = now := by
  apply Iff.intro
  · intro h
    rw [place, Prod.mk.injEq] at h
    obtain ⟨hlevel, hindex⟩ := h
    rw [hlevel] at hindex
    have hblock := (level_eq_iff.1 hlevel).2.1 hn
    calc due = 2 ^ shift 0 * block shift 0 due + due % 2 ^ shift 0 := (Nat.div_add_mod _ _).symm
      _ = 2 ^ shift 0 * block shift 0 now + now % 2 ^ shift 0 := by rw [hblock]; congr 1
      _ = now := Nat.div_add_mod _ _
  · rintro rfl
    have hlevel : level shift n due due = 0 := level_eq_iff.2 ⟨Nat.zero_le n, fun _ => rfl, nofun⟩
    rw [place, hlevel, index]

end OwliesServer.Wheel
