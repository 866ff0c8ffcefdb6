/-
Lists of words in one word, each followed by a separator that the words may contain themselves.

- `exists_terminated`: every word that ends in the separator is cut into any number of words up to its separators.
- `terminated_unique_iff`: the joined word determines the list for one word on each side (or none), and for no other
  numbers of words.
- `terminated_meets_iff`: when a joined word can go on, from a given word, as another one.
- `flatMap_intercalate`: items written with a separator behind each are the joined items and one separator more.
- `eq_of_first`: what stands in front of the first separator is determined.
-/
import Mathlib.Data.List.Count
import Mathlib.Tactic

namespace OwliesServer.Separated

variable {α : Type} (sep : α)

/-- items written one by one, with a separator behind each, are the joined items and one separator more -/
theorem flatMap_intercalate {β : Type} (sep : List α) (item : β → List α) (l : List β) (h : l ≠ []) :
    l.flatMap (fun x => item x ++ sep) = sep.intercalate (l.map item) ++ sep := by
  induction l with
  | nil => exact absurd rfl h
  | cons x l ih =>
    rcases l with _ | ⟨y, l⟩
    · simp
    · rw [List.flatMap_cons, ih (by simp)]
      simp only [List.map_cons, List.intercalate_cons_cons, List.append_assoc]

/-- the length of the joined items, with one separator more -/
theorem length_joined {β : Type} (sep : List α) (item : β → List α) (l : List β) (h : l ≠ []) :
    (sep.intercalate (l.map item)).length + sep.length = (l.map fun x => (item x).length).sum + l.length * sep.length := by
  rw [← List.length_append, ← flatMap_intercalate sep item l h, List.length_flatMap]
  clear h
  induction l with
  | nil => simp
  | cons x l ih =>
    simp only [List.map_cons, List.sum_cons, List.length_append, List.length_cons, Nat.succ_mul] at ih ⊢
    omega

/-- items that are nowhere longer than others, and together as long, have the same lengths -/
theorem eq_of_sum_le {β : Type} (f g : β → ℕ) (l : List β) (hle : ∀ x ∈ l, f x ≤ g x)
    (hsum : (l.map g).sum ≤ (l.map f).sum) : ∀ x ∈ l, g x = f x := by
  induction l with
  | nil => simp
  | cons x l ih =>
    obtain ⟨hx, hl⟩ := List.forall_mem_cons.1 hle
    rw [List.map_cons, List.sum_cons, List.map_cons, List.sum_cons] at hsum
    have hrest : (l.map f).sum ≤ (l.map g).sum := List.sum_le_sum hl
    exact List.forall_mem_cons.2 ⟨by omega, ih hl (by omega)⟩

/-- two words without the separator in front of the first separator of one text -/
theorem eq_of_first [DecidableEq α] {w w' rest rest' : List α} (hw : sep ∉ w) (hw' : sep ∉ w')
    (h : w ++ sep :: rest = w' ++ sep :: rest') : w = w' ∧ rest = rest' := by
  have hfirst := congrArg (List.takeWhile (· ≠ sep)) h
  have hne {u : List α} (hu : sep ∉ u) : ∀ a ∈ u, decide (a ≠ sep) = true :=
    fun a ha => decide_eq_true fun heq => hu (heq ▸ ha)
  rw [List.takeWhile_append_of_pos (hne hw), List.takeWhile_append_of_pos (hne hw'),
    List.takeWhile_cons_of_neg (by simp), List.takeWhile_cons_of_neg (by simp), List.append_nil, List.append_nil] at hfirst
  subst hfirst
  simpa using h

/-- the words, each followed by the separator -/
def terminated (ws : List (List α)) : List α := ws.flatMap (· ++ [sep])

@[simp] theorem terminated_nil : terminated sep [] = [] := rfl

@[simp] theorem terminated_cons (w : List α) (ws : List (List α)) :
    terminated sep (w :: ws) = w ++ [sep] ++ terminated sep ws := rfl

theorem terminated_eq_nil {ws : List (List α)} (h : terminated sep ws = []) : ws = [] := by
  cases ws with
  | nil => rfl
  | cons w ws => simp at h

/-- the joined word determines the lists of m and of n words -/
def Unique (m n : ℕ) : Prop :=
  ∀ ws ws' : List (List α), ws.length = m → ws'.length = n → terminated sep ws = terminated sep ws' → ws = ws'

theorem unique_nil (n : ℕ) : Unique sep 0 n := by
  intro ws ws' hm _ h
  rw [List.length_eq_zero_iff] at hm
  subst hm
  exact (terminated_eq_nil sep h.symm).symm

theorem unique_one : Unique sep 1 1 := by
  intro ws ws' hm hn h
  obtain ⟨w, rfl⟩ := List.length_eq_one_iff.1 hm
  obtain ⟨w', rfl⟩ := List.length_eq_one_iff.1 hn
  simpa using h

theorem Unique.symm {m n : ℕ} (h : Unique sep m n) : Unique sep n m :=
  fun ws ws' hn hm he => (h ws' ws hm hn he.symm).symm

/-- two words or more: a separator inside the first is one inside the second -/
theorem not_unique_of_two (n : ℕ) : ¬ Unique sep (n + 2) (n + 2) := by
  intro hu
  have heq := hu ([sep] :: [] :: List.replicate n []) ([] :: [sep] :: List.replicate n []) (by simp) (by simp)
    (by simp)
  simp at heq

variable [DecidableEq α]

theorem length_le_count (ws : List (List α)) : ws.length ≤ (terminated sep ws).count sep := by
  induction ws with
  | nil => exact le_rfl
  | cons w ws ih =>
    simp only [terminated_cons, List.count_append, List.count_singleton_self, List.length_cons]
    omega

/-- **Any cut is a list of words.** A word with at least n separators, and one more behind it, is n + 1 words. -/
theorem exists_terminated (n : ℕ) (s : List α) (h : n ≤ s.count sep) :
    ∃ ws : List (List α), ws.length = n + 1 ∧ terminated sep ws = s ++ [sep] := by
  induction n generalizing s with
  | zero => exact ⟨[s], rfl, by simp⟩
  | succ n ih =>
    have hmem : sep ∈ s := List.count_pos_iff.1 (by omega)
    -- the first word ends at the first separator
    obtain ⟨w, t, hs, hw⟩ := List.eq_append_cons_of_mem hmem
    have hcount : n ≤ t.count sep := by
      rw [hs, List.count_append, List.count_cons_self, List.count_eq_zero.2 hw] at h
      omega
    obtain ⟨ws, hlen, hws⟩ := ih t hcount
    refine ⟨w :: ws, by rw [List.length_cons, hlen], ?_⟩
    rw [terminated_cons, hws, hs]
    simp

/-- different numbers of words meet at a word of separators -/
theorem not_unique_of_ne {m n : ℕ} (h : m ≠ n) : ¬ Unique sep (m + 1) (n + 1) := by
  intro hu
  have hcount : (List.replicate (m + n) sep).count sep = m + n := List.count_replicate_self
  obtain ⟨ws, hm, hws⟩ := exists_terminated sep m (List.replicate (m + n) sep) (by omega)
  obtain ⟨ws', hn, hws'⟩ := exists_terminated sep n (List.replicate (m + n) sep) (by omega)
  have heq := hu ws ws' hm hn (hws.trans hws'.symm)
  rw [heq, hn] at hm
  omega

/-- **One word on each side, or none on one.** -/
theorem terminated_unique_iff (m n : ℕ) : Unique sep m n ↔ m = 0 ∨ n = 0 ∨ m = 1 ∧ n = 1 := by
  apply Iff.intro
  · intro hu
    rcases m with _ | m
    · exact .inl rfl
    rcases n with _ | n
    · exact .inr (.inl rfl)
    by_cases hmn : m = n
    · subst hmn
      rcases m with _ | m
      · exact .inr (.inr ⟨rfl, rfl⟩)
      · exact absurd hu (not_unique_of_two sep m)
    · exact absurd hu (not_unique_of_ne sep hmn)
  · intro h
    rcases h with rfl | rfl | ⟨rfl, rfl⟩
    · exact unique_nil sep n
    · exact (unique_nil sep m).symm
    · exact unique_one sep

/-- **Where two joined words meet.** m words can be the word x, a separator and n words exactly if there are words on
the left, and words on the right or enough separators in x. -/
theorem terminated_meets_iff (x : List α) (m n : ℕ) :
    (∃ ws ws' : List (List α), ws.length = m ∧ ws'.length = n ∧
      terminated sep ws = x ++ [sep] ++ terminated sep ws') ↔ 1 ≤ m ∧ (1 ≤ n ∨ m ≤ x.count sep + 1) := by
  apply Iff.intro
  · rintro ⟨ws, ws', rfl, rfl, h⟩
    have hpos : 1 ≤ ws.length := by
      rcases ws with _ | ⟨w, ws⟩
      · simp at h
      · simp
    refine ⟨hpos, ?_⟩
    rcases ws' with _ | ⟨w, ws'⟩
    · have hle := length_le_count sep ws
      rw [h, terminated_nil, List.append_nil, List.count_append, List.count_singleton_self] at hle
      exact .inr hle
    · exact .inl (by simp)
  · rintro ⟨hm, hn⟩
    obtain ⟨m, rfl⟩ := Nat.exists_eq_add_of_le' hm
    rcases n with _ | n
    · have hcount : m ≤ x.count sep := by omega
      obtain ⟨ws, hlen, hws⟩ := exists_terminated sep m x hcount
      exact ⟨ws, [], hlen, rfl, by rw [hws, terminated_nil, List.append_nil]⟩
    · -- the right side brings as many separators as the left needs
      have hcount : (List.replicate (m + n) sep).count sep = m + n := List.count_replicate_self
      obtain ⟨ws', hlen', hws'⟩ := exists_terminated sep n (List.replicate (m + n) sep) (by omega)
      obtain ⟨ws, hlen, hws⟩ := exists_terminated sep m (x ++ [sep] ++ List.replicate (m + n) sep)
        (by rw [List.count_append, hcount]; omega)
      exact ⟨ws, ws', hlen, hlen', by rw [hws, hws', List.append_assoc]⟩

end OwliesServer.Separated
