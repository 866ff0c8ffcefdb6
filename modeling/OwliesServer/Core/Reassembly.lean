/-
A stream of items that arrives in pieces. The pieces are cut anywhere, so an item may be spread over several of them and
one piece may hold several items. A receiver keeps what it could not use yet and puts the next piece behind it.

- `Streaming read`: a reader that needs at least one byte per item, and does not change its mind about an item when more
  bytes come.
- `split`: the complete items at the front of a byte string, and the bytes behind them.
- `split_append`: splitting what was left over together with the next piece continues the split of the whole.
- `split_flatMap`: a stream of written items splits into these items.
-/
import OwliesServer.Core.Framing

namespace OwliesServer.Framing

open OwliesServer.CChar

variable {α β : Type}

structure Streaming (read : Reader α) : Prop where
  stable : ∀ s a rest, read s = some (a, rest) → ∀ t, read (s ++ t) = some (a, rest ++ t)
  shorter : ∀ s a rest, read s = some (a, rest) → rest.length < s.length

/-! ## Splitting -/

/-- at most `fuel` items -/
def splitFuel (read : Reader α) : ℕ → Bytes → List α × Bytes
  | 0, s => ([], s)
  | fuel + 1, s =>
    match read s with
    | none => ([], s)
    | some (a, rest) => (a :: (splitFuel read fuel rest).1, (splitFuel read fuel rest).2)

/-- the items at the front, as long as there are complete ones, and what is left -/
def split (read : Reader α) (s : Bytes) : List α × Bytes := splitFuel read s.length s

theorem split_of_none {read : Reader α} {s : Bytes} (h : read s = none) : split read s = ([], s) := by
  unfold split
  cases s.length with
  | zero => rfl
  | succ n => simp [splitFuel, h]

section Streaming

variable {read : Reader α} (hs : Streaming read)

include hs

theorem read_nil : read [] = none := by
  cases hr : read [] with
  | none => rfl
  | some p => exact absurd (hs.shorter _ _ _ hr) (by simp)

/-- fuel beyond the length of the input changes nothing -/
theorem splitFuel_eq (fuel : ℕ) (s : Bytes) (h : s.length ≤ fuel) : splitFuel read fuel s = split read s := by
  suffices hall : ∀ m n s, s.length ≤ m → s.length ≤ n → splitFuel read m s = splitFuel read n s from
    hall fuel s.length s h le_rfl
  intro m
  induction m with
  | zero =>
    intro n s hm _
    obtain rfl : s = [] := by simpa using hm
    cases n with
    | zero => rfl
    | succ n => simp [splitFuel, read_nil hs]
  | succ m ih =>
    intro n s hm hn
    cases hr : read s with
    | none => cases n <;> simp [splitFuel, hr]
    | some p =>
      have hlt := hs.shorter _ _ _ hr
      obtain ⟨n, rfl⟩ : ∃ k, n = k + 1 := ⟨n - 1, by omega⟩
      simp only [splitFuel, hr]
      rw [ih n p.2 (by omega) (by omega)]

theorem split_of_some {s : Bytes} {a : α} {rest : Bytes} (h : read s = some (a, rest)) :
    split read s = (a :: (split read rest).1, (split read rest).2) := by
  have hlt := hs.shorter _ _ _ h
  obtain ⟨n, hn⟩ : ∃ n, s.length = n + 1 := ⟨s.length - 1, by omega⟩
  rw [split, hn, splitFuel, h]
  simp only [splitFuel_eq hs n rest (by omega)]

/-- what is left over holds no complete item -/
theorem read_split_snd (s : Bytes) : read (split read s).2 = none := by
  induction hn : s.length using Nat.strong_induction_on generalizing s with
  | _ n ih =>
    cases hr : read s with
    | none => rwa [split_of_none hr]
    | some p =>
      rw [split_of_some hs hr]
      exact ih p.2.length (by have := hs.shorter _ _ _ hr; omega) p.2 rfl

/-- the items as they were written, and what is left over, make the stream -/
theorem split_concat (write : α → Bytes) (hw : ∀ s a rest, read s = some (a, rest) → s = write a ++ rest) (s : Bytes) :
    (split read s).1.flatMap write ++ (split read s).2 = s := by
  induction hn : s.length using Nat.strong_induction_on generalizing s with
  | _ n ih =>
    cases hr : read s with
    | none => simp [split_of_none hr]
    | some p =>
      have hlt := hs.shorter _ _ _ hr
      rw [split_of_some hs hr, List.flatMap_cons, List.append_assoc, ih p.2.length (by omega) p.2 rfl]
      exact (hw s p.1 p.2 hr).symm

/-- what holds of every item that is read holds of those that are split off -/
theorem split_forall {P : α → Prop} (hP : ∀ s a rest, read s = some (a, rest) → P a) (s : Bytes) :
    ∀ a ∈ (split read s).1, P a := by
  induction hn : s.length using Nat.strong_induction_on generalizing s with
  | _ n ih =>
    cases hr : read s with
    | none => simp [split_of_none hr]
    | some p =>
      have hlt := hs.shorter _ _ _ hr
      rw [split_of_some hs hr]
      exact List.forall_mem_cons.2 ⟨hP s p.1 p.2 hr, ih p.2.length (by omega) p.2 rfl⟩

/-- **Splitting goes on where it stopped.** -/
theorem split_append (s t : Bytes) :
    split read (s ++ t) = ((split read s).1 ++ (split read ((split read s).2 ++ t)).1,
      (split read ((split read s).2 ++ t)).2) := by
  induction hn : s.length using Nat.strong_induction_on generalizing s with
  | _ n ih =>
    cases hr : read s with
    | none => simp [split_of_none hr]
    | some p =>
      have hlt := hs.shorter _ _ _ hr
      rw [split_of_some hs hr, split_of_some hs (hs.stable _ _ _ hr t), ih p.2.length (by omega) p.2 rfl]
      rfl

theorem split_flatMap (write : β → Bytes) (value : β → α) (items : List β)
    (hw : ∀ b ∈ items, Reads read (write b) (value b)) (rest : Bytes) (hr : read rest = none) :
    split read (items.flatMap write ++ rest) = (items.map value, rest) := by
  induction items with
  | nil => simp [split_of_none hr]
  | cons b items ih =>
    obtain ⟨hb, hitems⟩ := List.forall_mem_cons.1 hw
    rw [List.flatMap_cons, List.append_assoc, split_of_some hs (hb _), ih hitems]
    rfl

end Streaming

end OwliesServer.Framing
