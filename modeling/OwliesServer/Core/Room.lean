/-
Computations that are given room and fail where it is not enough. If one is written with sequencing, checks of the room and
calls with what is left of it, an outcome that is no failure for want of room is its outcome with any more room too, and
some failures never occur.
-/
import Mathlib.Tactic.Common

namespace OwliesServer.Room

variable {ε α β : Type} {short bad : ε → Prop}

structure Settles (short bad : ε → Prop) (f : ℕ → Except ε α) : Prop where
  sound : ∀ n e, f n = .error e → ¬ bad e
  settled : ∀ n m, n ≤ m → (∀ e, f n = .error e → ¬ short e) → f m = f n

theorem settles_const {x : Except ε α} (h : ∀ e, x = .error e → ¬ bad e) : Settles short bad fun _ => x :=
  ⟨fun _ => h, fun _ _ _ _ => rfl⟩

theorem settles_ok (a : α) : Settles short bad fun _ => Except.ok a := settles_const nofun

theorem settles_bind {f : ℕ → Except ε α} {g : α → ℕ → Except ε β} (hf : Settles short bad f)
    (hg : ∀ a, Settles short bad (g a)) : Settles short bad fun n => f n >>= fun a => g a n := by
  refine ⟨?_, ?_⟩
  · intro n e h
    cases hn : f n with
    | error e' =>
      simp only [hn] at h
      cases h
      exact hf.sound n e hn
    | ok a =>
      simp only [hn] at h
      exact (hg a).sound n e h
  · intro n m hnm h
    beta_reduce at h ⊢
    cases hn : f n with
    | error e =>
      have hshort : ¬ short e := h e (by rw [hn]; rfl)
      rw [hf.settled n m hnm (by rw [hn]; rintro e ⟨⟩; exact hshort), hn]
      rfl
    | ok a =>
      rw [hf.settled n m hnm (by rw [hn]; exact nofun), hn]
      rw [hn] at h
      exact (hg a).settled n m hnm h

/-- a check of the room: what is behind it has that much at least -/
theorem settles_check {f : ℕ → Except ε α} {e : ε} (hshort : short e) (hbad : ¬ bad e) (b : ℕ)
    (hf : Settles short bad fun n => f (n + b)) : Settles short bad fun n => if n < b then .error e else f n := by
  have hroom : ∀ n, ¬ n < b → n - b + b = n := fun n h => Nat.sub_add_cancel (Nat.le_of_not_lt h)
  refine ⟨?_, ?_⟩
  · intro n e' h
    by_cases hb : n < b
    · simp only [if_pos hb] at h
      cases h
      exact hbad
    · simp only [if_neg hb] at h
      exact hf.sound (n - b) e' (by rwa [hroom n hb])
  · intro n m hnm h
    by_cases hb : n < b
    · exact absurd hshort (h e (if_pos hb))
    · have hm : ¬ m < b := by omega
      simp only [if_neg hb, if_neg hm] at h ⊢
      have hsame := hf.settled (n - b) (m - b) (by omega) (by rwa [hroom n hb])
      rwa [hroom n hb, hroom m hm] at hsame

theorem settles_ite {c : Prop} [Decidable c] {f g : ℕ → Except ε α} (hf : Settles short bad f)
    (hg : Settles short bad g) : Settles short bad fun n => if c then f n else g n := by
  by_cases hc : c
  · simpa only [if_pos hc] using hf
  · simpa only [if_neg hc] using hg

/-- with what is left of the room -/
theorem settles_sub {f : ℕ → Except ε α} (hf : Settles short bad f) (b : ℕ) : Settles short bad fun n => f (n - b) :=
  ⟨fun n => hf.sound (n - b), fun n m hnm h => hf.settled (n - b) (m - b) (Nat.sub_le_sub_right hnm b) h⟩

/-- with more room -/
theorem settles_add {f : ℕ → Except ε α} (hf : Settles short bad f) (b : ℕ) : Settles short bad fun n => f (n + b) :=
  ⟨fun n => hf.sound (n + b), fun n m hnm h => hf.settled (n + b) (m + b) (Nat.add_le_add_right hnm b) h⟩

/-- with the room that was checked, and without it again -/
theorem settles_add_sub {f : ℕ → Except ε α} (hf : Settles short bad f) (b : ℕ) :
    Settles short bad fun n => f (n + b - b) := by
  simpa only [Nat.add_sub_cancel] using hf

end OwliesServer.Room
