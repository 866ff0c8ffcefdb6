/-
Rounding to a number of significant digits, for natural numbers and any base: `roundSig b p n` is the number of at most
p base-b digits, times a power of b, that is nearest to n; ties go to the even quotient. Base 2 and 53 digits is what a
double holds, base 10 and p digits is what `%.<p>g` prints.

- `isSig_roundSig`, `roundSig_of_isSig`: the results are exactly the numbers of p digits, and these are fixed.
- `roundSig_roundSig_of_lt`: a number of p base-b digits survives being rounded to q base-c digits and back if the
  second format is the finer one, `b ^ p < c ^ (q - 1)`.
- `roundSig_roundSig_eq_iff`: which numbers survive a format that is the coarser one.
-/
import Mathlib.Data.Nat.Log
import Mathlib.Tactic

namespace OwliesServer.Significant

/-! ## The nearest multiple -/

/-- the multiple of u nearest to n -/
def roundTo (u n : ℕ) : ℕ :=
  if 2 * (n % u) < u ∨ 2 * (n % u) = u ∧ n / u % 2 = 0 then u * (n / u) else u * (n / u + 1)

section Multiples

variable {u n m : ℕ}

theorem dvd_roundTo (u n : ℕ) : u ∣ roundTo u n := by
  unfold roundTo
  split_ifs
  · exact dvd_mul_right u _
  · exact dvd_mul_right u _

/-- the error is at most half a unit -/
theorem roundTo_near (hu : 0 < u) (n : ℕ) : 2 * n ≤ 2 * roundTo u n + u ∧ 2 * roundTo u n ≤ 2 * n + u := by
  have hdiv := Nat.div_add_mod n u
  have hmod := Nat.mod_lt n hu
  unfold roundTo
  split_ifs with h
  · omega
  · rw [mul_add, mul_one]
    omega

/-- two multiples less than a unit apart are one -/
theorem eq_of_dvd_of_near {a b : ℕ} (ha : u ∣ a) (hb : u ∣ b) (h₁ : a < b + u) (h₂ : b < a + u) : a = b := by
  obtain ⟨i, rfl⟩ := ha
  obtain ⟨j, rfl⟩ := hb
  have hij : i < j + 1 := Nat.lt_of_mul_lt_mul_left (by rwa [mul_add, mul_one])
  have hji : j < i + 1 := Nat.lt_of_mul_lt_mul_left (by rwa [mul_add, mul_one])
  rw [show i = j by omega]

/-- a multiple closer than half a unit is the one -/
theorem roundTo_eq (hm : u ∣ m) (h₁ : 2 * n < 2 * m + u) (h₂ : 2 * m < 2 * n + u) : roundTo u n = m := by
  obtain ⟨hlow, hhigh⟩ := roundTo_near (show 0 < u by omega) n
  exact eq_of_dvd_of_near (dvd_roundTo u n) hm (by omega) (by omega)

end Multiples

/-! ## Significant digits -/

/-- the value of the last of p base-b digits of n -/
def unit (b p n : ℕ) : ℕ := b ^ (Nat.log b n + 1 - p)

def roundSig (b p n : ℕ) : ℕ := roundTo (unit b p n) n

/-- at most p base-b digits, followed by zeros -/
def IsSig (b p n : ℕ) : Prop := ∃ m e, m < b ^ p ∧ n = m * b ^ e

/-- a unit above one: the number has all of its p digits -/
theorem unit_mul_le {b p n : ℕ} (hn : n ≠ 0) (hp : 0 < p) (h : unit b p n ≠ 1) : unit b p n * b ^ (p - 1) ≤ n := by
  have hlong : p < Nat.log b n + 1 := by
    by_contra hshort
    exact h (by rw [unit, Nat.sub_eq_zero_of_le (by omega), pow_zero])
  calc unit b p n * b ^ (p - 1) = b ^ (Nat.log b n) := by rw [unit, ← pow_add]; congr 1; omega
    _ ≤ n := Nat.pow_log_le_self b hn

section Digits

variable {b p : ℕ} (hb : 1 < b)
include hb

theorem unit_pos (n : ℕ) : 0 < unit b p n := Nat.pow_pos (by omega)

theorem lt_unit_mul (n : ℕ) : n < unit b p n * b ^ p := by
  calc n < b ^ (Nat.log b n + 1) := Nat.lt_pow_succ_log_self hb n
    _ ≤ b ^ (Nat.log b n + 1 - p + p) := Nat.pow_le_pow_right (by omega) (by omega)
    _ = unit b p n * b ^ p := pow_add b _ p

theorem isSig_iff_unit_dvd (n : ℕ) : IsSig b p n ↔ unit b p n ∣ n := by
  apply Iff.intro
  · intro ⟨m, e, hm, hn⟩
    rcases Nat.eq_zero_or_pos m with hzero | hpos
    · rw [hn, hzero, zero_mul]
      exact dvd_zero _
    · have hlt : n < b ^ (p + e) := by
        rw [hn, pow_add]
        exact Nat.mul_lt_mul_of_pos_right hm (Nat.pow_pos (by omega))
      have hlog : Nat.log b n < p + e := Nat.log_lt_of_lt_pow (by rw [hn]; positivity) hlt
      have hdvd : unit b p n ∣ b ^ e := pow_dvd_pow b (by omega)
      rw [hn] at hdvd ⊢
      exact hdvd.trans (dvd_mul_left _ _)
  · intro ⟨m, hm⟩
    have hlt := lt_unit_mul (p := p) hb n
    refine ⟨m, Nat.log b n + 1 - p, ?_, by rw [mul_comm]; exact hm⟩
    apply Nat.lt_of_mul_lt_mul_left (a := unit b p n)
    rwa [← hm]

theorem roundSig_of_isSig {n : ℕ} (h : IsSig b p n) : roundSig b p n = n := by
  have hpos := unit_pos (p := p) hb n
  exact roundTo_eq ((isSig_iff_unit_dvd hb n).1 h) (by omega) (by omega)

theorem isSig_roundSig (hp : 0 < p) (n : ℕ) : IsSig b p (roundSig b p n) := by
  have hpos := unit_pos (p := p) hb n
  have hlt := lt_unit_mul (p := p) hb n
  obtain ⟨k, hk⟩ := dvd_roundTo (unit b p n) n
  -- the rounded number has at most `b ^ p` units: all p digits may carry
  have hle : k ≤ b ^ p := by
    obtain ⟨-, hhigh⟩ := roundTo_near hpos n
    by_contra hgt
    have hmul : unit b p n * (b ^ p + 1) ≤ unit b p n * k := Nat.mul_le_mul_left _ (by omega)
    rw [mul_add, mul_one] at hmul
    omega
  rcases hle.lt_or_eq with hless | hfull
  · exact ⟨k, Nat.log b n + 1 - p, hless, hk.trans (mul_comm _ _)⟩
  · refine ⟨1, Nat.log b n + 1 - p + p, Nat.one_lt_pow (by omega) hb, ?_⟩
    rw [one_mul, pow_add, ← hfull]
    exact hk

theorem roundSig_ne_zero {n : ℕ} (hn : n ≠ 0) (hp : 0 < p) : roundSig b p n ≠ 0 := by
  intro hzero
  by_cases hone : unit b p n = 1
  · have hsig : IsSig b p n := (isSig_iff_unit_dvd hb n).2 (hone ▸ one_dvd n)
    exact hn ((roundSig_of_isSig hb hsig).symm.trans hzero)
  · obtain ⟨hlow, -⟩ := roundTo_near (unit_pos (p := p) hb n) n
    have hle := unit_mul_le hn hp hone
    have hself : unit b p n ≤ unit b p n * b ^ (p - 1) := Nat.le_mul_of_pos_right _ (Nat.pow_pos (by omega))
    have hpos := unit_pos (p := p) hb n
    rw [show roundTo (unit b p n) n = 0 from hzero] at hlow
    omega

end Digits

/-! ## There and back -/

section Near

variable {b p x r v : ℕ}

/-- x has its leading digit at place k, and r is a multiple of x's unit less than half of it away -/
theorem roundSig_eq_of_log {k : ℕ} (hlow : b ^ k ≤ x) (hhigh : x < b ^ (k + 1)) (hr : b ^ (k + 1 - p) ∣ r)
    (h₁ : 2 * x < 2 * r + b ^ (k + 1 - p)) (h₂ : 2 * r < 2 * x + b ^ (k + 1 - p)) : roundSig b p x = r := by
  have hlog : Nat.log b x = k := Nat.log_eq_of_pow_le_of_lt_pow hlow hhigh
  rw [roundSig, unit, hlog]
  exact roundTo_eq hr h₁ h₂

/-- just below a power of the base the unit is the next smaller one -/
theorem roundSig_eq_pow {k : ℕ} (hb : 1 < b) (hp : 0 < p) (hlong : p ≤ k) (hx : x < b ^ k)
    (h : 2 * b ^ k < 2 * x + b ^ (k - p)) : roundSig b p x = b ^ k := by
  have hunit : b ^ (k - p) ≤ b ^ (k - 1) := Nat.pow_le_pow_right (by omega) (by omega)
  have htwice : 2 * b ^ (k - 1) ≤ b ^ k := by
    rw [show b ^ k = b * b ^ (k - 1) by rw [← pow_succ']; congr 1; omega]
    exact Nat.mul_le_mul_right _ hb
  have hdown : k - 1 + 1 - p = k - p := by omega
  refine roundSig_eq_of_log (k := k - 1) (by omega) ?_ ?_ ?_ ?_
  · rwa [show k - 1 + 1 = k by omega]
  · exact pow_dvd_pow b (by omega)
  · omega
  · rwa [hdown]

/-- r has p digits, and x differs from it by half of a v that is less than every unit r could be counted in -/
theorem roundSig_eq_of_near (hb : 1 < b) (hp : 0 < p) (hr : IsSig b p r) (hr0 : r ≠ 0) (hv : 0 < v)
    (hsmall : ∀ w, r ≤ w * b ^ p → v < w) (h₁ : 2 * r ≤ 2 * x + v) (h₂ : 2 * x ≤ 2 * r + v) :
    roundSig b p x = r := by
  obtain ⟨L, hL⟩ : ∃ L, L = Nat.log b r := ⟨_, rfl⟩
  have hle : b ^ L ≤ r := hL ▸ Nat.pow_log_le_self b hr0
  have hlt : r < b ^ (L + 1) := hL ▸ Nat.lt_pow_succ_log_self hb r
  have hdvd : b ^ (L + 1 - p) ∣ r := hL ▸ (isSig_iff_unit_dvd hb r).1 hr
  have hunit : v < b ^ (L + 1 - p) := hsmall _ (hL ▸ (lt_unit_mul hb r).le)
  have hlong : p ≤ L := by
    by_contra hshort
    rw [Nat.sub_eq_zero_of_le (by omega), pow_zero] at hunit
    omega
  by_cases hsame : b ^ L ≤ x
  · -- r is at least a unit below the next power, so x is below it too
    have hroom : r + b ^ (L + 1 - p) ≤ b ^ (L + 1) := by
      by_contra hclose
      have heq := eq_of_dvd_of_near hdvd (pow_dvd_pow b (show L + 1 - p ≤ L + 1 by omega)) (by omega) (by omega)
      omega
    exact roundSig_eq_of_log hsame (by omega) hdvd (by omega) (by omega)
  · -- x has fallen below the power, which only r = b ^ L allows
    have hpow : r = b ^ L :=
      eq_of_dvd_of_near hdvd (pow_dvd_pow b (show L + 1 - p ≤ L by omega)) (by omega) (by omega)
    have hnext : v < b ^ (L - p) := by
      apply hsmall
      rw [← pow_add, hpow, Nat.sub_add_cancel hlong]
    rw [hpow] at h₁ ⊢
    exact roundSig_eq_pow hb hp hlong (by omega) (by omega)

end Near

section Conversion

variable {b p c q : ℕ} (hb : 1 < b) (hc : 1 < c) (hp : 0 < p) (hq : 0 < q) (hfine : b ^ p < c ^ (q - 1))
include hb hc hp hq hfine

/-- **Digits survive a finer format.** -/
theorem roundSig_roundSig_of_lt {r : ℕ} (hr : IsSig b p r) : roundSig b p (roundSig c q r) = r := by
  by_cases hexact : r = 0 ∨ unit c q r = 1
  · have hsig : IsSig c q r := by
      rw [isSig_iff_unit_dvd hc]
      rcases hexact with rfl | hone
      · exact dvd_zero _
      · exact hone ▸ one_dvd r
    rw [roundSig_of_isSig hc hsig, roundSig_of_isSig hb hr]
  · push Not at hexact
    obtain ⟨hr0, hv⟩ := hexact
    have hvpos := unit_pos (p := q) hc r
    obtain ⟨h₁, h₂⟩ := roundTo_near hvpos r
    refine roundSig_eq_of_near hb hp hr hr0 hvpos ?_ h₁ h₂
    intro w hw
    have hfull := unit_mul_le hr0 hq hv
    by_contra hge
    have hgap : unit c q r * b ^ p < unit c q r * c ^ (q - 1) := Nat.mul_lt_mul_of_pos_left hfine hvpos
    have hmono : w * b ^ p ≤ unit c q r * b ^ p := Nat.mul_le_mul_right _ (by omega)
    omega

/-- **What survives a coarser format**: exactly the finer format's images of the coarser one's numbers. -/
theorem roundSig_roundSig_eq_iff (a : ℕ) :
    roundSig c q (roundSig b p (roundSig c q a)) = a ↔ ∃ r, IsSig b p r ∧ roundSig c q r = a := by
  apply Iff.intro
  · intro h
    exact ⟨_, isSig_roundSig hb hp _, h⟩
  · intro ⟨r, hr, ha⟩
    have hfixed : roundSig c q a = a := by
      rw [← ha]
      exact roundSig_of_isSig hc (isSig_roundSig hc hq r)
    rw [hfixed, ← ha, roundSig_roundSig_of_lt hb hc hp hq hfine hr]

end Conversion

end OwliesServer.Significant
