/-
Little-endian numbers in byte strings: `le w n` are the `w` low bytes of `n`, least significant first, and `ofLe` is the
number that bytes stand for.
-/
import OwliesServer.Core.CChar

namespace OwliesServer.Framing

open OwliesServer.CChar

def le : ℕ → ℕ → Bytes
  | 0, _ => []
  | w + 1, n => BitVec.ofNat 8 n :: le w (n / 2 ^ 8)

def ofLe : Bytes → ℕ
  | [] => 0
  | b :: s => b.toNat + 2 ^ 8 * ofLe s

@[simp] theorem length_le (w n : ℕ) : (le w n).length = w := by
  induction w generalizing n with
  | zero => rfl
  | succ w ih => simp [le, ih]

theorem ofLe_le (w n : ℕ) : ofLe (le w n) = n % 2 ^ (8 * w) := by
  induction w generalizing n with
  | zero => rw [le, ofLe, Nat.mul_zero, Nat.pow_zero, Nat.mod_one]
  | succ w ih =>
    have hpow : 2 ^ (8 * (w + 1)) = 2 ^ 8 * 2 ^ (8 * w) := by
      rw [← Nat.pow_add]
      congr 1
      omega
    rw [le, ofLe, ih, BitVec.toNat_ofNat, hpow, Nat.mod_mul]

theorem le_add (a b n : ℕ) : le (a + b) n = le a n ++ le b (n / 2 ^ (8 * a)) := by
  induction a generalizing n with
  | zero => rw [Nat.zero_add, le, List.nil_append, Nat.mul_zero, Nat.pow_zero, Nat.div_one]
  | succ a ih =>
    rw [Nat.succ_add, le, ih, le, List.cons_append, Nat.div_div_eq_div_mul, ← Nat.pow_add, Nat.mul_succ, Nat.add_comm 8]

/-- only the low bytes count -/
theorem le_mod (w n : ℕ) : le w (n % 2 ^ (8 * w)) = le w n := by
  induction w generalizing n with
  | zero => rfl
  | succ w ih =>
    have hpow : 2 ^ (8 * (w + 1)) = 2 ^ 8 * 2 ^ (8 * w) := by
      rw [← Nat.pow_add]
      congr 1
      omega
    have hhead : BitVec.ofNat 8 (n % 2 ^ (8 * (w + 1))) = BitVec.ofNat 8 n := by
      apply BitVec.eq_of_toNat_eq
      rw [BitVec.toNat_ofNat, BitVec.toNat_ofNat, hpow, Nat.mod_mul_right_mod]
    rw [le, le, hhead, hpow, Nat.mod_mul_right_div_self, ih]

theorem ofLe_lt (s : Bytes) : ofLe s < 2 ^ (8 * s.length) := by
  induction s with
  | nil => decide
  | cons b s ih =>
    have hb := b.isLt
    rw [List.length_cons, Nat.mul_succ, Nat.pow_add, ofLe]
    omega

end OwliesServer.Framing
