/-
Bytes, and the part of C integer arithmetic that a byte decoder written with plain `char` meets.

`char` is signed and eight bits wide (x86-64, gcc and clang), `int` is 32 bits in two's complement. A `char` operand of
`<<` or `|` is first promoted to `int`, that is sign-extended (`promote`); shifting keeps the low 32 bits.
- `orBytes2`, `orBytes4`: the usual big-endian read `b0 << 24 | b1 << 16 | b2 << 8 | b3`, with promoted operands;
- `be16`, `be32`: the big-endian bytes of a value;
- `toInt_orBytes4_be32`, `toInt_orBytes2_be16`: what the read makes of them. A byte at or above 0x80 is promoted to a
  negative `int` whose upper bits are all ones, and these ones overwrite the bytes before it;
- `orBytes4_exact_iff`: the read gives the value back exactly for `SignClean` values.
-/
import Mathlib.Tactic

namespace OwliesServer.CChar

/-- eight bits; what a C `char`, a Lua string and a socket carry -/
abbrev Byte := BitVec 8

abbrev Bytes := List Byte

/-- the bytes of an ASCII string literal -/
def ascii (s : String) : Bytes := s.toList.map fun c => BitVec.ofNat 8 c.toNat

/-! ## Reading -/

/-- integer promotion of a plain (signed) `char` -/
def promote (b : Byte) : BitVec 32 := b.signExtend 32

/-- `b0 << 8 | b1` -/
def orBytes2 (b0 b1 : Byte) : BitVec 32 := promote b0 <<< 8 ||| promote b1

/-- `b0 << 24 | b1 << 16 | b2 << 8 | b3` -/
def orBytes4 (b0 b1 b2 b3 : Byte) : BitVec 32 :=
  promote b0 <<< 24 ||| promote b1 <<< 16 ||| promote b2 <<< 8 ||| promote b3

theorem getLsbD_promote (b : Byte) (i : ℕ) (hi : i < 32) :
    (promote b).getLsbD i = if i < 8 then b.getLsbD i else b.msb := by
  simp only [promote, BitVec.getLsbD_signExtend, hi, decide_true, Bool.true_and]

theorem toInt_promote (b : Byte) : (promote b).toInt = if 128 ≤ b.toNat then (b.toNat : ℤ) - 256 else b.toNat := by
  rw [promote, BitVec.toInt_signExtend_of_le (by omega), BitVec.toInt_eq_toNat_cond]
  split_ifs <;> omega

theorem msb_iff (b : Byte) : b.msb = true ↔ 128 ≤ b.toNat := by
  rw [BitVec.msb_eq_decide]; simp

/-- a promoted byte with its top bit set overwrites everything above it -/
theorem or_promote_of_ge (acc : BitVec 32) (b : Byte) (h : 128 ≤ b.toNat) : acc <<< 8 ||| promote b = promote b := by
  have hm := (msb_iff b).2 h
  apply BitVec.eq_of_getLsbD_eq
  intro i hi
  simp only [BitVec.getLsbD_or, BitVec.getLsbD_shiftLeft, hi, decide_true, Bool.true_and]
  by_cases h8 : i < 8
  · simp [h8]
  · simp [getLsbD_promote b i hi, h8, hm]

/-- any other byte only fills the low eight bits -/
theorem or_promote_of_lt (acc : BitVec 32) (b : Byte) (h : b.toNat < 128) :
    (acc <<< 8 ||| promote b).toNat = acc.toNat % 2 ^ 24 * 256 + b.toNat := by
  have hm : b.msb = false := by
    cases hb : b.msb
    · rfl
    · have := (msb_iff b).1 hb; omega
  have hb : promote b = b.setWidth 32 := by
    apply BitVec.eq_of_getLsbD_eq
    intro i hi
    rw [getLsbD_promote b i hi, hm, BitVec.getLsbD_setWidth]
    by_cases h8 : i < 8
    · simp [h8, hi]
    · simp [h8, BitVec.getLsbD_of_ge b i (by omega)]
  have hs : (acc <<< 8).toNat = acc.toNat % 2 ^ 24 * 2 ^ 8 := by
    rw [BitVec.toNat_shiftLeft, Nat.shiftLeft_eq]; omega
  have hw : (b.setWidth 32).toNat = b.toNat := by
    rw [BitVec.toNat_setWidth]; omega
  rw [BitVec.toNat_or, hs, hb, hw, ← Nat.shiftLeft_eq, ← Nat.shiftLeft_add_eq_or_of_lt (by omega), Nat.shiftLeft_eq]

theorem orBytes4_eq (b0 b1 b2 b3 : Byte) :
    orBytes4 b0 b1 b2 b3 = ((promote b0 <<< 8 ||| promote b1) <<< 8 ||| promote b2) <<< 8 ||| promote b3 := by
  simp only [orBytes4, BitVec.shiftLeft_or_distrib, ← BitVec.shiftLeft_add]

/-- the two-byte read, in numbers -/
theorem toInt_orBytes2 (b0 b1 : Byte) :
    (orBytes2 b0 b1).toInt =
      if 128 ≤ b1.toNat then (b1.toNat : ℤ) - 256
      else if 128 ≤ b0.toNat then (b0.toNat : ℤ) * 256 + b1.toNat - 2 ^ 16 else (b0.toNat : ℤ) * 256 + b1.toNat := by
  unfold orBytes2
  by_cases h1 : 128 ≤ b1.toNat
  · rw [or_promote_of_ge _ _ h1, toInt_promote, if_pos h1, if_pos h1]
  · have hp := toInt_promote b0
    rw [BitVec.toInt_eq_toNat_cond] at hp ⊢
    rw [or_promote_of_lt _ _ (by omega)]
    split_ifs at hp ⊢ <;> omega

/-- the four-byte read, in numbers -/
theorem toInt_orBytes4 (b0 b1 b2 b3 : Byte) :
    (orBytes4 b0 b1 b2 b3).toInt =
      if 128 ≤ b3.toNat then (b3.toNat : ℤ) - 256
      else if 128 ≤ b2.toNat then (b2.toNat : ℤ) * 256 + b3.toNat - 2 ^ 16
      else if 128 ≤ b1.toNat then (b1.toNat : ℤ) * 2 ^ 16 + b2.toNat * 256 + b3.toNat - 2 ^ 24
      else if 128 ≤ b0.toNat then
        (b0.toNat : ℤ) * 2 ^ 24 + b1.toNat * 2 ^ 16 + b2.toNat * 256 + b3.toNat - 2 ^ 32
      else (b0.toNat : ℤ) * 2 ^ 24 + b1.toNat * 2 ^ 16 + b2.toNat * 256 + b3.toNat := by
  have hp0 := toInt_promote b0
  have hp1 := toInt_promote b1
  have hp2 := toInt_promote b2
  rw [orBytes4_eq]
  by_cases h3 : 128 ≤ b3.toNat
  · rw [or_promote_of_ge _ _ h3, toInt_promote, if_pos h3, if_pos h3]
  -- from here on the last byte only fills the low eight bits
  rw [BitVec.toInt_eq_toNat_cond, or_promote_of_lt _ _ (by omega), if_neg h3]
  rw [BitVec.toInt_eq_toNat_cond] at hp0 hp1 hp2
  by_cases h2 : 128 ≤ b2.toNat
  · rw [or_promote_of_ge _ _ h2]
    split_ifs at hp2 ⊢ <;> omega
  rw [or_promote_of_lt _ _ (by omega)]
  by_cases h1 : 128 ≤ b1.toNat
  · rw [or_promote_of_ge _ _ h1]
    split_ifs at hp1 ⊢ <;> omega
  rw [or_promote_of_lt _ _ (by omega)]
  split_ifs at hp0 ⊢ <;> omega

/-! ## Big-endian bytes -/

/-- the four big-endian bytes of a 32-bit value -/
def be32 (x : BitVec 32) : Bytes :=
  [(x >>> 24).setWidth 8, (x >>> 16).setWidth 8, (x >>> 8).setWidth 8, x.setWidth 8]

/-- the two big-endian bytes of a 16-bit value -/
def be16 (x : BitVec 16) : Bytes := [(x >>> 8).setWidth 8, x.setWidth 8]

/-- what the four-byte read makes of the big-endian bytes of `x` -/
theorem toInt_orBytes4_be32 (x : BitVec 32) :
    (orBytes4 ((x >>> 24).setWidth 8) ((x >>> 16).setWidth 8) ((x >>> 8).setWidth 8) (x.setWidth 8)).toInt =
      if 2 ^ 7 ≤ x.toNat % 2 ^ 8 then ((x.toNat % 2 ^ 8 : ℕ) : ℤ) - 2 ^ 8
      else if 2 ^ 15 ≤ x.toNat % 2 ^ 16 then ((x.toNat % 2 ^ 16 : ℕ) : ℤ) - 2 ^ 16
      else if 2 ^ 23 ≤ x.toNat % 2 ^ 24 then ((x.toNat % 2 ^ 24 : ℕ) : ℤ) - 2 ^ 24
      else x.toInt := by
  have hx := x.isLt
  rw [toInt_orBytes4, BitVec.toInt_eq_toNat_cond]
  simp only [BitVec.toNat_setWidth, BitVec.toNat_ushiftRight, Nat.shiftRight_eq_div_pow]
  split_ifs <;> omega

/-- what the two-byte read makes of the big-endian bytes of `x` -/
theorem toInt_orBytes2_be16 (x : BitVec 16) :
    (orBytes2 ((x >>> 8).setWidth 8) (x.setWidth 8)).toInt =
      if 2 ^ 7 ≤ x.toNat % 2 ^ 8 then ((x.toNat % 2 ^ 8 : ℕ) : ℤ) - 2 ^ 8 else x.toInt := by
  have hx := x.isLt
  rw [toInt_orBytes2, BitVec.toInt_eq_toNat_cond]
  simp only [BitVec.toNat_setWidth, BitVec.toNat_ushiftRight, Nat.shiftRight_eq_div_pow]
  split_ifs <;> omega

/-- every byte of `x` with its top bit set has only 0xFF bytes before it -/
def SignClean (x : BitVec 32) : Prop :=
  (2 ^ 7 ≤ x.toNat % 2 ^ 8 → 2 ^ 32 - 2 ^ 7 ≤ x.toNat) ∧ (2 ^ 15 ≤ x.toNat % 2 ^ 16 → 2 ^ 32 - 2 ^ 15 ≤ x.toNat) ∧
    (2 ^ 23 ≤ x.toNat % 2 ^ 24 → 2 ^ 32 - 2 ^ 23 ≤ x.toNat)

instance (x : BitVec 32) : Decidable (SignClean x) := by
  unfold SignClean; infer_instance

/-- **The signed read is exact on sign-clean values**, and on no other. -/
theorem orBytes4_exact_iff (x : BitVec 32) :
    (orBytes4 ((x >>> 24).setWidth 8) ((x >>> 16).setWidth 8) ((x >>> 8).setWidth 8) (x.setWidth 8)).toInt = x.toInt ↔
      SignClean x := by
  have hx := x.isLt
  rw [toInt_orBytes4_be32, BitVec.toInt_eq_toNat_cond, SignClean]
  split_ifs <;> omega

end OwliesServer.CChar
