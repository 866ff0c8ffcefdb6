/-
Lua's two kinds of numbers, integers and floats, as far as integral values go: how an integer becomes a float, what is
kept of it in the cache, and how either is concatenated.

A float is a double. The cache holds a number as the text `%.14g` gives for its double, and reads it back as a float
(lua_cjson.c, `json_append_number` and `json_next_number_token`). In a concatenation an integer is its decimal digits;
a float is printed with `%.14g` too, with ".0" behind it if that looks like an integer (lobject.c, `luaO_tostring`).
- `readBack_eq_iff`: which integers the cache gives back.
- `toString_append_ne_floatText_append`: no text that starts with an integer starts with a float.
-/
import Mathlib.Data.List.DropRight
import OwliesServer.Core.CChar
import OwliesServer.Core.Significant

namespace OwliesServer.LuaNumber

open OwliesServer.CChar OwliesServer.Significant

/-! ## Values -/

/-- rounding to significant digits keeps the sign -/
def roundInt (b p : ℕ) (n : ℤ) : ℤ := n.sign * roundSig b p n.natAbs

/-- `(double) n`; exact up to the range of doubles, which no 64-bit integer leaves -/
def toDouble (n : ℤ) : ℤ := roundInt 2 53 n

/-- the number that `%.14g` prints -/
def toDecimal (n : ℤ) : ℤ := roundInt 10 14 n

/-- an integer after the cache: `lua_tonumber`, `%.14g`, `strtod` -/
def readBack (n : ℤ) : ℤ := toDouble (toDecimal (toDouble n))

/-- n is the double nearest to a number of at most fourteen decimal digits -/
def Survives (n : ℤ) : Prop := ∃ r, IsSig 10 14 r ∧ roundSig 2 53 r = n.natAbs

section Rounding

variable {b p : ℕ} (hb : 1 < b) (hp : 0 < p)
include hb

theorem natAbs_roundInt (n : ℤ) : (roundInt b p n).natAbs = roundSig b p n.natAbs := by
  rcases eq_or_ne n 0 with rfl | hn
  · have hzero : roundSig b p 0 = 0 := roundSig_of_isSig hb ⟨0, 0, Nat.pow_pos (by omega), by simp⟩
    simp [roundInt, hzero]
  · rw [roundInt, Int.natAbs_mul, Int.natAbs_sign_of_ne_zero hn, one_mul, Int.natAbs_natCast]

include hp in
theorem sign_roundInt (n : ℤ) : (roundInt b p n).sign = n.sign := by
  rcases eq_or_ne n 0 with rfl | hn
  · simp [roundInt]
  · have hpos : 0 < roundSig b p n.natAbs := Nat.pos_of_ne_zero (roundSig_ne_zero hb (by simpa using hn) hp)
    rw [roundInt, Int.sign_mul, Int.sign_sign, Int.sign_natCast_of_ne_zero hpos.ne', mul_one]

end Rounding

/-- **The integers the cache gives back.** -/
theorem readBack_eq_iff (n : ℤ) : readBack n = n ↔ Survives n := by
  have hsign : (readBack n).sign = n.sign := by
    rw [readBack, toDouble, toDecimal, toDouble, sign_roundInt (by omega) (by omega), sign_roundInt (by omega) (by omega),
      sign_roundInt (by omega) (by omega)]
  have habs : (readBack n).natAbs = roundSig 2 53 (roundSig 10 14 (roundSig 2 53 n.natAbs)) := by
    rw [readBack, toDouble, toDecimal, toDouble, natAbs_roundInt (by omega), natAbs_roundInt (by omega),
      natAbs_roundInt (by omega)]
  have heq : readBack n = n ↔ (readBack n).natAbs = n.natAbs := by
    refine ⟨congrArg Int.natAbs, fun h => ?_⟩
    rw [← Int.sign_mul_natAbs (readBack n), hsign, h, Int.sign_mul_natAbs]
  rw [heq, habs, Survives]
  exact roundSig_roundSig_eq_iff (by omega) (by omega) (by omega) (by omega) (by norm_num) n.natAbs

/-- up to fourteen digits nothing is lost -/
theorem survives_of_lt (n : ℤ) (h : n.natAbs < 10 ^ 14) : Survives n :=
  ⟨n.natAbs, ⟨n.natAbs, 0, h, by simp⟩,
    roundSig_of_isSig (by omega) ⟨n.natAbs, 0, h.trans (by norm_num), by simp⟩⟩

/-! ## Texts -/

/-- `%.14g`: plain digits up to fourteen of them, else the leading ones up to the last that is not zero, with an
exponent -/
def generalText (n : ℕ) : List Char :=
  let digits := Nat.toDigits 10 (roundSig 10 14 n)
  if digits.length ≤ 14 then digits
  else
    let fraction := digits.tail.rdropWhile (· = '0')
    digits.take 1 ++ (if fraction = [] then [] else '.' :: fraction) ++ 'e' :: '+' :: Nat.toDigits 10 (digits.length - 1)

/-- `lua_number2str` -/
def number2str (n : ℤ) : List Char := (if n < 0 then ['-'] else []) ++ generalText n.natAbs

/-- a float in a concatenation; irreducible, so that the elaborator does not start printing it -/
@[irreducible] def floatText (n : ℤ) : Bytes :=
  ascii (String.ofList
    (if (number2str n).all fun c => c.isDigit || c = '-' then number2str n ++ ['.', '0'] else number2str n))

/-- what a text that looks like an integer is made of -/
def IntegerLike (c : Char) : Prop := c.isDigit = true ∨ c = '-'

theorem integerLike_of_mem_toDigits {n : ℕ} {c : Char} (h : c ∈ Nat.toDigits 10 n) : IntegerLike c :=
  .inl (Nat.isDigit_of_mem_toDigits (by omega) (by omega) h)

theorem integerLike_toString (n : ℤ) : ∀ c ∈ (toString n).toList, IntegerLike c := by
  intro c hc
  cases n with
  | ofNat m =>
    change c ∈ m.repr.toList at hc
    rw [Nat.toList_repr] at hc
    exact integerLike_of_mem_toDigits hc
  | negSucc m =>
    change c ∈ ("-" ++ (m + 1).repr).toList at hc
    rw [String.toList_append, List.mem_append, Nat.toList_repr] at hc
    rcases hc with hsign | hdigit
    · exact .inr (by simpa using hsign)
    · exact integerLike_of_mem_toDigits hdigit

/-- the characters of a float: a beginning that looks like an integer, then a point or an exponent -/
theorem generalText_cases (n : ℕ) :
    (∀ c ∈ generalText n, IntegerLike c) ∨
    ∃ lead c rest, generalText n = lead ++ c :: rest ∧ (∀ x ∈ lead, IntegerLike x) ∧ (c = '.' ∨ c = 'e') ∧
      ∀ x ∈ rest, IntegerLike x ∨ x = 'e' ∨ x = '+' := by
  unfold generalText
  set digits := Nat.toDigits 10 (roundSig 10 14 n) with hdigits
  have hall : ∀ x ∈ digits, IntegerLike x := fun x hx => integerLike_of_mem_toDigits hx
  have hlead : ∀ x ∈ digits.take 1, IntegerLike x := fun x hx => hall x (List.mem_of_mem_take hx)
  have hexp : ∀ x ∈ '+' :: Nat.toDigits 10 (digits.length - 1), IntegerLike x ∨ x = 'e' ∨ x = '+' := by
    intro x hx
    rcases List.mem_cons.1 hx with rfl | hx
    · exact .inr (.inr rfl)
    · exact .inl (integerLike_of_mem_toDigits hx)
  by_cases hshort : digits.length ≤ 14
  · rw [if_pos hshort]
    exact .inl hall
  rw [if_neg hshort]
  right
  by_cases hfraction : digits.tail.rdropWhile (· = '0') = []
  · refine ⟨digits.take 1, 'e', _, ?_, hlead, .inr rfl, hexp⟩
    simp only [hfraction, if_true, List.append_nil]
  · refine ⟨digits.take 1, '.', digits.tail.rdropWhile (· = '0') ++ 'e' :: '+' :: Nat.toDigits 10 (digits.length - 1), ?_,
      hlead, .inl rfl, ?_⟩
    · simp only [hfraction, if_false, List.append_assoc, List.cons_append]
    · intro x hx
      rcases List.mem_append.1 hx with hx | hx
      · exact .inl (hall x (List.mem_of_mem_tail ((List.rdropWhile_prefix _ _).subset hx)))
      · rcases List.mem_cons.1 hx with rfl | hx
        · exact .inr (.inl rfl)
        · exact hexp x hx

/-- **A float never looks like an integer**: after a sign and digits there is a point or an exponent. -/
theorem floatText_split (n : ℤ) :
    ∃ lead c rest, floatText n = ascii (String.ofList (lead ++ c :: rest)) ∧ (∀ x ∈ lead, IntegerLike x) ∧
      (c = '.' ∨ c = 'e') ∧ ∀ x ∈ rest, IntegerLike x ∨ x = 'e' ∨ x = '+' := by
  have hlike : ∀ text : List Char, (text.all fun c => c.isDigit || c = '-') = true ↔ ∀ c ∈ text, IntegerLike c := by
    intro text
    simp [IntegerLike]
  have hsign : ∀ x ∈ if n < 0 then ['-'] else [], IntegerLike x := by
    split_ifs
    · exact fun x hx => .inr (List.mem_singleton.1 hx)
    · exact fun x hx => nomatch hx
  unfold floatText
  rcases generalText_cases n.natAbs with hplain | ⟨lead, c, rest, htext, hlead, hc, hrest⟩
  · have hall : ∀ x ∈ number2str n, IntegerLike x := List.forall_mem_append.2 ⟨hsign, hplain⟩
    refine ⟨number2str n, '.', ['0'], by rw [if_pos ((hlike _).2 hall)], hall, .inl rfl, ?_⟩
    intro x hx
    rw [List.mem_singleton.1 hx]
    exact .inl (.inl rfl)
  · refine ⟨_, c, rest, ?_, List.forall_mem_append.2 ⟨hsign, hlead⟩, hc, hrest⟩
    rw [if_neg, number2str, htext, List.append_assoc]
    intro hall
    have hodd := (hlike _).1 hall c (by simp [number2str, htext])
    rcases hc with rfl | rfl
    · exact absurd hodd (by unfold IntegerLike; decide)
    · exact absurd hodd (by unfold IntegerLike; decide)

/-! ## Bytes -/

/-- digits and a sign -/
def isIntegerByte (b : Byte) : Bool := (48 ≤ b.toNat && b.toNat ≤ 57) || b.toNat = 45

theorem isIntegerByte_of_integerLike {c : Char} (h : IntegerLike c) : isIntegerByte (BitVec.ofNat 8 c.toNat) = true := by
  rcases h with hdigit | rfl
  · obtain ⟨hlow, hhigh⟩ : 48 ≤ c.toNat ∧ c.toNat ≤ 57 := Char.isDigit_iff_toNat.1 hdigit
    have hbyte : (BitVec.ofNat 8 c.toNat).toNat = c.toNat := by
      rw [BitVec.toNat_ofNat, Nat.mod_eq_of_lt (by omega)]
    simp [isIntegerByte, hbyte, hlow, hhigh]
  · decide

theorem dropWhile_ascii (lead : List Char) (h : ∀ c ∈ lead, IntegerLike c) (rest : Bytes) :
    (ascii (String.ofList lead) ++ rest).dropWhile isIntegerByte = rest.dropWhile isIntegerByte := by
  apply List.dropWhile_append_of_pos
  intro b hb
  rw [ascii, String.toList_ofList] at hb
  obtain ⟨c, hc, rfl⟩ := List.mem_map.1 hb
  exact isIntegerByte_of_integerLike (h c hc)

/-- an integer and "_" are no beginning of a text that begins with a float -/
theorem toString_append_ne_floatText_append (n m : ℤ) (s t : Bytes) :
    ascii (toString n) ++ ascii "_" ++ s ≠ floatText m ++ t := by
  obtain ⟨lead, c, rest, htext, hlead, hc, -⟩ := floatText_split m
  intro heq
  have hdrop := congrArg (List.dropWhile isIntegerByte) heq
  have hleft : (ascii (toString n) ++ ascii "_" ++ s).dropWhile isIntegerByte = ascii "_" ++ s := by
    have h := dropWhile_ascii (toString n).toList (integerLike_toString n) (ascii "_" ++ s)
    rw [String.ofList_toList] at h
    rw [List.append_assoc, h]
    rfl
  have hright : (floatText m ++ t).dropWhile isIntegerByte =
      (BitVec.ofNat 8 c.toNat :: (ascii (String.ofList rest) ++ t)).dropWhile isIntegerByte := by
    have h := dropWhile_ascii lead hlead (BitVec.ofNat 8 c.toNat :: (ascii (String.ofList rest) ++ t))
    rw [← h, htext]
    simp [ascii]
  rw [hleft, hright] at hdrop
  rcases hc with rfl | rfl
  · exact absurd (List.cons.inj hdrop).1 (by decide)
  · exact absurd (List.cons.inj hdrop).1 (by decide)

end OwliesServer.LuaNumber
