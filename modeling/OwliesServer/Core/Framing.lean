/-
Readers of byte streams. A reader takes one item off the front of its input and answers the item with the input behind
it, or `none` where the input is too short; `readStream` applies a reader until the input is used up.

- `Reads read bytes a`: the reader takes `bytes` off the front of any input, and they stand for `a`.
- `reads_be16`, `reads_be32`, `reads_bytes`: the big-endian fields and the byte strings of known length.
- `readStream_flatMap`: a stream of items that are read back one by one is read back as a whole, to its last byte.
-/
import OwliesServer.Core.CChar

namespace OwliesServer.Framing

open OwliesServer.CChar

/-! ## Readers -/

abbrev Reader (α : Type) := Bytes → Option (α × Bytes)

/-- the reader takes exactly `bytes` for `a`, whatever follows -/
def Reads {α : Type} (read : Reader α) (bytes : Bytes) (a : α) : Prop :=
  ∀ rest, read (bytes ++ rest) = some (a, rest)

/-- two bytes, big-endian -/
def readBe16 : Reader ℕ
  | a :: b :: rest => some (a.toNat * 2 ^ 8 + b.toNat, rest)
  | _ => none

/-- four bytes, big-endian, two's complement -/
def readBe32 : Reader ℤ
  | a :: b :: c :: d :: rest =>
    some ((BitVec.ofNat 32 (a.toNat * 2 ^ 24 + b.toNat * 2 ^ 16 + c.toNat * 2 ^ 8 + d.toNat)).toInt, rest)
  | _ => none

def readBytes (n : ℕ) : Reader Bytes := fun input => if n ≤ input.length then some (input.take n, input.drop n) else none

theorem reads_be16 (n : ℕ) (h : n < 2 ^ 16) : Reads readBe16 (be16 (BitVec.ofNat 16 n)) n := by
  intro rest
  simp only [be16, List.cons_append, List.nil_append, readBe16, Option.some.injEq, Prod.mk.injEq, and_true]
  simp only [BitVec.toNat_setWidth, BitVec.toNat_ushiftRight, BitVec.toNat_ofNat, Nat.shiftRight_eq_div_pow]
  omega

theorem reads_be32 (z : ℤ) (hlo : -2 ^ 31 ≤ z) (hhi : z < 2 ^ 31) :
    Reads readBe32 (be32 (BitVec.ofInt 32 z)) z := by
  intro rest
  have hx := (BitVec.ofInt 32 z).isLt
  have hbytes : BitVec.ofNat 32 (((BitVec.ofInt 32 z >>> 24).setWidth 8).toNat * 2 ^ 24 +
      ((BitVec.ofInt 32 z >>> 16).setWidth 8).toNat * 2 ^ 16 + ((BitVec.ofInt 32 z >>> 8).setWidth 8).toNat * 2 ^ 8 +
      ((BitVec.ofInt 32 z).setWidth 8).toNat) = BitVec.ofInt 32 z := by
    apply BitVec.eq_of_toNat_eq
    simp only [BitVec.toNat_ofNat, BitVec.toNat_setWidth, BitVec.toNat_ushiftRight, Nat.shiftRight_eq_div_pow]
    omega
  have hz : (BitVec.ofInt 32 z).toInt = z := by
    rw [BitVec.toInt_ofInt]
    exact Int.bmod_eq_of_le (by omega) (by omega)
  simp only [be32, List.cons_append, List.nil_append, readBe32]
  rw [hbytes, hz]

theorem reads_bytes (s : Bytes) : Reads (readBytes s.length) s s := by
  intro rest
  simp [readBytes]

/-! ## Streams -/

/-- at most `fuel` items, and nothing behind them -/
def readItems {α : Type} (read : Reader α) : ℕ → Bytes → Option (List α)
  | _, [] => some []
  | 0, _ :: _ => none
  | fuel + 1, input@(_ :: _) =>
    match read input with
    | none => none
    | some (a, rest) => (readItems read fuel rest).map (a :: ·)

/-- items until the input is used up; no item is empty, so there are at most as many as bytes -/
def readStream {α : Type} (read : Reader α) (input : Bytes) : Option (List α) := readItems read input.length input

section Stream

variable {α β : Type} (read : Reader α) (write : β → Bytes) (value : β → α) (items : List β)
  (hr : ∀ b ∈ items, Reads read (write b) (value b)) (hne : ∀ b ∈ items, write b ≠ [])

include hr hne

theorem readItems_flatMap (fuel : ℕ) (hf : (items.flatMap write).length ≤ fuel) :
    readItems read fuel (items.flatMap write) = some (items.map value) := by
  induction items generalizing fuel with
  | nil => cases fuel <;> rfl
  | cons b items ih =>
    obtain ⟨hb, hitems⟩ := List.forall_mem_cons.1 hr
    obtain ⟨hnb, hnitems⟩ := List.forall_mem_cons.1 hne
    obtain ⟨c, cs, hc⟩ := List.exists_cons_of_ne_nil hnb
    rw [List.flatMap_cons] at hf ⊢
    have hread := hb (items.flatMap write)
    rw [hc, List.cons_append] at hf hread ⊢
    cases fuel with
    | zero => simp at hf
    | succ fuel =>
      have hrest : (items.flatMap write).length ≤ fuel := by
        simp only [List.length_cons, List.length_append] at hf
        omega
      simp only [readItems, hread, ih hitems hnitems fuel hrest, Option.map_some, List.map_cons]

/-- **A stream of items is read back**, to its last byte. -/
theorem readStream_flatMap : readStream read (items.flatMap write) = some (items.map value) :=
  readItems_flatMap read write value items hr hne _ le_rfl

end Stream

end OwliesServer.Framing
