/-
How values travel between services: `skynet.pack` and `skynet.unpack` (3rd/skynet/lualib-src/lua-seri.c).

A value is written as a byte that holds its type (3 bits) and a cookie (5 bits), and its content. Integers take as few
bytes as they need, strings below 32 bytes have their length in the cookie, and a table is its array part followed by the
other pairs and a nil. The writer collects its output in blocks of 128 bytes, which `seri` copies together.

Values are trees: a table is the list of its values at 1, ..., n and the pairs with other keys. For a table that is packed
n is `lua_rawlen` and the pairs come in the order of `lua_next`; for one that is unpacked n is the length the stream
gives, and the pairs are in the order in which they were set, which Lua does not keep. Doubles and pointers are their 64
bits, and the machine is little-endian. The code has lengths in an `int` (`toInt`). Tables with a `__pairs` metamethod are
left out, and so are failing allocations and the limits of the two stacks.

- `pack_ok_iff`: packing succeeds exactly for values of supported types in which no value is nested in more than 32
  tables, and gives the concatenated encodings, whatever the block boundaries, if the lengths are in the range of an `int`.

`Skynet.SeriRoundTrip` is about unpacking.
-/
import OwliesServer.Core.LittleEndian
import OwliesServer.Core.LuaValue
import OwliesServer.Core.Parser

namespace OwliesServer.Seri

open OwliesServer.CChar OwliesServer.Framing OwliesServer.Lua

inductive Error where
  /-- serialize can't pack too depth table -/
  | tooDepth
  /-- Unsupport type %s to serialize -/
  | unsupportType (typename : Bytes)
  /-- Invalid serialize stream %d (line:%d) -/
  | invalidStream (len line : ℕ)
  /-- table index is NaN -/
  | indexIsNaN
  /-- memory allocation error: block too big -/
  | blockTooBig
  /-- not an error of the code: it ends in `malloc_oom` -/
  | outOfMemory
  /-- not an error of the code: the reader's budget is used up -/
  | budget
deriving DecidableEq, Repr

def TYPE_NIL : ℕ := 0
def TYPE_BOOLEAN : ℕ := 1
def TYPE_NUMBER : ℕ := 2
def TYPE_USERDATA : ℕ := 3
def TYPE_SHORT_STRING : ℕ := 4
def TYPE_LONG_STRING : ℕ := 5
def TYPE_TABLE : ℕ := 6

def TYPE_NUMBER_ZERO : ℕ := 0
def TYPE_NUMBER_BYTE : ℕ := 1
def TYPE_NUMBER_WORD : ℕ := 2
def TYPE_NUMBER_DWORD : ℕ := 4
def TYPE_NUMBER_QWORD : ℕ := 6
def TYPE_NUMBER_REAL : ℕ := 8

def MAX_COOKIE : ℕ := 32
def BLOCK_SIZE : ℕ := 128
def MAX_DEPTH : ℕ := 32

def combineType (t v : ℕ) : Byte := BitVec.ofNat 8 (t ||| v <<< 3)

/-! ## Blocks -/

/-- `struct write_block`: the filled blocks, and what is in the current one -/
structure WriteBlock where
  full : List Bytes
  current : Bytes
  full_length : ∀ b ∈ full, b.length = BLOCK_SIZE
  current_length : current.length ≤ BLOCK_SIZE

namespace WriteBlock

def init : WriteBlock := ⟨[], [], by simp, by simp⟩

/-- a new block behind a full one -/
def next (wb : WriteBlock) (block : Bytes) (h : block.length = BLOCK_SIZE) : WriteBlock where
  full := wb.full ++ [block]
  current := []
  full_length := by
    intro b hb
    rcases List.mem_append.1 hb with hb | hb
    · exact wb.full_length b hb
    · rw [List.mem_singleton.1 hb]
      exact h
  current_length := Nat.zero_le _

/-- the loop of `wb_push`: as much as fits into the current block, the rest into new ones -/
def copy (wb : WriteBlock) (buf : Bytes) : WriteBlock :=
  if h : wb.current.length + buf.length ≤ BLOCK_SIZE then
    { wb with current := wb.current ++ buf, current_length := by rwa [List.length_append] }
  else
    copy (wb.next (wb.current ++ buf.take (BLOCK_SIZE - wb.current.length)) (by
      have := wb.current_length
      rw [List.length_append, List.length_take]
      omega)) (buf.drop (BLOCK_SIZE - wb.current.length))
termination_by wb.current.length + buf.length
decreasing_by
  have := wb.current_length
  have : 0 < BLOCK_SIZE := by decide
  simp only [next, List.length_nil, List.length_drop]
  omega

/-- `wb_push` -/
def push (wb : WriteBlock) (buf : Bytes) : WriteBlock :=
  if h : wb.current.length = BLOCK_SIZE then copy (wb.next wb.current h) buf else copy wb buf

/-- all that was written -/
def bytes (wb : WriteBlock) : Bytes := wb.full.flatten ++ wb.current

end WriteBlock

/-- `seri`: `len` bytes, block by block -/
def seri : List Bytes → ℕ → Bytes
  | [], _ => []
  | b :: bs, len =>
    if len = 0 then []
    else if BLOCK_SIZE ≤ len then b ++ seri bs (len - BLOCK_SIZE)
    else b.take len

/-! ## Packing -/

/-- a `size_t` cast to `int` -/
def toInt (n : ℕ) : ℤ := (BitVec.ofNat 32 n).toInt

theorem toInt_of_lt {n : ℕ} (h : n < 2 ^ 31) : toInt n = n := by
  rw [toInt, BitVec.toInt_eq_toNat_of_lt (by rw [BitVec.toNat_ofNat]; omega), BitVec.toNat_ofNat, Nat.mod_eq_of_lt (by omega)]

/-- the value of a `lua_Integer` after the cast to `int32_t` -/
def int32 (v : BitVec 64) : BitVec 64 := (v.setWidth 32).signExtend 64

def wbInteger (wb : WriteBlock) (v : BitVec 64) : WriteBlock :=
  if v = 0 then wb.push [combineType TYPE_NUMBER TYPE_NUMBER_ZERO]
  else if v ≠ int32 v then (wb.push [combineType TYPE_NUMBER TYPE_NUMBER_QWORD]).push (le 8 v.toNat)
  else if v.toInt < 0 then (wb.push [combineType TYPE_NUMBER TYPE_NUMBER_DWORD]).push (le 4 (v.toNat % 2 ^ 32))
  else if v.toInt < 0x100 then (wb.push [combineType TYPE_NUMBER TYPE_NUMBER_BYTE]).push (le 1 v.toNat)
  else if v.toInt < 0x10000 then (wb.push [combineType TYPE_NUMBER TYPE_NUMBER_WORD]).push (le 2 v.toNat)
  else (wb.push [combineType TYPE_NUMBER TYPE_NUMBER_DWORD]).push (le 4 v.toNat)

def wbString (wb : WriteBlock) (str : Bytes) : WriteBlock :=
  let len := toInt str.length
  if len < MAX_COOKIE then
    let wb := wb.push [combineType TYPE_SHORT_STRING str.length]
    if 0 < len then wb.push (str.take len.toNat) else wb
  else if len < 0x10000 then
    ((wb.push [combineType TYPE_LONG_STRING 2]).push (le 2 len.toNat)).push (str.take len.toNat)
  else ((wb.push [combineType TYPE_LONG_STRING 4]).push (le 4 len.toNat)).push (str.take len.toNat)

/-- the head of a table: the length of its array part -/
def wbTableHead (wb : WriteBlock) (arraySize : ℕ) : WriteBlock :=
  if MAX_COOKIE - 1 ≤ toInt arraySize then
    wbInteger (wb.push [combineType TYPE_TABLE (MAX_COOKIE - 1)]) (BitVec.ofInt 64 (toInt arraySize))
  else wb.push [combineType TYPE_TABLE arraySize]

def wbNil (wb : WriteBlock) : WriteBlock := wb.push [BitVec.ofNat 8 TYPE_NIL]

/-- `pack_one` of a key that is an integer -/
def packIndex (depth : ℕ) (x : ℕ) (wb : WriteBlock) : Except Error WriteBlock :=
  if MAX_DEPTH < depth then .error .tooDepth else .ok (wbInteger wb (BitVec.ofNat 64 x))

mutual

def packOne (depth : ℕ) : Value → WriteBlock → Except Error WriteBlock
  | v, wb =>
    if MAX_DEPTH < depth then .error .tooDepth
    else
      match v with
      | .nil => .ok (wbNil wb)
      | .boolean b => .ok (wb.push [combineType TYPE_BOOLEAN (if b then 1 else 0)])
      | .integer v => .ok (wbInteger wb v)
      | .real bits => .ok ((wb.push [combineType TYPE_NUMBER TYPE_NUMBER_REAL]).push (le 8 bits.toNat))
      | .userdata p => .ok ((wb.push [BitVec.ofNat 8 TYPE_USERDATA]).push (le 8 p.toNat))
      | .string s => .ok (wbString wb s)
      | .table array hash => do
        let wb ← packArray (depth + 1) (toInt array.length).toNat array (wbTableHead wb array.length)
        let wb ← packRest (depth + 1) (toInt array.length).toNat 1 array wb
        let wb ← packHash (depth + 1) hash wb
        return wbNil wb
      | .other typename => .error (.unsupportType typename)

/-- the loop of `wb_table_array`, over as many entries as `array_size` says -/
def packArray (depth : ℕ) : ℕ → List Value → WriteBlock → Except Error WriteBlock
  | _, [], wb => .ok wb
  | 0, _ :: _, wb => .ok wb
  | size + 1, v :: array, wb => do
    let wb ← packOne depth v wb
    packArray depth size array wb

/-- the loop of `wb_table_hash` over the entries from `x` on: those up to `array_size` have been packed -/
def packRest (depth size : ℕ) (x : ℕ) : List Value → WriteBlock → Except Error WriteBlock
  | [], wb => .ok wb
  | v :: array, wb =>
    if x ≤ size ∨ v.isNil then packRest depth size (x + 1) array wb
    else do
      let wb ← packIndex depth x wb
      let wb ← packOne depth v wb
      packRest depth size (x + 1) array wb

/-- the loop of `wb_table_hash` over the other pairs -/
def packHash (depth : ℕ) : List (Value × Value) → WriteBlock → Except Error WriteBlock
  | [], wb => .ok wb
  | (k, v) :: hash, wb => do
    let wb ← packOne depth k wb
    let wb ← packOne depth v wb
    packHash depth hash wb

end

/-- `luaseri_pack` -/
def pack (args : List Value) : Except Error Bytes := do
  let wb ← packArray 0 args.length args WriteBlock.init
  if toInt wb.bytes.length < 0 then throw .outOfMemory
  else return seri (wb.full ++ [wb.current]) (toInt wb.bytes.length).toNat

/-! ## Unpacking -/

abbrev Unpack := Parser Error

/-- `rb_read`, and `invalid_stream` where it gives NULL -/
def rbRead (sz line : ℕ) : Unpack Bytes := take sz fun len => .invalidStream len line

def invalidStream {α : Type} (line : ℕ) : Unpack α := fail fun len => .invalidStream len line

/-- `lua_rawset` -/
def rawset (array : List Value) (hash : List (Value × Value)) (k v : Value) :
    Unpack (List Value × List (Value × Value)) :=
  if inArray array.length (normKey k) then return (array.set (normKey k).index v, hash)
  else if (normKey k).isNaN then fail fun _ => .indexIsNaN
  else return (array, setPair (normKey k) v hash)

def getInteger (cookie : ℕ) : Unpack (BitVec 64) :=
  if cookie = TYPE_NUMBER_ZERO then return 0
  else if cookie = TYPE_NUMBER_BYTE then return BitVec.ofNat 64 (ofLe (← rbRead 1 366))
  else if cookie = TYPE_NUMBER_WORD then return BitVec.ofNat 64 (ofLe (← rbRead 2 374))
  else if cookie = TYPE_NUMBER_DWORD then return (BitVec.ofNat 32 (ofLe (← rbRead 4 382))).signExtend 64
  else if cookie = TYPE_NUMBER_QWORD then return BitVec.ofNat 64 (ofLe (← rbRead 8 390))
  else invalidStream 395

def getReal : Unpack (BitVec 64) := return BitVec.ofNat 64 (ofLe (← rbRead 8 405))

def getPointer : Unpack (BitVec 64) := return BitVec.ofNat 64 (ofLe (← rbRead 8 415))

/-- `get_buffer`: a length that is negative as an `int` passes `rb_read` and is refused by `lua_pushlstring` -/
def getBuffer (len : ℕ) : Unpack Value :=
  if 2 ^ 31 ≤ len then fail fun _ => .blockTooBig
  else return .string (← rbRead len 425)

/-- the length of the array part; it is an `int`, and a negative one runs no loop -/
def tableSize (cookie : ℕ) : Unpack ℕ :=
  if cookie = MAX_COOKIE - 1 then do
    let t ← rbRead 1 438
    if ofLe t % 8 ≠ TYPE_NUMBER ∨ ofLe t / 8 = TYPE_NUMBER_REAL then invalidStream 443
    else do
      let size ← getInteger (ofLe t / 8)
      return (size.setWidth 32).toInt.toNat
  else return cookie

/-- the first loop of `unpack_table` -/
def unpackArray (one : Unpack Value) : ℕ → Unpack (List Value)
  | 0 => return []
  | n + 1 => do
    let v ← one
    let array ← unpackArray one n
    return v :: array

/-- the second loop of `unpack_table` -/
def unpackHash (one : Unpack Value) : ℕ → List Value → List (Value × Value) → Unpack Value
  | 0, _, _ => fail fun _ => .budget
  | budget + 1, array, hash => do
    let k ← one
    if k.isNil then return .table array hash
    else do
      let v ← one
      let t ← rawset array hash k v
      unpackHash one budget t.1 t.2

def unpackTable (one : Unpack Value) (budget cookie : ℕ) : Unpack Value := do
  let size ← tableSize cookie
  let array ← unpackArray one size
  unpackHash one budget array []

def pushValue (one : Unpack Value) (budget type cookie : ℕ) : Unpack Value :=
  if type = TYPE_NIL then return .nil
  else if type = TYPE_BOOLEAN then return .boolean (cookie != 0)
  else if type = TYPE_NUMBER then
    if cookie = TYPE_NUMBER_REAL then return .real (← getReal) else return .integer (← getInteger cookie)
  else if type = TYPE_USERDATA then return .userdata (← getPointer)
  else if type = TYPE_SHORT_STRING then getBuffer cookie
  else if type = TYPE_LONG_STRING then
    if cookie = 2 then do
      let n ← rbRead 2 491
      getBuffer (ofLe n)
    else if cookie ≠ 4 then invalidStream 498
    else do
      let n ← rbRead 4 502
      getBuffer (ofLe n)
  else if type = TYPE_TABLE then unpackTable one budget cookie
  else invalidStream 515

/-- `unpack_one`; the budget is larger than the number of bytes left -/
def unpackOne : ℕ → Unpack Value
  | 0 => fail fun _ => .budget
  | budget + 1 => do
    let t ← rbRead 1 526
    pushValue (unpackOne budget) budget (ofLe t % 8) (ofLe t / 8)

/-- the loop of `luaseri_unpack` -/
def unpackAll : ℕ → Bytes → Except Error (List Value)
  | _, [] => .ok []
  | 0, _ :: _ => .error .budget
  | budget + 1, t :: s => do
    let x ← pushValue (unpackOne budget) budget (t.toNat % 8) (t.toNat / 8) s
    let vs ← unpackAll budget x.2
    return x.1 :: vs

/-- `luaseri_unpack`; with a negative length there is nothing to read -/
def unpack (s : Bytes) : Except Error (List Value) := unpackAll (s.length + 1) (s.take (toInt s.length).toNat)

/-! ## What is written -/

theorem WriteBlock.bytes_copy (wb : WriteBlock) (buf : Bytes) : (wb.copy buf).bytes = wb.bytes ++ buf := by
  fun_induction WriteBlock.copy wb buf with
  | case1 wb buf h => simp [bytes]
  | case2 wb buf h ih =>
    rw [ih]
    simp [bytes, next]

@[simp] theorem WriteBlock.bytes_push (wb : WriteBlock) (buf : Bytes) : (wb.push buf).bytes = wb.bytes ++ buf := by
  unfold push
  split
  · rw [bytes_copy]
    simp [bytes, next]
  · exact bytes_copy wb buf

/-- full blocks and the last one, of which `len` says how much is used -/
theorem seri_eq (full : List Bytes) (current : Bytes) (hfull : ∀ b ∈ full, b.length = BLOCK_SIZE)
    (hcurrent : current.length ≤ BLOCK_SIZE) :
    seri (full ++ [current]) (full.flatten ++ current).length = full.flatten ++ current := by
  induction full with
  | nil =>
    rcases Nat.lt_or_ge current.length BLOCK_SIZE with h | h
    · cases current <;> simp_all [seri]
    · simp_all [seri]
  | cons b full ih =>
    obtain ⟨hb, hfull⟩ := List.forall_mem_cons.1 hfull
    have hpos : 0 < BLOCK_SIZE := by decide
    have hlen : ((b :: full).flatten ++ current).length = BLOCK_SIZE + (full.flatten ++ current).length := by
      simp [hb]
    rw [hlen, List.cons_append, seri, if_neg (by omega), if_pos (by omega), Nat.add_sub_cancel_left, ih hfull]
    simp

def encodeInteger (v : BitVec 64) : Bytes :=
  if v = 0 then [combineType TYPE_NUMBER TYPE_NUMBER_ZERO]
  else if v ≠ int32 v then combineType TYPE_NUMBER TYPE_NUMBER_QWORD :: le 8 v.toNat
  else if v.toInt < 0 then combineType TYPE_NUMBER TYPE_NUMBER_DWORD :: le 4 (v.toNat % 2 ^ 32)
  else if v.toInt < 0x100 then combineType TYPE_NUMBER TYPE_NUMBER_BYTE :: le 1 v.toNat
  else if v.toInt < 0x10000 then combineType TYPE_NUMBER TYPE_NUMBER_WORD :: le 2 v.toNat
  else combineType TYPE_NUMBER TYPE_NUMBER_DWORD :: le 4 v.toNat

def encodeString (str : Bytes) : Bytes :=
  if str.length < MAX_COOKIE then combineType TYPE_SHORT_STRING str.length :: str
  else if str.length < 0x10000 then combineType TYPE_LONG_STRING 2 :: (le 2 str.length ++ str)
  else combineType TYPE_LONG_STRING 4 :: (le 4 str.length ++ str)

def encodeHead (arraySize : ℕ) : Bytes :=
  if MAX_COOKIE - 1 ≤ arraySize then
    combineType TYPE_TABLE (MAX_COOKIE - 1) :: encodeInteger (BitVec.ofNat 64 arraySize)
  else [combineType TYPE_TABLE arraySize]

mutual

/-- the bytes of a value -/
def encode : Value → Bytes
  | .nil => [combineType TYPE_NIL 0]
  | .boolean b => [combineType TYPE_BOOLEAN (if b then 1 else 0)]
  | .integer v => encodeInteger v
  | .real bits => combineType TYPE_NUMBER TYPE_NUMBER_REAL :: le 8 bits.toNat
  | .userdata p => combineType TYPE_USERDATA 0 :: le 8 p.toNat
  | .string s => encodeString s
  | .table array hash => encodeHead array.length ++ encodeArray array ++ encodeHash hash ++ [combineType TYPE_NIL 0]
  | .other _ => []

def encodeArray : List Value → Bytes
  | [] => []
  | v :: array => encode v ++ encodeArray array

def encodeHash : List (Value × Value) → Bytes
  | [] => []
  | (k, v) :: hash => encode k ++ encode v ++ encodeHash hash

end

theorem encodeArray_eq (array : List Value) : encodeArray array = array.flatMap encode := by
  induction array with
  | nil => rfl
  | cons v array ih => rw [encodeArray, ih, List.flatMap_cons]

@[simp] theorem bytes_wbInteger (wb : WriteBlock) (v : BitVec 64) :
    (wbInteger wb v).bytes = wb.bytes ++ encodeInteger v := by
  unfold wbInteger encodeInteger
  split_ifs <;> simp

theorem bytes_wbString (wb : WriteBlock) {s : Bytes} (hs : s.length < 2 ^ 31) :
    (wbString wb s).bytes = wb.bytes ++ encodeString s := by
  have hlong : ((s.length : ℤ) < 0x10000) ↔ s.length < 0x10000 := by omega
  unfold wbString encodeString
  simp only [toInt_of_lt hs, Int.toNat_natCast, List.take_length, Nat.cast_lt, Nat.cast_pos, hlong]
  split_ifs with hshort hpos
  · simp
  · obtain rfl : s = [] := by simpa using hpos
    simp
  · simp
  · simp

theorem bytes_wbTableHead (wb : WriteBlock) {n : ℕ} (hn : n < 2 ^ 31) :
    (wbTableHead wb n).bytes = wb.bytes ++ encodeHead n := by
  have hlong : ((MAX_COOKIE : ℤ) - 1 ≤ n) ↔ MAX_COOKIE - 1 ≤ n := by
    unfold MAX_COOKIE
    omega
  unfold wbTableHead encodeHead
  simp only [toInt_of_lt hn, hlong]
  split_ifs <;> simp

@[simp] theorem bytes_wbNil (wb : WriteBlock) : (wbNil wb).bytes = wb.bytes ++ [combineType TYPE_NIL 0] :=
  WriteBlock.bytes_push wb _

/-! ## Which values are packed -/

/-- a value occurs in another one, inside so many tables -/
inductive Occurs : ℕ → Value → Value → Prop
  | here (v : Value) : Occurs 0 v v
  | array {d : ℕ} {w v : Value} {array : List Value} {hash : List (Value × Value)} (hv : v ∈ array)
    (h : Occurs d w v) : Occurs (d + 1) w (.table array hash)
  | key {d : ℕ} {w : Value} {array : List Value} {hash : List (Value × Value)} {p : Value × Value} (hp : p ∈ hash)
    (h : Occurs d w p.1) : Occurs (d + 1) w (.table array hash)
  | value {d : ℕ} {w : Value} {array : List Value} {hash : List (Value × Value)} {p : Value × Value} (hp : p ∈ hash)
    (h : Occurs d w p.2) : Occurs (d + 1) w (.table array hash)

/-- inside `depth` tables, the value goes no deeper than allowed and holds only supported types -/
def Fits (depth : ℕ) (v : Value) : Prop := ∀ d w, Occurs d w v → depth + d ≤ MAX_DEPTH ∧ ∀ typename, w ≠ .other typename

def isLeaf : Value → Bool
  | .table _ _ => false
  | .other _ => false
  | _ => true

theorem fits_leaf {depth : ℕ} {v : Value} (hleaf : isLeaf v = true) (hdepth : depth ≤ MAX_DEPTH) : Fits depth v := by
  intro d w hw
  cases hw with
  | here =>
    refine ⟨hdepth, ?_⟩
    rintro typename rfl
    cases hleaf
  | array => cases hleaf
  | key => cases hleaf
  | value => cases hleaf

theorem not_fits_other {depth : ℕ} {typename : Bytes} : ¬ Fits depth (.other typename) := by
  intro h
  exact (h 0 _ (.here _)).2 typename rfl

theorem Fits.depth {depth : ℕ} {v : Value} (h : Fits depth v) : depth ≤ MAX_DEPTH := (h 0 v (.here v)).1

theorem fits_table {depth : ℕ} {array : List Value} {hash : List (Value × Value)} :
    Fits depth (.table array hash) ↔ depth ≤ MAX_DEPTH ∧ (∀ v ∈ array, Fits (depth + 1) v) ∧
      ∀ p ∈ hash, Fits (depth + 1) p.1 ∧ Fits (depth + 1) p.2 := by
  have hshift : ∀ d, depth + 1 + d = depth + (d + 1) := by omega
  apply Iff.intro
  · intro h
    refine ⟨h.depth, ?_, ?_⟩
    · intro v hv d w hw
      rw [hshift]
      exact h _ _ (.array hv hw)
    · intro p hp
      refine ⟨?_, ?_⟩
      · intro d w hw
        rw [hshift]
        exact h _ _ (.key hp hw)
      · intro d w hw
        rw [hshift]
        exact h _ _ (.value hp hw)
  · intro ⟨hdepth, harray, hhash⟩ d w hw
    cases hw with
    | here => exact ⟨hdepth, fun _ => nofun⟩
    | array hv hw =>
      rw [← hshift]
      exact harray _ hv _ _ hw
    | key hp hw =>
      rw [← hshift]
      exact (hhash _ hp).1 _ _ hw
    | value hp hw =>
      rw [← hshift]
      exact (hhash _ hp).2 _ _ hw

/-- the length of a string, or of the array part of a table -/
def span : Value → ℕ
  | .string s => s.length
  | .table array _ => array.length
  | _ => 0

/-- the lengths in the value are in the range of an `int` -/
def Small (v : Value) : Prop := ∀ d w, Occurs d w v → span w < 2 ^ 31

theorem small_leaf {v : Value} (hleaf : isLeaf v = true) (hspan : span v < 2 ^ 31) : Small v := by
  intro d w hw
  cases hw with
  | here => exact hspan
  | array => cases hleaf
  | key => cases hleaf
  | value => cases hleaf

theorem small_table {array : List Value} {hash : List (Value × Value)} : Small (.table array hash) ↔
    array.length < 2 ^ 31 ∧ (∀ v ∈ array, Small v) ∧ ∀ p ∈ hash, Small p.1 ∧ Small p.2 := by
  apply Iff.intro
  · intro h
    exact ⟨h 0 _ (.here _), fun _ hv _ _ hw => h _ _ (.array hv hw),
      fun _ hp => ⟨fun _ _ hw => h _ _ (.key hp hw), fun _ _ hw => h _ _ (.value hp hw)⟩⟩
  · rintro ⟨hsize, harray, hhash⟩ d w hw
    cases hw with
    | here => exact hsize
    | array hv hw => exact harray _ hv _ _ hw
    | key hp hw => exact (hhash _ hp).1 _ _ hw
    | value hp hw => exact (hhash _ hp).2 _ _ hw

/-- entries that have been packed are passed over -/
theorem packRest_of_le {depth size : ℕ} (array : List Value) (x : ℕ) (h : x + array.length ≤ size + 1) (wb : WriteBlock) :
    packRest depth size x array wb = .ok wb := by
  induction array generalizing x with
  | nil => rw [packRest]
  | cons v array ih =>
    rw [List.length_cons] at h
    rw [packRest, if_pos (.inl (by omega))]
    exact ih (x + 1) (by omega)

/-- what a writer does to any output so far: it succeeds exactly if `ok`, and then has appended `more` -/
def Appends (f : WriteBlock → Except Error WriteBlock) (ok : Prop) (more : Bytes) : Prop :=
  ∀ wb, (ok → ∃ wb', f wb = .ok wb' ∧ wb'.bytes = wb.bytes ++ more) ∧ (¬ ok → ∃ e, f wb = .error e)

theorem appends_ok {g : WriteBlock → WriteBlock} {ok : Prop} {more : Bytes} (h : ok)
    (hg : ∀ wb, (g wb).bytes = wb.bytes ++ more) : Appends (fun wb => .ok (g wb)) ok more :=
  fun wb => ⟨fun _ => ⟨g wb, rfl, hg wb⟩, fun hn => absurd h hn⟩

theorem appends_error {e : Error} {ok : Prop} {more : Bytes} (h : ¬ ok) : Appends (fun _ => .error e) ok more :=
  fun _ => ⟨fun hok => absurd hok h, fun _ => ⟨e, rfl⟩⟩

theorem Appends.bind {f g : WriteBlock → Except Error WriteBlock} {ok ok' : Prop} {more more' : Bytes}
    (hf : Appends f ok more) (hg : Appends g ok' more') :
    Appends (fun wb => f wb >>= g) (ok ∧ ok') (more ++ more') := by
  intro wb
  by_cases hok : ok
  · obtain ⟨wb', hwb, hout⟩ := (hf wb).1 hok
    simp only [hwb]
    have h := hg wb'
    rw [hout, List.append_assoc] at h
    exact ⟨fun hboth => h.1 hboth.2, fun hnot => h.2 fun hok' => hnot ⟨hok, hok'⟩⟩
  · obtain ⟨e, he⟩ := (hf wb).2 hok
    simp only [he]
    exact ⟨fun hboth => absurd hboth.1 hok, fun _ => ⟨e, rfl⟩⟩

theorem Appends.congr {f : WriteBlock → Except Error WriteBlock} {ok ok' : Prop} {more more' : Bytes}
    (h : Appends f ok more) (hok : ok' ↔ ok) (hmore : more' = more) : Appends f ok' more' := by
  rw [hmore, propext hok]
  exact h

mutual

theorem packOne_appends (depth : ℕ) (v : Value) (hv : Small v) : Appends (packOne depth v) (Fits depth v) (encode v) := by
  change Appends (fun wb => packOne depth v wb) _ _
  unfold packOne
  by_cases hdepth : MAX_DEPTH < depth
  · simp only [if_pos hdepth]
    exact appends_error fun h => absurd h.depth (by omega)
  · simp only [if_neg hdepth]
    have hle : depth ≤ MAX_DEPTH := by omega
    cases v with
    | nil => exact appends_ok (fits_leaf rfl hle) fun wb => by simp [encode]
    | boolean b => exact appends_ok (fits_leaf rfl hle) fun wb => by simp [encode]
    | integer v => exact appends_ok (fits_leaf rfl hle) fun wb => by simp [encode]
    | real bits => exact appends_ok (fits_leaf rfl hle) fun wb => by simp [encode]
    | userdata p => exact appends_ok (fits_leaf rfl hle) fun wb => by simp [encode, combineType]
    | string s => exact appends_ok (fits_leaf rfl hle) fun wb => by rw [bytes_wbString wb (hv 0 _ (.here _)), encode]
    | table array hash =>
      obtain ⟨hsize, harray, hhash⟩ := small_table.1 hv
      have hhead : Appends (fun wb => .ok (wbTableHead wb array.length)) True (encodeHead array.length) :=
        appends_ok trivial fun wb => bytes_wbTableHead wb hsize
      have hnil : Appends (fun wb => .ok (wbNil wb)) True [combineType TYPE_NIL 0] :=
        appends_ok trivial bytes_wbNil
      have hall := hhead.bind ((packArray_appends (depth + 1) array harray).bind
        ((packHash_appends (depth + 1) hash hhash).bind hnil))
      -- the whole array part is packed by the first loop
      simp only [toInt_of_lt hsize, Int.toNat_natCast, packRest_of_le array 1 (Nat.le_of_eq (Nat.add_comm _ _)), ok_bind]
      refine hall.congr ?_ (by simp [encode])
      rw [fits_table]
      simp [hle]
    | other typename => exact appends_error not_fits_other

theorem packArray_appends (depth : ℕ) (array : List Value) (harray : ∀ v ∈ array, Small v) :
    Appends (packArray depth array.length array) (∀ v ∈ array, Fits depth v) (encodeArray array) := by
  match array with
  | [] => exact appends_ok (by simp) fun wb => by simp [encodeArray]
  | v :: array =>
    obtain ⟨hv, harray⟩ := List.forall_mem_cons.1 harray
    refine ((packOne_appends depth v hv).bind (packArray_appends depth array harray)).congr ?_ (by rw [encodeArray])
    simp

theorem packHash_appends (depth : ℕ) (hash : List (Value × Value)) (hhash : ∀ p ∈ hash, Small p.1 ∧ Small p.2) :
    Appends (packHash depth hash) (∀ p ∈ hash, Fits depth p.1 ∧ Fits depth p.2) (encodeHash hash) := by
  match hash with
  | [] => exact appends_ok (by simp) fun wb => by simp [encodeHash]
  | (k, v) :: hash =>
    obtain ⟨⟨hk, hv⟩, hhash⟩ := List.forall_mem_cons.1 hhash
    refine ((packOne_appends depth k hk).bind ((packOne_appends depth v hv).bind
      (packHash_appends depth hash hhash))).congr ?_ (by simp [encodeHash])
    simp [and_assoc]

end

section Pack

variable {args : List Value} (hsmall : ∀ v ∈ args, Small v)
include hsmall

theorem pack_of_fits (hsize : (args.flatMap encode).length < 2 ^ 31) (h : ∀ v ∈ args, Fits 0 v) :
    pack args = .ok (args.flatMap encode) := by
  obtain ⟨wb, hwb, hout⟩ := (packArray_appends 0 args hsmall WriteBlock.init).1 h
  have hbytes : wb.bytes = args.flatMap encode := by
    rw [hout, encodeArray_eq]
    rfl
  rw [← hbytes] at hsize
  simp only [pack, hwb, ok_bind, toInt_of_lt hsize, Int.toNat_natCast]
  rw [if_neg (by omega), ← hbytes]
  exact congrArg Except.ok (seri_eq wb.full wb.current wb.full_length wb.current_length)

theorem fits_of_pack {bytes : Bytes} (h : pack args = .ok bytes) : ∀ v ∈ args, Fits 0 v := by
  by_contra hfits
  obtain ⟨e, he⟩ := (packArray_appends 0 args hsmall WriteBlock.init).2 hfits
  rw [pack, he] at h
  cases h

end Pack

/-- **Packing succeeds exactly for values of supported types that are nested in at most 32 tables, and gives their
encodings one after the other**, as long as the lengths of strings and array parts and of the whole are below 2^31. -/
theorem pack_ok_iff (args : List Value) (hsmall : ∀ v ∈ args, Small v) (hsize : (args.flatMap encode).length < 2 ^ 31)
    (bytes : Bytes) : pack args = .ok bytes ↔ (∀ v ∈ args, Fits 0 v) ∧ bytes = args.flatMap encode := by
  apply Iff.intro
  · intro h
    have hfits := fits_of_pack hsmall h
    rw [pack_of_fits hsmall hsize hfits, Except.ok.injEq] at h
    exact ⟨hfits, h.symm⟩
  · rintro ⟨hfits, hbytes⟩
    rw [hbytes]
    exact pack_of_fits hsmall hsize hfits

/-- a list with one more pair, and a double -/
def sampleArgs : List Value := [.table [.boolean true] [(.string (ascii "k"), .integer 300)], .real 0]

theorem fits_sampleArgs : ∀ v ∈ sampleArgs, Fits 0 v := by
  refine List.forall_mem_cons.2 ⟨fits_table.2 ⟨by decide, ?_, ?_⟩, List.forall_mem_singleton.2 (fits_leaf rfl (by decide))⟩
  · exact List.forall_mem_singleton.2 (fits_leaf rfl (by decide))
  · exact List.forall_mem_singleton.2 ⟨fits_leaf rfl (by decide), fits_leaf rfl (by decide)⟩

theorem pack_ok_iff_sampleArgs :
    pack sampleArgs = .ok (sampleArgs.flatMap encode) ∧ (sampleArgs.flatMap encode).length = 17 := by
  have hsmall : ∀ v ∈ sampleArgs, Small v := by
    refine List.forall_mem_cons.2 ⟨small_table.2 ⟨by decide, ?_, ?_⟩, List.forall_mem_singleton.2 (small_leaf rfl (by decide))⟩
    · exact List.forall_mem_singleton.2 (small_leaf rfl (by decide))
    · exact List.forall_mem_singleton.2 ⟨small_leaf rfl (by decide), small_leaf rfl (by decide)⟩
  have hlength : (sampleArgs.flatMap encode).length = 17 := by decide
  exact ⟨(pack_ok_iff sampleArgs hsmall (by omega) _).2 ⟨fits_sampleArgs, rfl⟩, hlength⟩

end OwliesServer.Seri
