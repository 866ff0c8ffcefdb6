/-
The payload of the messages: sproto's encoder and decoder, as the server calls them from Lua
(3rd/skynet/lualib-src/sproto: sproto.c, lsproto.c).

A message is a table with named fields. On the wire it is a number of 16-bit records, the records, and the data of the
fields that do not fit into their record. Fields go by tags: a record is the next tag's value, or skips tags if it is odd.

- `SprotoType` is a type as `import_type` leaves it; its fields are in ascending order of their tags.
- `sprotoEncode`, `sprotoDecode` call back into lsproto.c for every field, and that calls them again for a struct. A call
  back from 64 structs deep raises an error, so the recursion is on the levels that are left.
- Encoding writes into a buffer of a given size. Where a check finds that too small the result is `negative`, and `lencode`
  tries a bigger one. The checks and the accesses are two things: every write goes through `writeBytes` with the room there
  is, every read through `readBytes` with the bytes there are, and `Stop.outside` is an access that no check has stopped.
  The behaviour of the C code ends with it.
- Values are the trees of `Lua`; tables have no metatable. What Lua makes of a string where an integer is expected, and of
  a double where a string is, are parameters (`Conversions`).

`findtag_eq_some`: both ways in which `findtag` searches find the field with the tag. `Wire.SprotoRoundTrip`,
`Wire.SprotoBuffer` and `Wire.SprotoBounds` are about encoding and decoding.
-/
import OwliesServer.Core.LittleEndian
import OwliesServer.Core.LuaValue
import OwliesServer.Core.Parser

namespace OwliesServer.Sproto

open OwliesServer.CChar OwliesServer.Framing OwliesServer.Lua

/-! ## Types -/

inductive Kind where
  | integer
  | boolean
  | string
  | struct (index : ℕ)
deriving DecidableEq, Repr

/-- `type` with SPROTO_TARRAY, and `key`: only arrays of structs have a main index (sprotoparser.lua) -/
inductive Shape where
  | single (k : Kind)
  | array (k : Kind)
  | map (index key : ℕ)
deriving DecidableEq, Repr

structure Field where
  name : Bytes
  tag : ℕ
  shape : Shape
deriving DecidableEq, Repr

/-- `struct sproto_type`; a tag comes from an even 16-bit record, and the next tag must be larger -/
structure SprotoType where
  fields : List Field
  tag_lt : ∀ f ∈ fields, f.tag < 0x7fff
  ascending : fields.Pairwise fun f g => f.tag < g.tag

/-- `maxn` of `import_type`, from the tag expected next: a record for each field, and one for each gap -/
def maxnFrom : ℕ → List Field → ℕ
  | _, [] => 0
  | next, f :: fields => (if next < f.tag then 2 else 1) + maxnFrom (f.tag + 1) fields

def SprotoType.maxn (st : SprotoType) : ℕ := maxnFrom 0 st.fields

/-- `base`: the first tag if there are no gaps behind it, else -1 -/
def SprotoType.base (st : SprotoType) : Option ℕ :=
  match st.fields.head?, st.fields.getLast? with
  | some f, some l => if l.tag - f.tag + 1 = st.fields.length then some f.tag else none
  | _, _ => some 0

/-- the binary search of `findtag` -/
def search (fields : List Field) (tag begin_ end_ : ℕ) : Option Field :=
  if begin_ < end_ then
    match fields[(begin_ + end_) / 2]? with
    | none => none
    | some f =>
      if f.tag = tag then some f
      else if f.tag < tag then search fields tag ((begin_ + end_) / 2 + 1) end_
      else search fields tag begin_ ((begin_ + end_) / 2)
  else none
termination_by end_ - begin_

def findtag (st : SprotoType) (tag : ℕ) : Option Field :=
  match st.base with
  | some base => if tag < base ∨ st.fields.length ≤ tag - base then none else st.fields[tag - base]?
  | none => search st.fields tag 0 st.fields.length

/-- the types of a scheme; a field refers to a struct by its index -/
abbrev Scheme := List SprotoType

def emptyType : SprotoType := ⟨[], by simp, .nil⟩

def Scheme.type (scheme : Scheme) (i : ℕ) : SprotoType := scheme.getD i emptyType

section Findtag

variable {fields : List Field} (hasc : fields.Pairwise fun f g => f.tag < g.tag)
include hasc

theorem tag_lt_of_lt {i j : ℕ} {f g : Field} (hi : fields[i]? = some f) (hj : fields[j]? = some g) (hij : i < j) :
    f.tag < g.tag := by
  obtain ⟨hi', rfl⟩ := List.getElem?_eq_some_iff.1 hi
  obtain ⟨hj', rfl⟩ := List.getElem?_eq_some_iff.1 hj
  exact List.pairwise_iff_getElem.1 hasc i j hi' hj' hij

/-- tags grow by one at least from field to field -/
theorem tag_add_le {i j : ℕ} {f g : Field} (hi : fields[i]? = some f) (hj : fields[j]? = some g) (hij : i ≤ j) :
    f.tag + (j - i) ≤ g.tag := by
  induction j generalizing g with
  | zero =>
    obtain rfl : i = 0 := by omega
    rw [hi] at hj
    cases hj
    simp
  | succ j ih =>
    rcases Nat.eq_or_lt_of_le hij with rfl | hlt
    · rw [hi] at hj
      cases hj
      simp
    · obtain ⟨hj', -⟩ := List.getElem?_eq_some_iff.1 hj
      have hg := ih (List.getElem?_eq_getElem (by omega : j < fields.length)) (by omega)
      have := tag_lt_of_lt hasc (List.getElem?_eq_getElem (by omega : j < fields.length)) hj (Nat.lt_succ_self j)
      omega

theorem index_eq_of_tag {i j : ℕ} {f g : Field} (hi : fields[i]? = some f) (hj : fields[j]? = some g)
    (htag : f.tag = g.tag) : i = j := by
  rcases Nat.lt_trichotomy i j with hlt | rfl | hlt
  · have := tag_lt_of_lt hasc hi hj hlt
    omega
  · rfl
  · have := tag_lt_of_lt hasc hj hi hlt
    omega

/-- the search finds the field with the tag if it is in the interval -/
theorem search_eq_some {tag : ℕ} (f : Field) (begin_ end_ : ℕ) (hend : end_ ≤ fields.length) :
    search fields tag begin_ end_ = some f ↔
      ∃ i, begin_ ≤ i ∧ i < end_ ∧ fields[i]? = some f ∧ f.tag = tag := by
  fun_induction search fields tag begin_ end_ with
  | case1 begin_ end_ h hmid =>
    rw [List.getElem?_eq_none_iff] at hmid
    omega
  | case2 begin_ end_ h g hmid htag =>
    apply Iff.intro
    · intro hg
      cases hg
      exact ⟨_, by omega, by omega, hmid, htag⟩
    · intro ⟨i, _, _, hi, hf⟩
      obtain rfl := index_eq_of_tag hasc hmid hi (htag.trans hf.symm)
      rw [← hmid, hi]
  | case3 begin_ end_ h g hmid hne hlt ih =>
    rw [ih hend]
    apply Iff.intro
    · intro ⟨i, hbegin, hrest⟩
      exact ⟨i, by omega, hrest⟩
    · intro ⟨i, hbegin, hiend, hi, hf⟩
      refine ⟨i, ?_, hiend, hi, hf⟩
      by_contra hnot
      rcases Nat.eq_or_lt_of_le (Nat.le_of_lt_succ (Nat.lt_of_not_le hnot)) with rfl | hless
      · rw [hmid] at hi
        cases hi
        exact hne hf
      · have := tag_lt_of_lt hasc hi hmid hless
        omega
  | case4 begin_ end_ h g hmid hne hge ih =>
    rw [ih (by omega)]
    apply Iff.intro
    · intro ⟨i, hbegin, hmidle, hrest⟩
      exact ⟨i, hbegin, by omega, hrest⟩
    · intro ⟨i, hbegin, hiend, hi, hf⟩
      refine ⟨i, hbegin, ?_, hi, hf⟩
      by_contra hnot
      rcases Nat.eq_or_lt_of_le (Nat.le_of_not_lt hnot) with rfl | hless
      · rw [hmid] at hi
        cases hi
        exact hne hf
      · have := tag_lt_of_lt hasc hmid hi hless
        omega
  | case5 begin_ end_ h =>
    apply Iff.intro
    · exact nofun
    · intro ⟨i, hbegin, hiend, _⟩
      omega

end Findtag

/-- with a base, the field at an index has the tag so far behind it -/
theorem tag_of_base {st : SprotoType} {base i : ℕ} {f : Field} (hbase : st.base = some base)
    (hi : st.fields[i]? = some f) : f.tag = base + i := by
  obtain ⟨hlen, -⟩ := List.getElem?_eq_some_iff.1 hi
  have hfirst : 0 < st.fields.length := by omega
  have hend : st.fields.length - 1 < st.fields.length := by omega
  have hhead : st.fields.head? = some st.fields[0] := by rw [List.head?_eq_getElem?, List.getElem?_eq_getElem hfirst]
  have hlast : st.fields.getLast? = some st.fields[st.fields.length - 1] := by
    rw [List.getLast?_eq_getElem?, List.getElem?_eq_getElem hend]
  rw [SprotoType.base, hhead, hlast] at hbase
  simp only [Option.ite_none_right_eq_some, Option.some.injEq] at hbase
  obtain ⟨hcount, rfl⟩ := hbase
  have hup := tag_add_le st.ascending (List.getElem?_eq_getElem hfirst) hi (Nat.zero_le i)
  have hdown := tag_add_le st.ascending hi (List.getElem?_eq_getElem hend) (by omega)
  omega

/-- **Both ways of searching find the field with the tag.** -/
theorem findtag_eq_some (st : SprotoType) (tag : ℕ) (f : Field) :
    findtag st tag = some f ↔ f ∈ st.fields ∧ f.tag = tag := by
  rw [List.mem_iff_getElem?]
  unfold findtag
  cases hbase : st.base with
  | none =>
    simp only
    rw [search_eq_some st.ascending f 0 _ le_rfl]
    apply Iff.intro
    · intro ⟨i, _, _, hi, htag⟩
      exact ⟨⟨i, hi⟩, htag⟩
    · intro ⟨⟨i, hi⟩, htag⟩
      exact ⟨i, Nat.zero_le i, (List.getElem?_eq_some_iff.1 hi).1, hi, htag⟩
  | some base =>
    simp only
    apply Iff.intro
    · intro h
      split_ifs at h with hout
      have := tag_of_base hbase h
      exact ⟨⟨_, h⟩, by omega⟩
    · intro ⟨⟨i, hi⟩, htag⟩
      have hbasei := tag_of_base hbase hi
      have hlen := (List.getElem?_eq_some_iff.1 hi).1
      rw [if_neg (by omega), show tag - base = i by omega]
      exact hi

/-! ## Outcomes -/

inductive Error where
  /-- The table is too deep -/
  | tooDeep
  /-- .*%s(%d) should be a table (Is a %s) -/
  | shouldBeTable (tagname : Bytes) (index : ℕ) (typename : Bytes)
  /-- .%s[%d] is not an integer (Is a %s) -/
  | notInteger (tagname : Bytes) (index : ℕ) (typename : Bytes)
  /-- .%s[%d] is not a boolean (Is a %s) -/
  | notBoolean (tagname : Bytes) (index : ℕ) (typename : Bytes)
  /-- .%s[%d] is not a string (Is a %s) -/
  | notString (tagname : Bytes) (index : ℕ) (typename : Bytes)
  /-- .%s[%d] is not a table (Is a %s) -/
  | notTable (tagname : Bytes) (index : ℕ) (typename : Bytes)
  /-- object is too large (>%d) -/
  | tooLarge
  /-- decode error -/
  | decodeError
  /-- Can't find main index (tag=%d) in [%s] -/
  | noMainIndex (tag : ℕ) (tagname : Bytes)
  /-- memory allocation error: block too big -/
  | blockTooBig
  /-- bad argument #2 to 'encode' (table expected, got %s) -/
  | tableExpected (typename : Bytes)
deriving DecidableEq, Repr

inductive Stop where
  /-- the C function returns -1 -/
  | negative
  /-- a read outside of the message, or a write outside of the part of the buffer it is meant for -/
  | outside
  | raise (e : Error)
deriving DecidableEq, Repr

def ENCODE_BUFFERSIZE : ℕ := 2050
def ENCODE_MAXSIZE : ℕ := 0x1000000
def ENCODE_DEEPLEVEL : ℕ := 64
def SIZEOF_LENGTH : ℕ := 4

/-! ## Lua values -/

/-- what Lua's own conversions make of values that are not of the kind asked for -/
structure Conversions where
  /-- `lua_tointegerx` of a string -/
  stringToInteger : Bytes → Option (BitVec 64)
  /-- `lua_tolstring` of a double -/
  realToString : BitVec 64 → Bytes

/-- `lua_tointegerx` -/
def Conversions.toInteger (lua : Conversions) : Value → Option (BitVec 64)
  | .integer v => some v
  | .real bits => realToInteger bits
  | .string s => lua.stringToInteger s
  | _ => none

/-- `lua_isstring` and `lua_tolstring` -/
def Conversions.toText (lua : Conversions) : Value → Option Bytes
  | .string s => some s
  | .integer v => some (ascii (toString v.toInt))
  | .real bits => some (lua.realToString bits)
  | _ => none

def typename : Value → Bytes
  | .nil => ascii "nil"
  | .boolean _ => ascii "boolean"
  | .integer _ => ascii "number"
  | .real _ => ascii "number"
  | .userdata _ => ascii "userdata"
  | .string _ => ascii "string"
  | .table _ _ => ascii "table"
  | .other name => name

def isTable : Value → Bool
  | .table _ _ => true
  | _ => false

/-- `lua_getfield` -/
def getField (name : Bytes) : Value → Value
  | .table _ hash => getPair (.string name) hash
  | _ => .nil

/-- `lua_geti`, for positive indices -/
def getIndex (i : ℕ) : Value → Value
  | .table array hash => if i ≤ array.length then array.getD (i - 1) .nil else getPair (.integer (BitVec.ofNat 64 i)) hash
  | _ => .nil

/-- the values from an index on, up to the first nil; there are at most `n` -/
def itemsFrom : ℕ → ℕ → Value → List Value
  | 0, _, _ => []
  | n + 1, i, v => if (getIndex i v).isNil then [] else getIndex i v :: itemsFrom n (i + 1) v

/-- the values at 1, 2, ... -/
def items : Value → List Value
  | .table array hash => itemsFrom (array.length + hash.length) 1 (.table array hash)
  | _ => []

/-- the values in the order of `lua_next` -/
def values : Value → List Value
  | .table array hash => array.filter (fun v => !v.isNil) ++ hash.map Prod.snd
  | _ => []

/-! ## Encoding -/

section Encode

variable (lua : Conversions)
  /- the check for the level at the start of every call back, and the encoding of a struct by a call back -/
  (call : Except Stop Unit) (sub : ℕ → Value → ℕ → Except Stop Bytes)

def checkInteger (name : Bytes) (index : ℕ) (v : Value) : Except Stop (BitVec 64) :=
  match lua.toInteger v with
  | some x => .ok x
  | none => .error (.raise (.notInteger name index (typename v)))

def checkBoolean (name : Bytes) (index : ℕ) : Value → Except Stop Bool
  | .boolean b => .ok b
  | v => .error (.raise (.notBoolean name index (typename v)))

/-- a write where there is room for so many bytes -/
def writeBytes (room : ℕ) (bytes : Bytes) : Except Stop Bytes :=
  if room < bytes.length then .error .outside else .ok bytes

theorem writeBytes_of_le {room : ℕ} {bytes : Bytes} (h : bytes.length ≤ room) : writeBytes room bytes = .ok bytes :=
  if_neg (Nat.not_lt.2 h)

theorem writeBytes_ok {room : ℕ} {bytes out : Bytes} (h : writeBytes room bytes = .ok out) : out = bytes := by
  unfold writeBytes at h
  split_ifs at h
  cases h
  rfl

/-- whether the call back returns 4 bytes for an integer, and not 8: `v >> 31` is 0 or -1 -/
def fits32 (v : BitVec 64) : Bool := v.sshiftRight 31 == 0 || v.sshiftRight 31 == -1

/-- the low word -/
def low32 (v : BitVec 64) : ℕ := v.toNat % 2 ^ 32

/-- the content of a string or a struct, of at most `length` bytes -/
def encodeContent (k : Kind) (name : Bytes) (index : ℕ) (v : Value) (length : ℕ) : Except Stop Bytes :=
  match k with
  | .struct i => match v with
    | .table _ _ => sub i v length
    | v => .error (.raise (.notTable name index (typename v)))
  | _ => match lua.toText v with
    | some s => if length < s.length then .error .negative else writeBytes length s
    | none => .error (.raise (.notString name index (typename v)))

/-- an integer: its record, and its data where the record is 0 -/
def encodeInteger (v : BitVec 64) (size : ℕ) : Except Stop (ℕ × Bytes) :=
  if fits32 v then
    if low32 v < 0x7fff then return ((low32 v + 1) * 2, [])
    else if size < SIZEOF_LENGTH + 4 then throw .negative
    else do
      let data ← writeBytes size (le 4 4 ++ le 4 (low32 v))
      return (0, data)
  else if size < SIZEOF_LENGTH + 8 then throw .negative
  else do
    let data ← writeBytes size (le 4 8 ++ le 8 v.toNat)
    return (0, data)

/-- `fill_size`, and the content behind it -/
def fillSize (size : ℕ) (content : Bytes) : Except Stop Bytes := do
  let header ← writeBytes size (le 4 content.length)
  return header ++ content

theorem fillSize_of_le {size : ℕ} (h : SIZEOF_LENGTH ≤ size) (content : Bytes) :
    fillSize size content = .ok (le 4 content.length ++ content) := by
  rw [fillSize, writeBytes_of_le (by rwa [length_le])]
  rfl

theorem fillSize_ok {size : ℕ} {content data : Bytes} (h : fillSize size content = .ok data) :
    data = le 4 content.length ++ content := by
  cases hwrite : writeBytes size (le 4 content.length) with
  | error e =>
    rw [fillSize, hwrite] at h
    cases h
  | ok header =>
    rw [fillSize, hwrite, writeBytes_ok hwrite] at h
    cases h
    rfl

/-- a field that is no array; without a value there is nothing -/
def encodeSingle (k : Kind) (name : Bytes) (t : Value) (size : ℕ) : Except Stop (Option (ℕ × Bytes)) :=
  match k with
  | .integer => do
    call
    if (getField name t).isNil then return none
    else do
      let v ← checkInteger lua name 0 (getField name t)
      let x ← encodeInteger v size
      return some x
  | .boolean => do
    call
    if (getField name t).isNil then return none
    else do
      let b ← checkBoolean name 0 (getField name t)
      return some (((if b then 1 else 0) + 1) * 2, [])
  | k =>
    -- `encode_object`
    if size < SIZEOF_LENGTH then throw .negative
    else do
      call
      if (getField name t).isNil then return none
      else do
        let content ← encodeContent lua sub k name 0 (getField name t) (size - SIZEOF_LENGTH)
        let data ← fillSize size content
        return some (0, data)

/-- the first call back for an array: the table that has it; nil is no array -/
def fetchArray (name : Bytes) (t : Value) : Except Stop (Option Value) := do
  call
  match getField name t with
  | .nil => return none
  | .table array hash => return some (.table array hash)
  | v => throw (.raise (.shouldBeTable name 1 (typename v)))

/-- the words of an array made twice as wide, with the sign of each -/
def widen : Bytes → Bytes
  | a :: b :: c :: d :: rest => a :: b :: c :: d :: (List.replicate 4 (if d.msb then 0xff else 0) ++ widen rest)
  | _ => []

/-- the loop of `encode_integer_array`: whether the integers are 8 bytes wide, and what stands behind the width. The room
that is left is an `int` but compared with a `size_t`, so that it passes for large if it is negative. -/
def encodeIntegerArray (name : Bytes) : List Value → ℕ → Bool → Bytes → ℕ → Except Stop (Bool × Bytes)
  | [], _, wide, buffer, _ => .ok (wide, buffer)
  | v :: rest, index, wide, buffer, size => do
    let x ← checkInteger lua name index v
    if size < 8 then throw .negative
    else if fits32 x then
      if wide then do
        let word ← writeBytes size (le 4 (low32 x) ++ List.replicate 4 (if 2 ^ 31 ≤ low32 x then 0xff else 0))
        encodeIntegerArray name rest (index + 1) true (buffer ++ word) (size - 8)
      else do
        let word ← writeBytes size (le 4 (low32 x))
        encodeIntegerArray name rest (index + 1) false (buffer ++ word) (size - 4)
    else if wide then do
      let word ← writeBytes size (le 8 x.toNat)
      encodeIntegerArray name rest (index + 1) true (buffer ++ word) (size - 8)
    else if size < (index - 1) * 4 then throw .outside
    else if size - (index - 1) * 4 < 8 then throw .negative
    else do
      let word ← writeBytes (size - (index - 1) * 4) (le 8 x.toNat)
      encodeIntegerArray name rest (index + 1) true (widen buffer ++ word) (size - (index - 1) * 4 - 8)

def encodeBooleanArray (name : Bytes) : List Value → ℕ → ℕ → Except Stop Bytes
  | [], _, _ => .ok []
  | v :: rest, index, size => do
    let b ← checkBoolean name index v
    if size < 1 then throw .negative
    else do
      let byte ← writeBytes size [if b then 1 else 0]
      let more ← encodeBooleanArray name rest (index + 1) (size - 1)
      return byte ++ more

/-- the loop over strings or structs; there must be room for one more length at the end -/
def encodeObjectArray (k : Kind) (name : Bytes) : List Value → ℕ → ℕ → Except Stop Bytes
  | [], _, size => if size < SIZEOF_LENGTH then throw .negative else return []
  | v :: rest, index, size =>
    if size < SIZEOF_LENGTH then throw .negative
    else do
      let content ← encodeContent lua sub k name index v (size - SIZEOF_LENGTH)
      let element ← fillSize size content
      let more ← encodeObjectArray k name rest (index + 1) (size - SIZEOF_LENGTH - content.length)
      return element ++ more

/-- `encode_array`; the elements are at 1, 2, ..., or in the order of `lua_next` if there is a main index -/
def encodeArray (k : Kind) (elements : Value → List Value) (name : Bytes) (t : Value) (size : ℕ) :
    Except Stop (Option (ℕ × Bytes)) :=
  if size < SIZEOF_LENGTH then throw .negative
  else match k with
    | .integer =>
      if size - SIZEOF_LENGTH < 1 then throw .negative
      else do
        match ← fetchArray call name t with
        | none => return none
        | some v => do
          let (wide, buffer) ← encodeIntegerArray lua name (elements v) 1 false [] (size - SIZEOF_LENGTH - 1)
          -- without integers there is no width either
          let content := if buffer.isEmpty then [] else (if wide then 8 else 4) :: buffer
          let data ← fillSize size content
          return some (0, data)
    | .boolean => do
      match ← fetchArray call name t with
      | none => return none
      | some v => do
        let content ← encodeBooleanArray name (elements v) 1 (size - SIZEOF_LENGTH)
        let data ← fillSize size content
        return some (0, data)
    | k =>
      if size - SIZEOF_LENGTH < SIZEOF_LENGTH then throw .negative
      else do
        match ← fetchArray call name t with
        | none => return none
        | some v => do
          let content ← encodeObjectArray lua sub k name (elements v) 1 (size - SIZEOF_LENGTH)
          let data ← fillSize size content
          return some (0, data)

def encodeField (f : Field) (t : Value) (size : ℕ) : Except Stop (Option (ℕ × Bytes)) :=
  match f.shape with
  | .single k => encodeSingle lua call sub k f.name t size
  | .array k => encodeArray lua call sub k items f.name t size
  | .map i _ => encodeArray lua call sub (.struct i) values f.name t size

/-- what `sproto_encode` has written: `lasttag + 1`, the records and the data -/
structure Written where
  next : ℕ
  records : List ℕ
  data : Bytes

def Written.empty : Written := ⟨0, [], []⟩

/-- a field's record, behind one that skips the tags before it -/
def Written.add (w : Written) (tag value : ℕ) (data : Bytes) : Written where
  next := tag + 1
  records := w.records ++ (if w.next < tag then [(tag - w.next - 1) * 2 + 1] else []) ++ [value]
  data := w.data ++ data

/-- the loop of `sproto_encode`, with room for `maxn` records and `size` bytes for the data behind them. Nothing checks the
number of the records; one too many would be written over the data. -/
def encodeFields (t : Value) (maxn size : ℕ) : List Field → Written → Except Stop Written
  | [], w => .ok w
  | f :: fields, w => do
    match ← encodeField lua call sub f t (size - w.data.length) with
    | none => encodeFields t maxn size fields w
    | some (value, data) =>
      if 0xffff < (f.tag - w.next - 1) * 2 + 1 then throw .negative
      else if maxn < (w.add f.tag value data).records.length then throw .outside
      else encodeFields t maxn size fields (w.add f.tag value data)

/-- `sproto_encode` -/
def encodeType (st : SprotoType) (t : Value) (size : ℕ) : Except Stop Bytes :=
  if size < 2 + st.maxn * 2 then throw .negative
  else do
    let w ← encodeFields lua call sub t st.maxn (size - (2 + st.maxn * 2)) st.fields .empty
    return le 2 w.records.length ++ w.records.flatMap (le 2) ++ w.data

end Encode

/-- `sproto_encode` with the call back `encode`, with so many levels left -/
def sprotoEncode (lua : Conversions) (scheme : Scheme) : ℕ → SprotoType → Value → ℕ → Except Stop Bytes
  | 0 => encodeType lua (.error (.raise .tooDeep)) (fun _ _ _ => .error (.raise .tooDeep))
  | levels + 1 => encodeType lua (.ok ()) (fun i v length => sprotoEncode lua scheme levels (scheme.type i) v length)

/-- the loop of `lencode`, with a buffer of `sz` bytes: the result, and the size of the buffer that is kept for the next
time -/
def encodeLoop (lua : Conversions) (scheme : Scheme) (st : SprotoType) (t : Value) (sz : ℕ) : Except Stop Bytes × ℕ :=
  match sprotoEncode lua scheme ENCODE_DEEPLEVEL st t sz with
  | .error .negative =>
    if h : 0 < sz ∧ sz * 2 ≤ ENCODE_MAXSIZE then encodeLoop lua scheme st t (sz * 2)
    else (.error (.raise .tooLarge), sz)
  | r => (r, sz)
termination_by ENCODE_MAXSIZE - sz

/-- `lencode`; only a table is encoded -/
def lencode (lua : Conversions) (scheme : Scheme) (st : SprotoType) (t : Value) (sz : ℕ) : Except Stop Bytes × ℕ :=
  if isTable t then encodeLoop lua scheme st t sz
  else (.error (.raise (.tableExpected (typename t))), sz)

/-! ## Decoding -/

/-- the table that is being filled, and the value of its main index if it is to be put into a map -/
structure Result where
  hash : List (Value × Value)
  key : Value

def Result.empty : Result := ⟨[], .nil⟩

/-- `lua_setfield`; the field with the tag of the main index also becomes the key -/
def Result.setSingle (r : Result) (f : Field) (mainindex : Option ℕ) (v : Value) : Result where
  hash := setPair (.string f.name) v r.hash
  key := if mainindex = some f.tag then v else r.key

def Result.setArray (r : Result) (f : Field) (v : Value) : Result := { r with hash := setPair (.string f.name) v r.hash }

/-- `expand64` -/
def expand64 (v : ℕ) : BitVec 64 := (BitVec.ofNat 32 v).signExtend 64

/-- a read of the first bytes of what is there -/
def readBytes (n : ℕ) (s : Bytes) : Except Stop Bytes := if s.length < n then .error .outside else .ok (s.take n)

theorem readBytes_append {n : ℕ} {bytes : Bytes} (h : bytes.length = n) (rest : Bytes) :
    readBytes n (bytes ++ rest) = .ok bytes := by
  rw [readBytes, if_neg (by simp [h]), List.take_left' h]

section Decode

variable (call : Except Stop Unit)
  /- the decoding of a struct by a call back: the table, and how many bytes were taken -/
  (sub : ℕ → Option ℕ → Bytes → Except Stop (Result × ℕ))

/-- a string or a struct of `length` bytes, all of it -/
def decodeContent (k : Kind) (cur : Bytes) (length : ℕ) : Except Stop Value := do
  call
  let content ← readBytes length cur
  match k with
  | .struct i => do
    let (r, used) ← sub i none content
    if used = length then return .table [] r.hash else throw .negative
  | _ => return .string content

/-- a struct that is put into a map -/
def decodeEntry (name : Bytes) (index key : ℕ) (cur : Bytes) (length : ℕ) (map : List (Value × Value)) :
    Except Stop (List (Value × Value)) := do
  call
  let content ← readBytes length cur
  let (r, used) ← sub index (some key) content
  if used ≠ length then throw .negative
  else if r.key.isNil then throw (.raise (.noMainIndex key name))
  else return setPair r.key (.table [] r.hash) map

/-- the loop of `decode_array_object`, for the bytes from the element on and the length that is left of the array; `step` is
the call back for one element -/
def decodeArrayObject {α : Type} (step : Bytes → ℕ → α → Except Stop α) : ℕ → Bytes → ℕ → α → Except Stop α
  | 0, _, _, a => .ok a
  | n + 1, stream, sz, a =>
    if sz = 0 then .ok a
    else if sz < SIZEOF_LENGTH then throw .negative
    else do
      let hsz ← readBytes SIZEOF_LENGTH stream
      if sz - SIZEOF_LENGTH < ofLe hsz then throw .negative
      else do
        let a ← step (stream.drop SIZEOF_LENGTH) (ofLe hsz) a
        decodeArrayObject step n (stream.drop (SIZEOF_LENGTH + ofLe hsz)) (sz - SIZEOF_LENGTH - ofLe hsz) a

/-- `n` values of `w` bytes each behind `stream`, with a call back for each -/
def decodeNumbers {α : Type} (w n : ℕ) (f : Bytes → α) (stream : Bytes) : Except Stop (List α) :=
  if n = 0 then return []
  else if stream.length < w then throw .outside
  else do
    call
    if stream.length < n * w then throw .outside
    else return (List.range n).map fun i => f ((stream.drop (i * w)).take w)

/-- `decode_array`, for the length that was read and the bytes behind it. An `int` of it is negative if it is 2^32 - 4 or
more, and no element is decoded then; the integers and booleans have a loop of their own. -/
def decodeArray (f : Field) (k : Kind) (cur : Bytes) (sz : ℕ) (r : Result) : Except Stop Result :=
  if sz = 0 then do
    call
    return r.setArray f (.table [] [])
  else match k with
    | .integer => match cur with
      | [] => throw .outside
      | len :: stream =>
        if len.toNat = 4 then
          if (sz - 1) % 4 ≠ 0 then throw .negative
          else do
            let vs ← decodeNumbers call 4 ((sz - 1) / 4) (fun b => Value.integer (expand64 (ofLe b))) stream
            return if vs.isEmpty then r else r.setArray f (.table vs [])
        else if len.toNat = 8 then
          if (sz - 1) % 8 ≠ 0 then throw .negative
          else do
            let vs ← decodeNumbers call 8 ((sz - 1) / 8) (fun b => Value.integer (BitVec.ofNat 64 (ofLe b))) stream
            return if vs.isEmpty then r else r.setArray f (.table vs [])
        else throw .negative
    | .boolean => do
      let vs ← decodeNumbers call 1 sz (fun b => Value.boolean (ofLe b != 0)) cur
      return r.setArray f (.table vs [])
    | k =>
      if 2 ^ 32 ≤ sz + SIZEOF_LENGTH then return r
      else do
        let vs ← decodeArrayObject (fun cur length vs => do
          let v ← decodeContent call sub k cur length
          return vs ++ [v]) sz cur sz []
        return r.setArray f (.table vs [])

def decodeMap (f : Field) (index key : ℕ) (cur : Bytes) (sz : ℕ) (r : Result) : Except Stop Result :=
  if sz = 0 then do
    call
    return r.setArray f (.table [] [])
  else if 2 ^ 32 ≤ sz + SIZEOF_LENGTH then return r
  else do
    let map ← decodeArrayObject (decodeEntry call sub f.name index key) sz cur sz []
    return r.setArray f (.table [] map)

/-- a field with data, for the length that was read and the bytes behind it -/
def decodeData (f : Field) (mainindex : Option ℕ) (cur : Bytes) (sz : ℕ) (r : Result) : Except Stop Result :=
  match f.shape with
  | .single .integer =>
    if sz = 4 then do
      let v ← readBytes 4 cur
      call
      return r.setSingle f mainindex (.integer (expand64 (ofLe v)))
    else if sz ≠ 8 then throw .negative
    else do
      let v ← readBytes 8 cur
      call
      return r.setSingle f mainindex (.integer (BitVec.ofNat 64 (ofLe v)))
  | .single .boolean => throw .negative
  | .single .string =>
    if 2 ^ 32 ≤ sz + SIZEOF_LENGTH then do
      call
      throw (.raise .blockTooBig)
    else do
      let v ← decodeContent call sub .string cur sz
      return r.setSingle f mainindex v
  | .single (.struct i) =>
    if 2 ^ 32 ≤ sz + SIZEOF_LENGTH then do
      call
      throw .negative
    else do
      let v ← decodeContent call sub (.struct i) cur sz
      return r.setSingle f mainindex v
  | .array k => decodeArray call sub f k cur sz r
  | .map i key => decodeMap call sub f i key cur sz r

/-- a field whose value is in its record -/
def decodeInline (f : Field) (mainindex : Option ℕ) (value : ℕ) (r : Result) : Except Stop Result :=
  match f.shape with
  | .single .integer => do
    call
    return r.setSingle f mainindex (.integer (BitVec.ofNat 64 value))
  | .single .boolean => do
    call
    return r.setSingle f mainindex (.boolean (value != 0))
  | _ => throw .negative

/-- the loop of `sproto_decode` over the records, with the bytes from `datastream` on and the count of those taken before
it. The length of the data plus 4 is computed in 32 bits. -/
def decodeRecords (st : SprotoType) (mainindex : Option ℕ) : List ℕ → ℕ → Result → Bytes → ℕ → Except Stop (Result × ℕ)
  | [], _, r, _, used => .ok (r, used)
  | value :: records, tag, r, data, used =>
    if value % 2 = 1 then decodeRecords st mainindex records (tag + value / 2 + 1) r data used
    else if value = 0 then
      if data.length < SIZEOF_LENGTH then .error .negative
      else do
        let sz ← readBytes SIZEOF_LENGTH data
        let next := (ofLe sz + SIZEOF_LENGTH) % 2 ^ 32
        if data.length < next then .error .negative
        else
          match findtag st tag with
          | none => decodeRecords st mainindex records (tag + 1) r (data.drop next) (used + next)
          | some f => do
            let r ← decodeData call sub f mainindex (data.drop SIZEOF_LENGTH) (ofLe sz) r
            decodeRecords st mainindex records (tag + 1) r (data.drop next) (used + next)
    else
      match findtag st tag with
      | none => decodeRecords st mainindex records (tag + 1) r data used
      | some f => do
        let r ← decodeInline call f mainindex (value / 2 - 1) r
        decodeRecords st mainindex records (tag + 1) r data used

/-- `n` records -/
def recordsOf : ℕ → Bytes → List ℕ
  | 0, _ => []
  | n + 1, s => ofLe (s.take 2) :: recordsOf n (s.drop 2)

/-- `sproto_decode`: the result, and how many bytes were taken -/
def decodeType (st : SprotoType) (mainindex : Option ℕ) (s : Bytes) : Except Stop (Result × ℕ) :=
  if s.length < 2 then throw .negative
  else do
    let fn ← readBytes 2 s
    if s.length - 2 < ofLe fn * 2 then throw .negative
    else do
      let records ← readBytes (ofLe fn * 2) (s.drop 2)
      decodeRecords call sub st mainindex (recordsOf (ofLe fn) records) 0 .empty (s.drop (2 + ofLe fn * 2))
        (2 + ofLe fn * 2)

end Decode

/-- `sproto_decode` with the call back `decode`, with so many levels left -/
def sprotoDecode (scheme : Scheme) : ℕ → SprotoType → Option ℕ → Bytes → Except Stop (Result × ℕ)
  | 0 => decodeType (.error (.raise .tooDeep)) (fun _ _ _ => .error (.raise .tooDeep))
  | levels + 1 => decodeType (.ok ()) (fun i mainindex content => sprotoDecode scheme levels (scheme.type i) mainindex content)

/-- what `ldecode` returns: the table, and how many bytes it took -/
def decoded : Except Stop (Result × ℕ) → Except Stop (Value × ℕ)
  | .ok (r, used) => .ok (.table [] r.hash, used)
  | .error .negative => .error (.raise .decodeError)
  | .error e => .error e

/-- `ldecode`; the size of the message is cast to an `int`, and a negative one is an error -/
def ldecode (scheme : Scheme) (st : SprotoType) (s : Bytes) : Except Stop (Value × ℕ) :=
  decoded (if 2 ^ 31 ≤ s.length % 2 ^ 32 then .error .negative
    else sprotoDecode scheme ENCODE_DEEPLEVEL st none (s.take (s.length % 2 ^ 32)))

theorem ldecode_of_lt {scheme : Scheme} {st : SprotoType} {s : Bytes} (hs : s.length < 2 ^ 31) :
    ldecode scheme st s = decoded (sprotoDecode scheme ENCODE_DEEPLEVEL st none s) := by
  rw [ldecode, Nat.mod_eq_of_lt (by omega), if_neg (by omega), List.take_length]

end OwliesServer.Sproto
