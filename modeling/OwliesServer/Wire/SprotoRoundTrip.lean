/-
Decoding gives back what was encoded (3rd/skynet/lualib-src/sproto).

- `kept`: what a type keeps of a table: the fields it names, with the values converted to their kinds, in the fields'
  order; arrays as far as the first nil; the structs of a map under their main index.
- `sproto_round_trip`: a table that is encoded is decoded to what its type keeps of it, and the decoder stops at the last
  byte of the message, whatever follows.
-/
import OwliesServer.Wire.Schemes

namespace OwliesServer.Sproto

open OwliesServer.CChar OwliesServer.Framing OwliesServer.Lua

/-! ## What a type keeps of a table -/

/-- the value of a field, as the call back sets it -/
def Result.set (r : Result) (f : Field) (mainindex : Option ℕ) (v : Value) : Result :=
  match f.shape with
  | .single _ => r.setSingle f mainindex v
  | _ => r.setArray f v

section Kept

variable (lua : Conversions) (sub : ℕ → Option ℕ → Value → Result)

def keptContent (k : Kind) (v : Value) : Value :=
  match k with
  | .integer => .integer ((lua.toInteger v).getD 0)
  | .boolean => v
  | .string => .string ((lua.toText v).getD [])
  | .struct i => .table [] (sub i none v).hash

def keptEntry (index key : ℕ) (map : List (Value × Value)) (v : Value) : List (Value × Value) :=
  setPair (sub index (some key) v).key (.table [] (sub index (some key) v).hash) map

def keptValue (s : Shape) (v : Value) : Value :=
  match s with
  | .single k => keptContent lua sub k v
  | .array k => .table ((items v).map (keptContent lua sub k)) []
  | .map index key => .table [] ((values v).foldl (keptEntry sub index key) [])

def keptFields (mainindex : Option ℕ) (t : Value) : List Field → Result → Result
  | [], r => r
  | f :: fields, r =>
    if (getField f.name t).isNil then keptFields mainindex t fields r
    else keptFields mainindex t fields (r.set f mainindex (keptValue lua sub f.shape (getField f.name t)))

/-- the structs of the maps have a value for their main index -/
def KeyedField (keyed : ℕ → Value → Prop) (f : Field) (v : Value) : Prop :=
  match f.shape with
  | .single (.struct i) => keyed i v
  | .array (.struct i) => ∀ x ∈ items v, keyed i x
  | .map i key => ∀ x ∈ values v, keyed i x ∧ (sub i (some key) x).key.isNil = false
  | _ => True

end Kept

/-- with so many levels of structs -/
def kept (lua : Conversions) (scheme : Scheme) : ℕ → SprotoType → Option ℕ → Value → Result
  | 0, _, _, _ => .empty
  | levels + 1, st, mainindex, t =>
    keptFields lua (fun i mainindex v => kept lua scheme levels (scheme.type i) mainindex v) mainindex t st.fields .empty

def Keyed (lua : Conversions) (scheme : Scheme) : ℕ → SprotoType → Value → Prop
  | 0, _, _ => True
  | levels + 1, st, t => ∀ f ∈ st.fields,
    KeyedField (fun i mainindex v => kept lua scheme levels (scheme.type i) mainindex v)
      (fun i v => Keyed lua scheme levels (scheme.type i) v) f (getField f.name t)

/-! ## Integers -/

theorem fits32_iff (v : BitVec 64) : fits32 v = true ↔ -2 ^ 31 ≤ v.toInt ∧ v.toInt < 2 ^ 31 := by
  have hshift : (v.sshiftRight 31).toInt = v.toInt / 2 ^ 31 := by
    rw [BitVec.toInt_sshiftRight, Int.shiftRight_eq_div_pow]
    rfl
  have hzero : v.sshiftRight 31 = 0 ↔ v.toInt / 2 ^ 31 = 0 := by
    rw [← BitVec.toInt_inj, hshift]
    rfl
  have hminus : v.sshiftRight 31 = -1 ↔ v.toInt / 2 ^ 31 = -1 := by
    rw [← BitVec.toInt_inj, hshift]
    rfl
  simp only [fits32, Bool.or_eq_true, beq_iff_eq, hzero, hminus]
  omega

theorem expand64_low32 {v : BitVec 64} (h : fits32 v = true) : expand64 (low32 v) = v := by
  have hv := (fits32_iff v).1 h
  have hlow : BitVec.ofNat 32 (low32 v) = v.setWidth 32 := by
    apply BitVec.eq_of_toNat_eq
    simp [low32]
  rw [expand64, hlow, ← BitVec.toInt_inj, BitVec.toInt_signExtend_of_le (by omega), BitVec.toInt_setWidth]
  have hnat := BitVec.toInt_eq_toNat_cond v
  have hlt := v.isLt
  rw [Int.bmod_def]
  split_ifs at hnat ⊢ <;> omega

theorem low32_lt (v : BitVec 64) : low32 v < 2 ^ (8 * 4) := Nat.mod_lt _ (by decide)

/-- an integer that is written in its record is not negative -/
theorem toNat_eq_low32 {v : BitVec 64} (h : fits32 v = true) (hlow : low32 v < 2 ^ 31) : v.toNat = low32 v := by
  have hv := (fits32_iff v).1 h
  have hnat := BitVec.toInt_eq_toNat_cond v
  have hlt := v.isLt
  unfold low32 at hlow ⊢
  split_ifs at hnat <;> omega

/-- eight bytes of an integer that fits into four are these and its sign -/
theorem le_eight_of_fits32 {v : BitVec 64} (h : fits32 v = true) :
    le 8 v.toNat = le 4 (low32 v) ++ List.replicate 4 (if 2 ^ 31 ≤ low32 v then 0xff else 0) := by
  have hv := (fits32_iff v).1 h
  have hnat := BitVec.toInt_eq_toNat_cond v
  have hlt := v.isLt
  rw [le_add 4 4, low32, ← le_mod 4 v.toNat]
  congr 1
  split_ifs with hsign
  · rw [show v.toNat / 2 ^ (8 * 4) = 2 ^ 32 - 1 by split_ifs at hnat <;> omega]
    rfl
  · rw [show v.toNat / 2 ^ (8 * 4) = 0 by split_ifs at hnat <;> omega]
    rfl

/-- the sign of a word is in its last byte -/
theorem widen_append {v : BitVec 64} (h : fits32 v = true) (rest : Bytes) :
    widen (le 4 (low32 v) ++ rest) = le 8 v.toNat ++ widen rest := by
  have hsign : (BitVec.ofNat 8 (low32 v / 2 ^ 8 / 2 ^ 8 / 2 ^ 8)).msb = decide (2 ^ 31 ≤ low32 v) := by
    have hlow := low32_lt v
    rw [BitVec.msb_eq_decide, BitVec.toNat_ofNat, decide_eq_decide]
    omega
  rw [le_eight_of_fits32 h, List.append_assoc]
  simp only [le, List.cons_append, List.nil_append, widen, hsign, decide_eq_true_eq]

theorem widen_flatMap {vs : List (BitVec 64)} (h : ∀ v ∈ vs, fits32 v = true) :
    widen (vs.flatMap fun v => le 4 (low32 v)) = vs.flatMap fun v => le 8 v.toNat := by
  induction vs with
  | nil => rfl
  | cons v vs ih =>
    obtain ⟨hv, hvs⟩ := List.forall_mem_cons.1 h
    rw [List.flatMap_cons, List.flatMap_cons, widen_append hv, ih hvs]

/-! ## Arrays -/

theorem checkInteger_ok {lua : Conversions} {name : Bytes} {index : ℕ} {v : Value} {x : BitVec 64}
    (h : checkInteger lua name index v = .ok x) : lua.toInteger v = some x := by
  unfold checkInteger at h
  cases hv : lua.toInteger v with
  | none => rw [hv] at h; cases h
  | some y => rw [hv] at h; cases h; rfl

theorem checkBoolean_ok {name : Bytes} {index : ℕ} {v : Value} {b : Bool} (h : checkBoolean name index v = .ok b) :
    v = .boolean b := by
  cases v <;> cases h
  rfl

/-- a kind whose values have a length in front of them -/
def Kind.IsObject : Kind → Prop
  | .string => True
  | .struct _ => True
  | _ => False

theorem length_flatMap_const {α : Type} {g : α → Bytes} {w : ℕ} (hw : ∀ a, (g a).length = w) (vs : List α) :
    (vs.flatMap g).length = vs.length * w := by
  rw [List.length_flatMap]
  simp [hw]

/-- what the buffer of `encode_integer_array` holds after some integers -/
structure Holds (vs : List (BitVec 64)) (wide : Bool) (buffer : Bytes) : Prop where
  narrow : wide = false → (∀ v ∈ vs, fits32 v = true) ∧ buffer = vs.flatMap fun v => le 4 (low32 v)
  wide : wide = true → buffer = vs.flatMap fun v => le 8 v.toNat

theorem Holds.step_narrow {vs : List (BitVec 64)} {buffer : Bytes} (h : Holds vs false buffer) {v : BitVec 64}
    (hv : fits32 v = true) : Holds (vs ++ [v]) false (buffer ++ le 4 (low32 v)) := by
  obtain ⟨hfits, hbuffer⟩ := h.narrow rfl
  refine ⟨fun _ => ⟨?_, ?_⟩, nofun⟩
  · intro w hw
    rcases List.mem_append.1 hw with hw | hw
    · exact hfits w hw
    · rw [List.mem_singleton.1 hw]
      exact hv
  · rw [hbuffer, List.flatMap_append, List.flatMap_singleton]

theorem Holds.step_wide {vs : List (BitVec 64)} {buffer : Bytes} (h : Holds vs true buffer) (v : BitVec 64) :
    Holds (vs ++ [v]) true (buffer ++ le 8 v.toNat) :=
  ⟨nofun, fun _ => by rw [h.wide rfl, List.flatMap_append, List.flatMap_singleton]⟩

theorem Holds.step_widen {vs : List (BitVec 64)} {buffer : Bytes} (h : Holds vs false buffer) :
    Holds vs true (widen buffer) := by
  obtain ⟨hfits, hbuffer⟩ := h.narrow rfl
  exact ⟨nofun, fun _ => by rw [hbuffer, widen_flatMap hfits]⟩

/-- the integers are written one after the other, and the room for them was there -/
theorem encodeIntegerArray_ok {lua : Conversions} {name : Bytes} (elements : List Value) (vs : List (BitVec 64))
    (wide : Bool) (buffer : Bytes) (size : ℕ) (hholds : Holds vs wide buffer) {wide' : Bool} {buffer' : Bytes}
    (h : encodeIntegerArray lua name elements (vs.length + 1) wide buffer size = .ok (wide', buffer')) :
    ∃ xs, elements.map lua.toInteger = xs.map some ∧ Holds (vs ++ xs) wide' buffer' ∧
      buffer'.length ≤ buffer.length + size := by
  induction elements generalizing vs wide buffer size with
  | nil =>
    cases h
    exact ⟨[], rfl, by simpa using hholds, Nat.le_add_right _ _⟩
  | cons v elements ih =>
    unfold encodeIntegerArray at h
    cases hv : checkInteger lua name (vs.length + 1) v with
    | error e => rw [hv] at h; cases h
    | ok x =>
      rw [hv] at h
      have hx := checkInteger_ok hv
      have hlen : (vs ++ [x]).length + 1 = vs.length + 1 + 1 := by simp
      -- the rest of the loop, from a buffer that holds this integer too
      have hnext (wide : Bool) (buffer₁ : Bytes) (size₁ : ℕ) (hholds : Holds (vs ++ [x]) wide buffer₁)
          (hroom : buffer₁.length + size₁ ≤ buffer.length + size)
          (h : encodeIntegerArray lua name elements (vs.length + 1 + 1) wide buffer₁ size₁ = .ok (wide', buffer')) :
          ∃ xs, (v :: elements).map lua.toInteger = xs.map some ∧ Holds (vs ++ xs) wide' buffer' ∧
            buffer'.length ≤ buffer.length + size := by
        rw [← hlen] at h
        obtain ⟨xs, hxs, hholds', hle⟩ := ih (vs ++ [x]) wide buffer₁ size₁ hholds h
        refine ⟨x :: xs, by rw [List.map_cons, List.map_cons, hx, hxs], by simpa using hholds', hle.trans hroom⟩
      change (if size < 8 then throw Stop.negative else _) = _ at h
      by_cases hsmall : size < 8
      · rw [if_pos hsmall] at h
        cases h
      rw [if_neg hsmall] at h
      by_cases hfits : fits32 x = true
      · rw [if_pos hfits] at h
        cases wide with
        | true =>
          rw [if_pos rfl, ← le_eight_of_fits32 hfits] at h
          obtain ⟨word, hword, h⟩ := bind_eq_ok.1 h
          obtain rfl := writeBytes_ok hword
          exact hnext true _ _ (hholds.step_wide x) (by simp; omega) h
        | false =>
          obtain ⟨word, hword, h⟩ := bind_eq_ok.1 h
          obtain rfl := writeBytes_ok hword
          exact hnext false _ _ (hholds.step_narrow hfits) (by simp; omega) h
      rw [if_neg hfits] at h
      cases wide with
      | true =>
        obtain ⟨word, hword, h⟩ := bind_eq_ok.1 h
        obtain rfl := writeBytes_ok hword
        exact hnext true _ _ (hholds.step_wide x) (by simp; omega) h
      | false =>
        change (if size < (vs.length + 1 - 1) * 4 then throw Stop.outside else _) = _ at h
        split_ifs at h with hout hroom
        obtain ⟨word, hword, h⟩ := bind_eq_ok.1 h
        obtain rfl := writeBytes_ok hword
        refine hnext true _ _ (hholds.step_widen.step_wide x) ?_ h
        have hb : buffer.length = vs.length * 4 := by
          rw [(hholds.narrow rfl).2, length_flatMap_const fun v : BitVec 64 => length_le 4 (low32 v)]
        have hw : (widen buffer).length = vs.length * 8 := by
          rw [hholds.step_widen.wide rfl, length_flatMap_const fun v : BitVec 64 => length_le 8 v.toNat]
        rw [List.length_append, length_le, hb, hw]
        omega

theorem map_range_chunks {α β : Type} {g : α → Bytes} {w : ℕ} (hw : ∀ a, (g a).length = w) (f : Bytes → β) (vs : List α)
    (rest : Bytes) :
    ((List.range vs.length).map fun i => f (((vs.flatMap g ++ rest).drop (i * w)).take w)) = vs.map fun v => f (g v) := by
  induction vs with
  | nil => rfl
  | cons v vs ih =>
    rw [List.length_cons, List.range_succ_eq_map, List.map_cons, List.map_map, List.map_cons, List.flatMap_cons, ← ih]
    congr 1
    · rw [Nat.zero_mul, List.drop_zero, List.append_assoc, List.take_left' (hw v)]
    · apply List.map_congr_left
      intro i _
      rw [Function.comp_apply, Nat.succ_mul, Nat.add_comm, ← List.drop_drop, List.append_assoc, List.drop_left' (hw v)]

theorem decodeNumbers_flatMap {α β : Type} {g : α → Bytes} {w : ℕ} (hw : ∀ a, (g a).length = w) (f : Bytes → β)
    (vs : List α) (rest : Bytes) :
    decodeNumbers (.ok ()) w vs.length f (vs.flatMap g ++ rest) = .ok (vs.map fun v => f (g v)) := by
  have hlen : (vs.flatMap g ++ rest).length = vs.length * w + rest.length := by
    rw [List.length_append, length_flatMap_const hw]
  unfold decodeNumbers
  split_ifs with hzero hshort hall
  · rw [List.length_eq_zero_iff.1 hzero]
    rfl
  · have : w ≤ vs.length * w := Nat.le_mul_of_pos_left w (Nat.pos_of_ne_zero hzero)
    omega
  · omega
  · rw [ok_bind, map_range_chunks hw]
    rfl

theorem fetchArray_ok {name : Bytes} {t : Value} {x : Option Value} (h : fetchArray (.ok ()) name t = .ok x) :
    ((getField name t).isNil = true ∧ x = none) ∨ ((getField name t).isNil = false ∧ x = some (getField name t)) := by
  unfold fetchArray at h
  rw [ok_bind] at h
  cases hv : getField name t with
  | nil => rw [hv] at h; cases h; exact .inl ⟨rfl, rfl⟩
  | table array hash => rw [hv] at h; cases h; exact .inr ⟨rfl, rfl⟩
  | _ => rw [hv] at h; cases h

theorem encodeBooleanArray_ok {name : Bytes} (elements : List Value) (index size : ℕ) {content : Bytes}
    (h : encodeBooleanArray name elements index size = .ok content) :
    content.length ≤ size ∧ ∃ bs : List Bool, elements = bs.map Value.boolean ∧
      content = bs.flatMap fun b => [if b then 1 else 0] := by
  induction elements generalizing index size content with
  | nil => cases h; exact ⟨Nat.zero_le _, [], rfl, rfl⟩
  | cons v elements ih =>
    obtain ⟨b, hb, h⟩ := bind_eq_ok.1 h
    by_cases hroom : size < 1
    · rw [if_pos hroom] at h
      cases h
    rw [if_neg hroom] at h
    obtain ⟨byte, hbyte, h⟩ := bind_eq_ok.1 h
    obtain ⟨more, hmore, h⟩ := bind_eq_ok.1 h
    cases h
    obtain rfl := writeBytes_ok hbyte
    obtain ⟨hle, bs, rfl, rfl⟩ := ih (index + 1) (size - 1) hmore
    refine ⟨by simp only [List.singleton_append, List.length_cons] at hle ⊢; omega, b :: bs, ?_, ?_⟩
    · rw [checkBoolean_ok hb, List.map_cons]
    · rw [List.flatMap_cons]

/-- an array of integers of `w` bytes -/
theorem decodeArray_integers {dec : ℕ → Option ℕ → Bytes → Except Stop (Result × ℕ)} {f : Field} {wide : Bool}
    {buffer : Bytes} {xs : List (BitVec 64)} (h : Holds xs wide buffer) (rest : Bytes) (r : Result) :
    let content := if buffer.isEmpty then [] else (if wide then 8 else 4) :: buffer
    decodeArray (.ok ()) dec f .integer (content ++ rest) content.length r =
      .ok (r.setArray f (.table (xs.map Value.integer) [])) := by
  cases xs with
  | nil =>
    obtain rfl : buffer = [] := by
      cases wide with
      | true => exact h.wide rfl
      | false => exact (h.narrow rfl).2
    rfl
  | cons x xs =>
    cases wide with
    | true =>
      have hbuffer := h.wide rfl
      have hlen : buffer.length = (x :: xs).length * 8 := by
        rw [hbuffer, length_flatMap_const fun v : BitVec 64 => length_le 8 v.toNat]
      have hne : buffer.isEmpty = false := by
        rw [List.isEmpty_eq_false_iff, ← List.length_pos_iff, hlen]
        simp
      have hnumbers := decodeNumbers_flatMap (w := 8) (fun v : BitVec 64 => length_le 8 v.toNat)
        (fun b => Value.integer (BitVec.ofNat 64 (ofLe b))) (x :: xs) rest
      have hmap : ((x :: xs).map fun v => Value.integer (BitVec.ofNat 64 (ofLe (le 8 v.toNat)))) =
          (x :: xs).map Value.integer := by
        apply List.map_congr_left
        intro v _
        rw [ofLe_le, Nat.mod_eq_of_lt v.isLt, BitVec.ofNat_toNat, BitVec.setWidth_eq]
      rw [← hbuffer, hmap] at hnumbers
      simp only [hne, Bool.false_eq_true, if_false, if_true, List.cons_append, List.length_cons, decodeArray,
        Nat.add_sub_cancel, hlen, Nat.mul_mod_left, Nat.mul_div_cancel _ (by decide : 0 < 8)]
      simp only [List.length_cons] at hnumbers
      rw [hnumbers]
      rfl
    | false =>
      obtain ⟨hfits, hbuffer⟩ := h.narrow rfl
      have hlen : buffer.length = (x :: xs).length * 4 := by
        rw [hbuffer, length_flatMap_const fun v : BitVec 64 => length_le 4 (low32 v)]
      have hne : buffer.isEmpty = false := by
        rw [List.isEmpty_eq_false_iff, ← List.length_pos_iff, hlen]
        simp
      have hnumbers := decodeNumbers_flatMap (w := 4) (fun v : BitVec 64 => length_le 4 (low32 v))
        (fun b => Value.integer (expand64 (ofLe b))) (x :: xs) rest
      have hmap : ((x :: xs).map fun v => Value.integer (expand64 (ofLe (le 4 (low32 v))))) =
          (x :: xs).map Value.integer := by
        apply List.map_congr_left
        intro v hv
        rw [ofLe_le, Nat.mod_eq_of_lt (low32_lt v), expand64_low32 (hfits v hv)]
      rw [← hbuffer, hmap] at hnumbers
      simp only [hne, Bool.false_eq_true, if_false, List.cons_append, List.length_cons, decodeArray,
        Nat.add_sub_cancel, hlen, Nat.mul_mod_left, Nat.mul_div_cancel _ (by decide : 0 < 4)]
      simp only [List.length_cons] at hnumbers
      rw [hnumbers]
      rfl

/-- the elements of an array of strings or structs, put behind one another -/
theorem foldl_append_map {α β : Type} (g : α → β) (vs : List α) (acc : List β) :
    vs.foldl (fun acc v => acc ++ [g v]) acc = acc ++ vs.map g := by
  induction vs generalizing acc with
  | nil => simp
  | cons v vs ih => rw [List.foldl_cons, ih, List.map_cons, List.append_assoc, List.singleton_append]

theorem decodeArray_booleans {dec : ℕ → Option ℕ → Bytes → Except Stop (Result × ℕ)} {f : Field} (bs : List Bool)
    (rest : Bytes) (r : Result) :
    decodeArray (.ok ()) dec f .boolean ((bs.flatMap fun b => [if b then 1 else 0]) ++ rest)
        (bs.flatMap fun b => [if b then (1 : Byte) else 0]).length r =
      .ok (r.setArray f (.table ((bs.map Value.boolean).map fun v => v) [])) := by
  have hlen := length_flatMap_const (g := fun b : Bool => [if b then (1 : Byte) else 0]) (fun _ => rfl) bs
  have hnumbers := decodeNumbers_flatMap (g := fun b : Bool => [if b then (1 : Byte) else 0]) (w := 1) (fun _ => rfl)
    (fun b => Value.boolean (ofLe b != 0)) bs rest
  have hmap : (bs.map fun v => Value.boolean (ofLe [if v then (1 : Byte) else 0] != 0)) = bs.map Value.boolean := by
    apply List.map_congr_left
    intro b _
    cases b <;> rfl
  rw [hmap] at hnumbers
  rw [hlen, Nat.mul_one, List.map_id']
  cases bs with
  | nil => rfl
  | cons b bs =>
    rw [decodeArray, if_neg (by simp)]
    simp only [hnumbers, ok_bind]
    rfl

theorem decodeArray_objects {dec : ℕ → Option ℕ → Bytes → Except Stop (Result × ℕ)} {f : Field} {k : Kind}
    (hk : k.IsObject) {content : Bytes} {vs : List Value} (hhuge : ¬ 2 ^ 32 ≤ content.length + SIZEOF_LENGTH)
    (rest : Bytes) (hdec : decodeArrayObject (fun cur length vs => do
      let v ← decodeContent (.ok ()) dec k cur length
      return vs ++ [v]) content.length (content ++ rest) content.length [] = .ok vs) (r : Result) :
    decodeArray (.ok ()) dec f k (content ++ rest) content.length r = .ok (r.setArray f (.table vs [])) := by
  by_cases hzero : content.length = 0
  · obtain rfl : content = [] := List.length_eq_zero_iff.1 hzero
    cases hdec
    rfl
  cases k with
  | integer => exact hk.elim
  | boolean => exact hk.elim
  | string =>
    simp only [decodeArray, if_neg hzero, if_neg hhuge, hdec, ok_bind]
    rfl
  | struct i =>
    simp only [decodeArray, if_neg hzero, if_neg hhuge, hdec, ok_bind]
    rfl

/-! ## Fields -/

section Fields

variable {lua : Conversions} {enc : ℕ → Value → ℕ → Except Stop Bytes}
  {dec : ℕ → Option ℕ → Bytes → Except Stop (Result × ℕ)} {keptSub : ℕ → Option ℕ → Value → Result}
  {keyed : ℕ → Value → Prop}
  /- what is known of the structs inside -/
  (hsub : ∀ i v length bytes, length ≤ ENCODE_MAXSIZE → keyed i v → enc i v length = .ok bytes →
    bytes.length ≤ length ∧ ∀ mainindex, dec i mainindex bytes = .ok (keptSub i mainindex v, bytes.length))
include hsub

theorem encodeContent_ok {k : Kind} {name : Bytes} {index : ℕ} {v : Value} {length : ℕ} {content : Bytes}
    (hk : k.IsObject) (hlength : length ≤ ENCODE_MAXSIZE) (hkeyed : ∀ i, k = .struct i → keyed i v)
    (h : encodeContent lua enc k name index v length = .ok content) :
    content.length ≤ length ∧ ∀ rest,
      decodeContent (.ok ()) dec k (content ++ rest) content.length = .ok (keptContent lua keptSub k v) := by
  cases k with
  | integer => exact hk.elim
  | boolean => exact hk.elim
  | string =>
    unfold encodeContent at h
    cases htext : lua.toText v with
    | none => rw [htext] at h; cases h
    | some s =>
      rw [htext] at h
      by_cases hlong : length < s.length
      · simp only [if_pos hlong] at h
        cases h
      simp only [if_neg hlong] at h
      obtain rfl := writeBytes_ok h
      refine ⟨Nat.le_of_not_lt hlong, fun rest => ?_⟩
      rw [keptContent, htext, decodeContent, ok_bind, readBytes_append rfl]
      rfl
  | struct i =>
    cases v with
    | table array hash =>
      obtain ⟨hle, hdec⟩ := hsub i _ length content hlength (hkeyed i rfl) h
      refine ⟨hle, fun rest => ?_⟩
      simp only [decodeContent, ok_bind, readBytes_append rfl, hdec none, if_true]
      rfl
    | _ => cases h

omit hsub in
/-- an array of strings or structs is taken apart again, element by element -/
theorem encodeObjectArray_ok {α : Type} {step : Bytes → ℕ → α → Except Stop α} {g : α → Value → α} {k : Kind} {name : Bytes}
    (elements : List Value) (index size : ℕ) (content : Bytes) (n : ℕ) (a : α)
    (hstep : ∀ v ∈ elements, ∀ index length c, length ≤ ENCODE_MAXSIZE →
      encodeContent lua enc k name index v length = .ok c →
      c.length ≤ length ∧ ∀ rest a, step (c ++ rest) c.length a = .ok (g a v))
    (hsize : size ≤ ENCODE_MAXSIZE) (h : encodeObjectArray lua enc k name elements index size = .ok content)
    (hn : content.length ≤ n) (rest : Bytes) :
    content.length ≤ size ∧
      decodeArrayObject step n (content ++ rest) content.length a = .ok (elements.foldl g a) := by
  induction elements generalizing index size content n a with
  | nil =>
    change (if size < SIZEOF_LENGTH then throw Stop.negative else return []) = _ at h
    split_ifs at h
    cases h
    refine ⟨Nat.zero_le _, ?_⟩
    cases n <;> rfl
  | cons v elements ih =>
    obtain ⟨hv, helements⟩ := List.forall_mem_cons.1 hstep
    unfold encodeObjectArray at h
    split_ifs at h with hroom
    obtain ⟨c, hc, h⟩ := bind_eq_ok.1 h
    obtain ⟨element, helement, h⟩ := bind_eq_ok.1 h
    obtain ⟨more, hmore, h⟩ := bind_eq_ok.1 h
    cases h
    obtain rfl := fillSize_ok helement
    obtain ⟨hcle, hca⟩ := hv index _ c (by omega) hc
    have hlen : (le 4 c.length ++ c ++ more).length = 4 + c.length + more.length := by
      simp only [List.length_append, length_le]
    rw [hlen] at hn
    obtain ⟨m, rfl⟩ : ∃ m, n = m + 1 := Nat.exists_eq_add_of_le' (by omega)
    obtain ⟨hmorele, hrest⟩ := ih (index + 1) _ more m (g a v) helements (by omega) hmore (by omega)
    have hfour : SIZEOF_LENGTH = 4 := rfl
    have hread : readBytes SIZEOF_LENGTH (le 4 c.length ++ c ++ more ++ rest) = .ok (le 4 c.length) := by
      rw [List.append_assoc, List.append_assoc]
      exact readBytes_append (length_le 4 _) _
    have hstream : (le 4 c.length ++ c ++ more ++ rest).drop SIZEOF_LENGTH = c ++ (more ++ rest) := by
      rw [List.append_assoc, List.append_assoc]
      exact List.drop_left' (length_le 4 _)
    have hof : ofLe (le 4 c.length) = c.length := by
      have : ENCODE_MAXSIZE < 2 ^ 32 := by decide
      rw [ofLe_le, Nat.mod_eq_of_lt (by omega)]
    have hsz : 4 + c.length + more.length - SIZEOF_LENGTH - c.length = more.length := by omega
    refine ⟨by omega, ?_⟩
    rw [decodeArrayObject, hlen, if_neg (by omega), if_neg (by omega), hread, ok_bind, hof, if_neg (by omega),
      ← List.drop_drop, hstream, List.drop_left, hca, ok_bind, hsz, List.foldl_cons]
    exact hrest

/-- what the decoder makes of a field's record and data: it sets the value -/
def Decodes (dec : ℕ → Option ℕ → Bytes → Except Stop (Result × ℕ)) (f : Field) (v : Value) (x : ℕ × Bytes) : Prop :=
  (0 < x.1 ∧ x.1 % 2 = 0 ∧ x.1 < 2 ^ 16 ∧ x.2 = [] ∧
    ∀ mainindex r, decodeInline (.ok ()) f mainindex (x.1 / 2 - 1) r = .ok (r.set f mainindex v)) ∨
  (x.1 = 0 ∧ ∃ content, x.2 = le 4 content.length ++ content ∧ ∀ mainindex rest r,
    decodeData (.ok ()) dec f mainindex (content ++ rest) content.length r = .ok (r.set f mainindex v))

omit hsub in
theorem not_huge {n : ℕ} (h : n ≤ ENCODE_MAXSIZE) : ¬ 2 ^ 32 ≤ n + SIZEOF_LENGTH := by
  have : ENCODE_MAXSIZE + SIZEOF_LENGTH < 2 ^ 32 := by decide
  omega

omit hsub in
theorem encodeInteger_ok {f : Field} {v : BitVec 64} {size : ℕ} (hshape : f.shape = .single .integer) {x : ℕ × Bytes}
    (h : encodeInteger v size = .ok x) : x.2.length ≤ size ∧ Decodes dec f (.integer v) x := by
  unfold encodeInteger at h
  split_ifs at h with hfits hinline hroom hroom
  · cases h
    refine ⟨Nat.zero_le _, .inl ⟨by omega, by omega, by omega, rfl, ?_⟩⟩
    intro mainindex r
    have hvalue : BitVec.ofNat 64 ((low32 v + 1) * 2 / 2 - 1) = v := by
      rw [Nat.mul_div_cancel _ (by decide), Nat.add_sub_cancel, ← toNat_eq_low32 hfits (by omega), BitVec.ofNat_toNat,
        BitVec.setWidth_eq]
    simp only [decodeInline, hshape, ok_bind, hvalue, Result.set]
    rfl
  · obtain ⟨data, hdata, h⟩ := bind_eq_ok.1 h
    obtain rfl := writeBytes_ok hdata
    cases h
    refine ⟨by simpa [SIZEOF_LENGTH] using hroom, .inr ⟨rfl, le 4 (low32 v), by simp, ?_⟩⟩
    intro mainindex rest r
    have hvalue : expand64 (ofLe (le 4 (low32 v))) = v := by
      rw [ofLe_le, Nat.mod_eq_of_lt (low32_lt v), expand64_low32 hfits]
    simp only [decodeData, hshape, length_le, ok_bind, readBytes_append (length_le 4 _), hvalue, Result.set]
    rfl
  · obtain ⟨data, hdata, h⟩ := bind_eq_ok.1 h
    obtain rfl := writeBytes_ok hdata
    cases h
    refine ⟨by simpa [SIZEOF_LENGTH] using hroom, .inr ⟨rfl, le 8 v.toNat, by simp, ?_⟩⟩
    intro mainindex rest r
    have hvalue : BitVec.ofNat 64 (ofLe (le 8 v.toNat)) = v := by
      rw [ofLe_le, Nat.mod_eq_of_lt v.isLt, BitVec.ofNat_toNat, BitVec.setWidth_eq]
    simp only [decodeData, hshape, length_le, ok_bind, readBytes_append (length_le 8 _), hvalue, Result.set]
    rfl

/-- a string or a struct that is no element of an array -/
theorem encodeObject_ok {k : Kind} {f : Field} {v : Value} {size : ℕ} (hshape : f.shape = .single k) (hk : k.IsObject)
    (hsize : size ≤ ENCODE_MAXSIZE) (hkeyed : ∀ i, k = .struct i → keyed i v) (hroom : ¬ size < SIZEOF_LENGTH)
    {content : Bytes} (h : encodeContent lua enc k f.name 0 v (size - SIZEOF_LENGTH) = .ok content) :
    (le 4 content.length ++ content).length ≤ size ∧
      Decodes dec f (keptContent lua keptSub k v) (0, le 4 content.length ++ content) := by
  obtain ⟨hle, hdec⟩ := encodeContent_ok hsub hk (by omega) hkeyed h
  have hfour : SIZEOF_LENGTH = 4 := rfl
  refine ⟨by rw [List.length_append, length_le]; omega, .inr ⟨rfl, content, rfl, ?_⟩⟩
  intro mainindex rest r
  have hsmall := not_huge (n := content.length) (by omega)
  cases k with
  | integer => exact hk.elim
  | boolean => exact hk.elim
  | string =>
    simp only [decodeData, hshape, if_neg hsmall, hdec, ok_bind, Result.set]
    rfl
  | struct i =>
    simp only [decodeData, hshape, if_neg hsmall, hdec, ok_bind, Result.set]
    rfl

theorem encodeSingle_ok {k : Kind} {f : Field} {t : Value} {size : ℕ} (hshape : f.shape = .single k)
    (hsize : size ≤ ENCODE_MAXSIZE) (hkeyed : ∀ i, k = .struct i → keyed i (getField f.name t)) {x : Option (ℕ × Bytes)}
    (h : encodeSingle lua (.ok ()) enc k f.name t size = .ok x) :
    ((getField f.name t).isNil = true ∧ x = none) ∨
      ((getField f.name t).isNil = false ∧ ∃ y, x = some y ∧ y.2.length ≤ size ∧
        Decodes dec f (keptContent lua keptSub k (getField f.name t)) y) := by
  by_cases hnil : (getField f.name t).isNil = true
  · refine .inl ⟨hnil, ?_⟩
    cases k <;> simp only [encodeSingle, ok_bind, if_pos hnil] at h
    · cases h; rfl
    · cases h; rfl
    · split_ifs at h; cases h; rfl
    · split_ifs at h; cases h; rfl
  refine .inr ⟨by simpa using hnil, ?_⟩
  cases k with
  | integer =>
    simp only [encodeSingle, ok_bind, if_neg hnil] at h
    obtain ⟨v, hv, h⟩ := bind_eq_ok.1 h
    obtain ⟨y, hy, h⟩ := bind_eq_ok.1 h
    cases h
    have hkept : keptContent lua keptSub .integer (getField f.name t) = .integer v := by
      rw [keptContent, checkInteger_ok hv]
      rfl
    rw [hkept]
    exact ⟨y, rfl, encodeInteger_ok hshape hy⟩
  | boolean =>
    simp only [encodeSingle, ok_bind, if_neg hnil] at h
    obtain ⟨b, hb, h⟩ := bind_eq_ok.1 h
    cases h
    refine ⟨_, rfl, Nat.zero_le _, .inl ⟨by omega, by omega, by cases b <;> decide, rfl, ?_⟩⟩
    intro mainindex r
    have hkept : keptContent lua keptSub .boolean (getField f.name t) = .boolean b := checkBoolean_ok hb
    simp only [hkept, decodeInline, hshape, ok_bind, Result.set]
    cases b <;> rfl
  | _ =>
    simp only [encodeSingle, ok_bind, if_neg hnil] at h
    split_ifs at h with hroom
    obtain ⟨content, hc, h⟩ := bind_eq_ok.1 h
    obtain ⟨data, hdata, h⟩ := bind_eq_ok.1 h
    obtain rfl := fillSize_ok hdata
    cases h
    exact ⟨_, rfl, encodeObject_ok hsub hshape trivial hsize hkeyed hroom hc⟩

omit hsub in
/-- what `encode_array` does for strings and structs, in an array or a map -/
theorem encodeArray_object_ok {k : Kind} (hk : k.IsObject) {elements : Value → List Value} {name : Bytes} {t : Value}
    {size : ℕ} {x : Option (ℕ × Bytes)} (h : encodeArray lua (.ok ()) enc k elements name t size = .ok x) :
    ¬ size < SIZEOF_LENGTH ∧ ((getField name t).isNil = true ∧ x = none ∨ (getField name t).isNil = false ∧
      ∃ content, encodeObjectArray lua enc k name (elements (getField name t)) 1 (size - SIZEOF_LENGTH) = .ok content ∧
        x = some (0, le 4 content.length ++ content)) := by
  unfold encodeArray at h
  by_cases hroom : size < SIZEOF_LENGTH
  · rw [if_pos hroom] at h
    cases h
  rw [if_neg hroom] at h
  refine ⟨hroom, ?_⟩
  cases k with
  | integer => exact hk.elim
  | boolean => exact hk.elim
  | _ =>
    by_cases hmore : size - SIZEOF_LENGTH < SIZEOF_LENGTH
    · simp only [if_pos hmore] at h
      cases h
    simp only [if_neg hmore] at h
    obtain ⟨v, hv, h⟩ := bind_eq_ok.1 h
    obtain ⟨hnil, rfl⟩ | ⟨hnil, rfl⟩ := fetchArray_ok hv
    · cases h
      exact .inl ⟨hnil, rfl⟩
    obtain ⟨content, hc, h⟩ := bind_eq_ok.1 h
    obtain ⟨data, hdata, h⟩ := bind_eq_ok.1 h
    obtain rfl := fillSize_ok hdata
    cases h
    exact .inr ⟨hnil, content, hc, rfl⟩

omit hsub in
/-- strings or structs, in an array or a map: `g` is what the call back for an element does -/
theorem encodeObjects_ok {α : Type} (step : Bytes → ℕ → α → Except Stop α) (g : α → Value → α) {k : Kind} {name : Bytes}
    (elements : List Value) {size : ℕ} (hsize : size ≤ ENCODE_MAXSIZE) (hroom : ¬ size < SIZEOF_LENGTH) {content : Bytes}
    (a : α)
    (hstep : ∀ v ∈ elements, ∀ index length c, length ≤ ENCODE_MAXSIZE →
      encodeContent lua enc k name index v length = .ok c →
      c.length ≤ length ∧ ∀ rest a, step (c ++ rest) c.length a = .ok (g a v))
    (h : encodeObjectArray lua enc k name elements 1 (size - SIZEOF_LENGTH) = .ok content) :
    (le 4 content.length ++ content).length ≤ size ∧ ¬ 2 ^ 32 ≤ content.length + SIZEOF_LENGTH ∧
      ∀ rest, decodeArrayObject step content.length (content ++ rest) content.length a = .ok (elements.foldl g a) := by
  have hall := encodeObjectArray_ok elements 1 _ content content.length a hstep (by omega) h le_rfl
  obtain ⟨hle, -⟩ := hall []
  have hfour : SIZEOF_LENGTH = 4 := rfl
  refine ⟨by rw [List.length_append, length_le]; omega, not_huge (by omega), fun rest => (hall rest).2⟩

/-- an array of strings or structs -/
theorem encodeObjectField_ok {k : Kind} {f : Field} {v : Value} {size : ℕ} (hshape : f.shape = .array k)
    (hk : k.IsObject) (hsize : size ≤ ENCODE_MAXSIZE) (hkeyed : ∀ i, k = .struct i → ∀ x ∈ items v, keyed i x)
    (hroom : ¬ size < SIZEOF_LENGTH) {content : Bytes}
    (h : encodeObjectArray lua enc k f.name (items v) 1 (size - SIZEOF_LENGTH) = .ok content) :
    (le 4 content.length ++ content).length ≤ size ∧
      Decodes dec f (.table ((items v).map (keptContent lua keptSub k)) []) (0, le 4 content.length ++ content) := by
  have hstep : ∀ x ∈ items v, ∀ index length c, length ≤ ENCODE_MAXSIZE →
      encodeContent lua enc k f.name index x length = .ok c → c.length ≤ length ∧ ∀ rest, ∀ vs : List Value, (do
        let v ← decodeContent (.ok ()) dec k (c ++ rest) c.length
        return vs ++ [v]) = Except.ok (vs ++ [keptContent lua keptSub k x]) := by
    intro x hx index length c hlength hc
    obtain ⟨hcle, hcdec⟩ := encodeContent_ok hsub hk hlength (fun i hi => hkeyed i hi x hx) hc
    refine ⟨hcle, fun rest vs => ?_⟩
    rw [hcdec rest]
    rfl
  obtain ⟨hle, hhuge, hdec⟩ := encodeObjects_ok (fun cur length vs => do
      let v ← decodeContent (.ok ()) dec k cur length
      return vs ++ [v])
    (fun vs x => vs ++ [keptContent lua keptSub k x]) (items v) hsize hroom [] hstep h
  refine ⟨hle, .inr ⟨rfl, content, rfl, ?_⟩⟩
  intro mainindex rest r
  simp only [foldl_append_map, List.nil_append] at hdec
  simp only [decodeData, hshape, Result.set]
  exact decodeArray_objects hk hhuge rest (hdec rest) r

/-- the outcome of encoding a field: nothing without a value, else what decodes to the value that is kept -/
def FieldOk (dec : ℕ → Option ℕ → Bytes → Except Stop (Result × ℕ)) (f : Field) (v keptV : Value) (size : ℕ)
    (x : Option (ℕ × Bytes)) : Prop :=
  (v.isNil = true ∧ x = none) ∨
    (v.isNil = false ∧ ∃ y, x = some y ∧ y.2.length ≤ size ∧ Decodes dec f keptV y)

theorem encodeArray_ok {k : Kind} {f : Field} {t : Value} {size : ℕ} (hshape : f.shape = .array k)
    (hsize : size ≤ ENCODE_MAXSIZE) (hkeyed : ∀ i, k = .struct i → ∀ v ∈ items (getField f.name t), keyed i v)
    {x : Option (ℕ × Bytes)} (h : encodeArray lua (.ok ()) enc k items f.name t size = .ok x) :
    FieldOk dec f (getField f.name t) (keptValue lua keptSub f.shape (getField f.name t)) size x := by
  rw [hshape, keptValue]
  by_cases hk : k.IsObject
  · obtain ⟨hroom, ⟨hnil, rfl⟩ | ⟨hnil, content, hc, rfl⟩⟩ := encodeArray_object_ok hk h
    · exact .inl ⟨hnil, rfl⟩
    · exact .inr ⟨hnil, _, rfl, encodeObjectField_ok hsub hshape hk hsize hkeyed hroom hc⟩
  have hfour : SIZEOF_LENGTH = 4 := rfl
  unfold encodeArray at h
  by_cases hroom : size < SIZEOF_LENGTH
  · rw [if_pos hroom] at h
    cases h
  rw [if_neg hroom] at h
  cases k with
  | integer =>
    by_cases hone : size - SIZEOF_LENGTH < 1
    · simp only [if_pos hone] at h
      cases h
    simp only [if_neg hone] at h
    obtain ⟨v, hv, h⟩ := bind_eq_ok.1 h
    obtain ⟨hnil, rfl⟩ | ⟨hnil, rfl⟩ := fetchArray_ok hv
    · cases h
      exact .inl ⟨hnil, rfl⟩
    obtain ⟨⟨wide, buffer⟩, hb, h⟩ := bind_eq_ok.1 h
    obtain ⟨data, hdata, h⟩ := bind_eq_ok.1 h
    obtain rfl := fillSize_ok hdata
    cases h
    obtain ⟨xs, hxs, hholds, hle⟩ := encodeIntegerArray_ok _ [] false [] _ ⟨fun _ => ⟨nofun, rfl⟩, nofun⟩ hb
    have hkept : ((items (getField f.name t)).map fun v => Value.integer ((lua.toInteger v).getD 0)) =
        xs.map Value.integer := by
      have := congrArg (List.map fun o => Value.integer (Option.getD o 0)) hxs
      simpa [Function.comp_def] using this
    refine .inr ⟨hnil, _, rfl, ?_, .inr ⟨rfl, _, rfl, ?_⟩⟩
    · simp only [List.length_append, length_le]
      split_ifs <;> simp only [List.length_nil, List.length_cons, Nat.zero_add] at hle ⊢ <;> omega
    · intro mainindex rest r
      simp only [decodeData, hshape, Result.set]
      refine (decodeArray_integers hholds rest r).trans ?_
      rw [List.nil_append, ← hkept]
      rfl
  | boolean =>
    obtain ⟨v, hv, h⟩ := bind_eq_ok.1 h
    obtain ⟨hnil, rfl⟩ | ⟨hnil, rfl⟩ := fetchArray_ok hv
    · cases h
      exact .inl ⟨hnil, rfl⟩
    obtain ⟨content, hc, h⟩ := bind_eq_ok.1 h
    obtain ⟨data, hdata, h⟩ := bind_eq_ok.1 h
    obtain rfl := fillSize_ok hdata
    cases h
    obtain ⟨hle, bs, hbs, rfl⟩ := encodeBooleanArray_ok _ 1 _ hc
    refine .inr ⟨hnil, _, rfl, ?_, .inr ⟨rfl, _, rfl, ?_⟩⟩
    · rw [List.length_append, length_le]
      omega
    · intro mainindex rest r
      simp only [decodeData, hshape, Result.set, hbs]
      exact decodeArray_booleans bs rest r
  | _ => exact absurd trivial hk

theorem encodeMap_ok {i key : ℕ} {f : Field} {t : Value} {size : ℕ} (hshape : f.shape = .map i key)
    (hsize : size ≤ ENCODE_MAXSIZE)
    (hkeyed : ∀ v ∈ values (getField f.name t), keyed i v ∧ (keptSub i (some key) v).key.isNil = false)
    {x : Option (ℕ × Bytes)} (h : encodeArray lua (.ok ()) enc (.struct i) values f.name t size = .ok x) :
    FieldOk dec f (getField f.name t) (keptValue lua keptSub f.shape (getField f.name t)) size x := by
  obtain ⟨hroom, ⟨hnil, rfl⟩ | ⟨hnil, content, hc, rfl⟩⟩ := encodeArray_object_ok (show (Kind.struct i).IsObject from trivial) h
  · exact .inl ⟨hnil, rfl⟩
  have hstep : ∀ x ∈ values (getField f.name t), ∀ index length c, length ≤ ENCODE_MAXSIZE →
      encodeContent lua enc (.struct i) f.name index x length = .ok c → c.length ≤ length ∧ ∀ rest map,
        decodeEntry (.ok ()) dec f.name i key (c ++ rest) c.length map = .ok (keptEntry keptSub i key map x) := by
    intro x hx index length c hlength hc
    obtain ⟨hkx, hkey⟩ := hkeyed x hx
    cases x with
    | table array hash =>
      obtain ⟨hle, hdec⟩ := hsub i _ length c hlength hkx hc
      refine ⟨hle, fun rest map => ?_⟩
      simp only [decodeEntry, ok_bind, readBytes_append rfl, hdec (some key), hkey, ne_eq, not_true_eq_false, if_false]
      rfl
    | _ => cases hc
  obtain ⟨hle, hhuge, hdec⟩ := encodeObjects_ok (decodeEntry (.ok ()) dec f.name i key) (keptEntry keptSub i key)
    (values (getField f.name t)) hsize hroom [] hstep hc
  refine .inr ⟨hnil, _, rfl, hle, .inr ⟨rfl, content, rfl, ?_⟩⟩
  intro mainindex rest r
  simp only [decodeData, hshape, Result.set, keptValue, decodeMap]
  by_cases hzero : content.length = 0
  · obtain rfl : content = [] := List.length_eq_zero_iff.1 hzero
    rw [Except.ok.inj (hdec rest).symm]
    rfl
  · rw [if_neg hzero, if_neg hhuge, hdec rest]
    rfl

theorem encodeField_ok {f : Field} {t : Value} {size : ℕ} (hsize : size ≤ ENCODE_MAXSIZE)
    (hkeyed : KeyedField keptSub keyed f (getField f.name t)) {x : Option (ℕ × Bytes)}
    (h : encodeField lua (.ok ()) enc f t size = .ok x) :
    FieldOk dec f (getField f.name t) (keptValue lua keptSub f.shape (getField f.name t)) size x := by
  unfold encodeField at h
  unfold KeyedField at hkeyed
  cases hshape : f.shape with
  | single k =>
    rw [hshape] at h hkeyed
    refine encodeSingle_ok hsub hshape hsize ?_ h
    rintro i rfl
    exact hkeyed
  | array k =>
    rw [hshape] at h hkeyed
    rw [← hshape]
    refine encodeArray_ok hsub hshape hsize ?_ h
    rintro i rfl
    exact hkeyed
  | map i key =>
    rw [hshape] at h hkeyed
    rw [← hshape]
    exact encodeMap_ok hsub hshape hsize hkeyed h

/-! ## Records -/

omit hsub in
/-- one field's record and data, behind a record that skips the tags before it -/
theorem decodeRecords_add {st : SprotoType} {f : Field} {v : Value} {x : ℕ × Bytes} (hf : f ∈ st.fields)
    (hdec : Decodes dec f v x) (hsize : x.2.length ≤ ENCODE_MAXSIZE) (next : ℕ) (hnext : next ≤ f.tag)
    (mainindex : Option ℕ) (records : List ℕ) (r : Result) (data : Bytes) (used : ℕ) :
    decodeRecords (.ok ()) dec st mainindex
        ((if next < f.tag then [(f.tag - next - 1) * 2 + 1] else []) ++ [x.1] ++ records) next r (x.2 ++ data) used =
      decodeRecords (.ok ()) dec st mainindex records (f.tag + 1) (r.set f mainindex v) data (used + x.2.length) := by
  have hfind : findtag st f.tag = some f := (findtag_eq_some st f.tag f).2 ⟨hf, rfl⟩
  -- the record of the field itself
  have hown : decodeRecords (.ok ()) dec st mainindex (x.1 :: records) f.tag r (x.2 ++ data) used =
      decodeRecords (.ok ()) dec st mainindex records (f.tag + 1) (r.set f mainindex v) data (used + x.2.length) := by
    obtain ⟨value, bytes⟩ := x
    obtain ⟨hpos, heven, -, hbytes, hinline⟩ | ⟨hzero, content, hbytes, hdata⟩ := hdec
    · simp only at hpos heven hbytes hinline ⊢
      rw [decodeRecords, if_neg (by omega), if_neg (by omega), hfind, hbytes]
      simp only [hinline, ok_bind, List.nil_append, List.length_nil, Nat.add_zero]
    · simp only at hzero hbytes hdata hsize ⊢
      subst hzero hbytes
      rw [List.length_append, length_le] at hsize
      have hmax : ENCODE_MAXSIZE < 2 ^ 32 := by decide
      have hread : readBytes SIZEOF_LENGTH (le 4 content.length ++ content ++ data) = .ok (le 4 content.length) := by
        rw [List.append_assoc]
        exact readBytes_append (length_le 4 _) _
      have hdrop : (le 4 content.length ++ content ++ data).drop SIZEOF_LENGTH = content ++ data := by
        rw [List.append_assoc]
        exact List.drop_left' (length_le 4 _)
      have hof : ofLe (le 4 content.length) = content.length := by rw [ofLe_le, Nat.mod_eq_of_lt (by omega)]
      have hlen : (content.length + SIZEOF_LENGTH) % 2 ^ 32 = (le 4 content.length ++ content).length := by
        rw [Nat.mod_eq_of_lt (by simp only [SIZEOF_LENGTH]; omega), List.length_append, length_le, SIZEOF_LENGTH]
        omega
      have hroom : SIZEOF_LENGTH ≤ (le 4 content.length ++ content ++ data).length := by
        simp only [SIZEOF_LENGTH, List.length_append, length_le]
        omega
      rw [decodeRecords, if_neg (by decide), if_pos rfl, if_neg (by omega), hread, ok_bind]
      simp only [hof, hlen, hdrop, hfind, List.drop_left]
      rw [if_neg (by simp only [List.length_append]; omega)]
      simp only [hdata, ok_bind]
  split_ifs with hskip
  · rw [List.append_assoc, List.singleton_append, decodeRecords, if_pos (by omega)]
    rw [show next + ((f.tag - next - 1) * 2 + 1) / 2 + 1 = f.tag by omega]
    exact hown
  · obtain rfl : next = f.tag := by omega
    exact hown

/-- the records and the data that the loop of `sproto_encode` adds, and what they decode to -/
theorem encodeFields_ok {st : SprotoType} {t : Value} {maxn size : ℕ} (hsize : size ≤ ENCODE_MAXSIZE) (fields : List Field)
    (hfields : ∀ f ∈ fields, f ∈ st.fields) (hasc : fields.Pairwise fun f g => f.tag < g.tag)
    (hkeyed : ∀ f ∈ fields, KeyedField keptSub keyed f (getField f.name t)) (w w' : Written)
    (hnext : ∀ f ∈ fields, w.next ≤ f.tag) (hroom : w.data.length ≤ size) (hcount : w.records.length ≤ maxn)
    (h : encodeFields lua (.ok ()) enc t maxn size fields w = .ok w') :
    ∃ records data, w'.records = w.records ++ records ∧ w'.data = w.data ++ data ∧ w'.data.length ≤ size ∧
      w'.records.length ≤ maxn ∧ (∀ x ∈ records, x < 2 ^ 16) ∧ ∀ mainindex r rest used,
        decodeRecords (.ok ()) dec st mainindex records w.next r (data ++ rest) used =
          .ok (keptFields lua keptSub mainindex t fields r, used + data.length) := by
  induction fields generalizing w with
  | nil =>
    cases h
    exact ⟨[], [], by simp, by simp, hroom, hcount, by simp, fun mainindex r rest used => rfl⟩
  | cons f fields ih =>
    obtain ⟨hf, hfields⟩ := List.forall_mem_cons.1 hfields
    obtain ⟨hlt, hasc⟩ := List.pairwise_cons.1 hasc
    obtain ⟨hkf, hkeyed⟩ := List.forall_mem_cons.1 hkeyed
    obtain ⟨hnf, hnext⟩ := List.forall_mem_cons.1 hnext
    obtain ⟨x, hx, h⟩ := bind_eq_ok.1 h
    obtain ⟨hnil, rfl⟩ | ⟨hnil, y, rfl, hylen, hdec⟩ := encodeField_ok hsub (by omega) hkf hx
    · obtain ⟨records, data, hr, hd, hle, hmaxn, hword, hdecode⟩ := ih hfields hasc hkeyed w hnext hroom hcount h
      refine ⟨records, data, hr, hd, hle, hmaxn, hword, fun mainindex r rest used => ?_⟩
      rw [keptFields, if_pos hnil]
      exact hdecode mainindex r rest used
    · obtain ⟨value, bytes⟩ := y
      by_cases hgap : 0xffff < (f.tag - w.next - 1) * 2 + 1
      · simp only [if_pos hgap] at h
        cases h
      simp only [if_neg hgap] at h
      by_cases hover : maxn < (w.add f.tag value bytes).records.length
      · rw [if_pos hover] at h
        cases h
      rw [if_neg hover] at h
      obtain ⟨records, data, hr, hd, hle, hmaxn, hword, hdecode⟩ := ih hfields hasc hkeyed (w.add f.tag value bytes)
        (fun g hg => hlt g hg) (by simp only [Written.add, List.length_append] at hylen ⊢; omega) (Nat.le_of_not_lt hover) h
      refine ⟨(if w.next < f.tag then [(f.tag - w.next - 1) * 2 + 1] else []) ++ [value] ++ records, bytes ++ data, ?_, ?_,
        hle, hmaxn, ?_, fun mainindex r rest used => ?_⟩
      · rw [hr, Written.add]
        simp only [List.append_assoc]
      · rw [hd, Written.add, List.append_assoc]
      · intro z hz
        have hvalue : value < 2 ^ 16 := by
          obtain ⟨-, -, hvalue, -⟩ | ⟨hzero, -⟩ := hdec
          · exact hvalue
          · simp only at hzero
            omega
        rcases List.mem_append.1 hz with hz | hz
        · rcases List.mem_append.1 hz with hz | hz
          · split_ifs at hz with hskip
            · rw [List.mem_singleton.1 hz]
              omega
            · cases hz
          · rw [List.mem_singleton.1 hz]
            exact hvalue
        · exact hword z hz
      · have hkept : keptFields lua keptSub mainindex t (f :: fields) r = keptFields lua keptSub mainindex t fields
            (r.set f mainindex (keptValue lua keptSub f.shape (getField f.name t))) := by
          rw [keptFields, if_neg (by simp [hnil])]
        rw [hkept, List.append_assoc bytes, List.length_append, ← Nat.add_assoc]
        exact (decodeRecords_add hf hdec (by simp only at hylen ⊢; omega) w.next hnf mainindex records r _ used).trans
          (hdecode mainindex _ rest _)

end Fields

/-! ## Messages -/

theorem recordsOf_flatMap (records : List ℕ) (h : ∀ x ∈ records, x < 2 ^ 16) :
    recordsOf records.length (records.flatMap (le 2)) = records := by
  induction records with
  | nil => rfl
  | cons x records ih =>
    obtain ⟨hx, hrecords⟩ := List.forall_mem_cons.1 h
    rw [List.length_cons, recordsOf, List.flatMap_cons, List.take_left' (length_le 2 x), List.drop_left' (length_le 2 x),
      ih hrecords, ofLe_le, Nat.mod_eq_of_lt hx]

theorem maxnFrom_lt (fields : List Field) (hasc : fields.Pairwise fun f g => f.tag < g.tag)
    (htag : ∀ f ∈ fields, f.tag < 0x7fff) (next : ℕ) (hnext : ∀ f ∈ fields, next ≤ f.tag) (hle : next ≤ 0x7fff) :
    maxnFrom next fields + next ≤ 0x7fff := by
  induction fields generalizing next with
  | nil => simpa [maxnFrom] using hle
  | cons f fields ih =>
    obtain ⟨hlt, hasc⟩ := List.pairwise_cons.1 hasc
    obtain ⟨hf, htag⟩ := List.forall_mem_cons.1 htag
    obtain ⟨hnf, -⟩ := List.forall_mem_cons.1 hnext
    have := ih hasc htag (f.tag + 1) (fun g hg => hlt g hg) (by omega)
    rw [maxnFrom]
    split_ifs <;> omega

/-- a message is its header, its records and its data -/
theorem decodeType_append {call : Except Stop Unit} {dec : ℕ → Option ℕ → Bytes → Except Stop (Result × ℕ)}
    {st : SprotoType} {mainindex : Option ℕ} (records : List ℕ) (hword : ∀ x ∈ records, x < 2 ^ 16)
    (hcount : records.length < 2 ^ 16) (data rest : Bytes) :
    decodeType call dec st mainindex (le 2 records.length ++ records.flatMap (le 2) ++ data ++ rest) =
      decodeRecords call dec st mainindex records 0 .empty (data ++ rest) (2 + records.length * 2) := by
  have hwords : (records.flatMap (le 2)).length = records.length * 2 := length_flatMap_const (length_le 2) _
  have hn : ofLe (le 2 records.length) = records.length := by rw [ofLe_le, Nat.mod_eq_of_lt (by omega)]
  have hdrop : (le 2 records.length ++ records.flatMap (le 2) ++ data ++ rest).drop 2 =
      records.flatMap (le 2) ++ (data ++ rest) := by
    simp only [List.append_assoc]
    exact List.drop_left' (length_le 2 _)
  have hread : readBytes 2 (le 2 records.length ++ records.flatMap (le 2) ++ data ++ rest) =
      .ok (le 2 records.length) := by
    simp only [List.append_assoc]
    exact readBytes_append (length_le 2 _) _
  have hlen : (le 2 records.length ++ records.flatMap (le 2) ++ data ++ rest).length =
      2 + records.length * 2 + (data ++ rest).length := by
    simp only [List.length_append, length_le, hwords]
    omega
  rw [decodeType, hlen, if_neg (by omega), hread, ok_bind, hn, if_neg (by omega), hdrop, readBytes_append hwords, ok_bind,
    ← List.drop_drop, hdrop, List.drop_left' hwords, recordsOf_flatMap _ hword]

theorem encodeType_ok {lua : Conversions} {enc : ℕ → Value → ℕ → Except Stop Bytes}
    {dec : ℕ → Option ℕ → Bytes → Except Stop (Result × ℕ)} {keptSub : ℕ → Option ℕ → Value → Result}
    {keyed : ℕ → Value → Prop}
    (hsub : ∀ i v length bytes, length ≤ ENCODE_MAXSIZE → keyed i v → enc i v length = .ok bytes →
      bytes.length ≤ length ∧ ∀ mainindex, dec i mainindex bytes = .ok (keptSub i mainindex v, bytes.length))
    {st : SprotoType} {t : Value} {size : ℕ} (hsize : size ≤ ENCODE_MAXSIZE)
    (hkeyed : ∀ f ∈ st.fields, KeyedField keptSub keyed f (getField f.name t)) {bytes : Bytes}
    (h : encodeType lua (.ok ()) enc st t size = .ok bytes) :
    bytes.length ≤ size ∧ ∀ mainindex rest, decodeType (.ok ()) dec st mainindex (bytes ++ rest) =
      .ok (keptFields lua keptSub mainindex t st.fields .empty, bytes.length) := by
  unfold encodeType at h
  split_ifs at h with hheader
  obtain ⟨w, hw, h⟩ := bind_eq_ok.1 h
  cases h
  obtain ⟨records, data, hrecords, hdata, hle, hcount, hword, hdecode⟩ := encodeFields_ok hsub (by omega) st.fields
    (fun _ h => h) st.ascending hkeyed .empty w (fun _ _ => Nat.zero_le _) (Nat.zero_le _) (Nat.zero_le _) hw
  have hmaxn := maxnFrom_lt st.fields st.ascending st.tag_lt 0 (fun _ _ => Nat.zero_le _) (by omega)
  obtain rfl : w.records = records := by simpa [Written.empty] using hrecords
  obtain rfl : w.data = data := by simpa [Written.empty] using hdata
  have hwords : (w.records.flatMap (le 2)).length = w.records.length * 2 := length_flatMap_const (length_le 2) _
  have hlen : (le 2 w.records.length ++ w.records.flatMap (le 2) ++ w.data).length =
      2 + w.records.length * 2 + w.data.length := by simp only [List.length_append, length_le, hwords]
  unfold SprotoType.maxn at hheader hle hcount
  refine ⟨by omega, fun mainindex rest => ?_⟩
  rw [hlen, decodeType_append _ hword (by omega)]
  exact hdecode mainindex .empty rest _

/-- a field is encoded only with a call back -/
theorem encodeField_no_call {lua : Conversions} {e : Stop} {enc : ℕ → Value → ℕ → Except Stop Bytes} {f : Field}
    {t : Value} {size : ℕ} {x : Option (ℕ × Bytes)} : encodeField lua (.error e) enc f t size ≠ .ok x := by
  intro h
  have hcall {α : Type} {g : Unit → Except Stop α} {a : α} : (Except.error e >>= g) ≠ .ok a := nofun
  have hfetch {α : Type} {g : Option Value → Except Stop α} {a : α} : (fetchArray (.error e) f.name t >>= g) ≠ .ok a := by
    intro h
    obtain ⟨v, hv, -⟩ := bind_eq_ok.1 h
    exact hcall hv
  unfold encodeField at h
  cases hshape : f.shape with
  | single k =>
    rw [hshape] at h
    cases k with
    | integer => exact hcall h
    | boolean => exact hcall h
    | string =>
      simp only [encodeSingle] at h
      split at h
      · cases h
      · exact hcall h
    | struct i =>
      simp only [encodeSingle] at h
      split at h
      · cases h
      · exact hcall h
  | array k =>
    rw [hshape] at h
    cases k <;> simp only [encodeArray] at h
    · split_ifs at h
      exact hfetch h
    · split_ifs at h
      exact hfetch h
    · split_ifs at h
      exact hfetch h
    · split_ifs at h
      exact hfetch h
  | map i key =>
    rw [hshape] at h
    simp only [encodeArray] at h
    split_ifs at h
    exact hfetch h

/-- what is encoded with so many levels of structs is decoded with them -/
theorem sprotoEncode_ok (lua : Conversions) (scheme : Scheme) (levels : ℕ) (st : SprotoType) (t : Value) (size : ℕ)
    (hsize : size ≤ ENCODE_MAXSIZE) (hkeyed : Keyed lua scheme levels st t) (bytes : Bytes)
    (h : sprotoEncode lua scheme levels st t size = .ok bytes) :
    bytes.length ≤ size ∧ ∀ mainindex rest, sprotoDecode scheme levels st mainindex (bytes ++ rest) =
      .ok (kept lua scheme levels st mainindex t, bytes.length) := by
  induction levels generalizing st t size bytes with
  | zero =>
    -- without a level left, only a type without fields is encoded
    change encodeType lua (.error (.raise .tooDeep)) _ st t size = _ at h
    unfold encodeType at h
    split_ifs at h with hheader
    obtain ⟨w, hw, h⟩ := bind_eq_ok.1 h
    cases hfields : st.fields with
    | nil =>
      rw [hfields] at hw
      cases hw
      cases h
      refine ⟨Nat.le_trans (by simp [Written.empty]) (Nat.le_of_not_lt hheader), fun mainindex rest => ?_⟩
      exact decodeType_append [] nofun (by decide) [] rest
    | cons f fields =>
      rw [hfields] at hw
      obtain ⟨x, hx, -⟩ := bind_eq_ok.1 hw
      exact absurd hx encodeField_no_call
  | succ levels ih =>
    refine encodeType_ok ?_ hsize hkeyed h
    intro i v length bytes hlength hk henc
    obtain ⟨hle, hdec⟩ := ih (scheme.type i) v length hlength hk bytes henc
    refine ⟨hle, fun mainindex => ?_⟩
    have hall := hdec mainindex []
    rwa [List.append_nil] at hall

/-- the buffer that was big enough in the end -/
theorem encodeLoop_ok (lua : Conversions) (scheme : Scheme) (st : SprotoType) (t : Value) (sz : ℕ)
    (hsz : sz ≤ ENCODE_MAXSIZE) {bytes : Bytes} (h : (encodeLoop lua scheme st t sz).1 = .ok bytes) :
    ∃ size ≤ ENCODE_MAXSIZE, sprotoEncode lua scheme ENCODE_DEEPLEVEL st t size = .ok bytes := by
  fun_induction encodeLoop lua scheme st t sz with
  | case1 sz hneg hmore ih => exact ih hmore.2 h
  | case2 sz hneg hmore => cases h
  | case3 sz hne => exact ⟨sz, hsz, h⟩

theorem lencode_ok (lua : Conversions) (scheme : Scheme) (st : SprotoType) (t : Value) (sz : ℕ) (hsz : sz ≤ ENCODE_MAXSIZE)
    {bytes : Bytes} (h : (lencode lua scheme st t sz).1 = .ok bytes) :
    ∃ size ≤ ENCODE_MAXSIZE, sprotoEncode lua scheme ENCODE_DEEPLEVEL st t size = .ok bytes := by
  unfold lencode at h
  split_ifs at h
  exact encodeLoop_ok lua scheme st t sz hsz h

theorem scheme_type {P : SprotoType → Prop} {scheme : Scheme} (hscheme : ∀ st ∈ scheme, P st) (hempty : P emptyType)
    (i : ℕ) : P (scheme.type i) := by
  unfold Scheme.type
  rw [List.getD_eq_getElem?_getD]
  cases h : scheme[i]? with
  | none => exact hempty
  | some st => exact hscheme st (List.mem_of_getElem? h)

def Field.isMap (f : Field) : Bool :=
  match f.shape with
  | .map _ _ => true
  | _ => false

/-- without maps there are no main indices -/
theorem keyed_of_no_maps (lua : Conversions) {scheme : Scheme} (hscheme : ∀ st ∈ scheme, ∀ f ∈ st.fields, f.isMap = false)
    (levels : ℕ) (st : SprotoType) (hst : ∀ f ∈ st.fields, f.isMap = false) (t : Value) :
    Keyed lua scheme levels st t := by
  induction levels generalizing st t with
  | zero => trivial
  | succ levels ih =>
    intro f hf
    have hmap := hst f hf
    have hsub (i : ℕ) (v : Value) : Keyed lua scheme levels (scheme.type i) v :=
      ih _ (scheme_type (P := fun st => ∀ f ∈ st.fields, f.isMap = false) hscheme nofun i) v
    unfold Field.isMap at hmap
    unfold KeyedField
    cases hshape : f.shape with
    | single k =>
      cases k with
      | struct i => exact hsub i _
      | _ => trivial
    | array k =>
      cases k with
      | struct i => exact fun x _ => hsub i x
      | _ => trivial
    | map i key =>
      rw [hshape] at hmap
      cases hmap

/-- **What is encoded is decoded to what its type keeps of it**, if the structs of its maps have their main index. The size
of the encoder's buffer and the bytes behind the message make no difference. -/
theorem sproto_round_trip (lua : Conversions) (scheme : Scheme) (st : SprotoType) (t : Value) (sz : ℕ) (bytes : Bytes)
    (hsz : sz ≤ ENCODE_MAXSIZE) (hkeyed : Keyed lua scheme ENCODE_DEEPLEVEL st t)
    (h : (lencode lua scheme st t sz).1 = .ok bytes) (rest : Bytes) (hrest : (bytes ++ rest).length < 2 ^ 31) :
    ldecode scheme st (bytes ++ rest) =
      .ok (.table [] (kept lua scheme ENCODE_DEEPLEVEL st none t).hash, bytes.length) := by
  obtain ⟨size, hsize, hsome⟩ := lencode_ok lua scheme st t sz hsz h
  obtain ⟨-, hdecode⟩ := sprotoEncode_ok lua scheme ENCODE_DEEPLEVEL st t size hsize hkeyed bytes hsome
  rw [ldecode_of_lt hrest, hdecode none rest, decoded]

/-- no string stands for an integer -/
def plainLua : Conversions := ⟨fun _ => none, fun _ => []⟩

/-- an address book with one person and two numbers, and a field its type does not name -/
def sampleBook : Value :=
  .table [] [(.string (ascii "person"), .table [
    .table [] [(.string (ascii "name"), .string (ascii "Alice")), (.string (ascii "id"), .integer 10000),
      (.string (ascii "phone"), .table [
        .table [] [(.string (ascii "number"), .string (ascii "123456789")), (.string (ascii "type"), .integer 1)],
        .table [] [(.string (ascii "number"), .string (ascii "87654321")), (.string (ascii "type"), .integer (-2))]] [])]] []),
    (.string (ascii "title"), .string (ascii "Friends"))]

theorem sproto_round_trip_sampleBook :
    ∃ bytes, (lencode plainLua Schemes.client2Server Schemes.addressBook sampleBook ENCODE_BUFFERSIZE).1 = .ok bytes ∧
      ldecode Schemes.client2Server Schemes.addressBook (bytes ++ [1, 2]) = .ok (.table []
        (kept plainLua Schemes.client2Server ENCODE_DEEPLEVEL Schemes.addressBook none sampleBook).hash, bytes.length) := by
  have hmaps : ∀ st ∈ Schemes.client2Server, ∀ f ∈ st.fields, f.isMap = false := by decide
  have hsome : (sprotoEncode plainLua Schemes.client2Server ENCODE_DEEPLEVEL Schemes.addressBook sampleBook
      ENCODE_BUFFERSIZE).toBool = true := by decide +kernel
  cases hencode : sprotoEncode plainLua Schemes.client2Server ENCODE_DEEPLEVEL Schemes.addressBook sampleBook
      ENCODE_BUFFERSIZE with
  | error e =>
    rw [hencode] at hsome
    cases hsome
  | ok bytes =>
    have hbytes : (lencode plainLua Schemes.client2Server Schemes.addressBook sampleBook ENCODE_BUFFERSIZE).1 = .ok bytes := by
      rw [lencode, if_pos (by rfl), encodeLoop, hencode]
    have hkeyed := keyed_of_no_maps plainLua hmaps ENCODE_DEEPLEVEL Schemes.addressBook (by decide) sampleBook
    obtain ⟨hlen, -⟩ := sprotoEncode_ok plainLua Schemes.client2Server ENCODE_DEEPLEVEL Schemes.addressBook sampleBook
      ENCODE_BUFFERSIZE (by decide) hkeyed bytes hencode
    exact ⟨bytes, hbytes, sproto_round_trip plainLua Schemes.client2Server Schemes.addressBook sampleBook ENCODE_BUFFERSIZE
      bytes (by decide) hkeyed hbytes [1, 2] (by simp [ENCODE_BUFFERSIZE] at hlen ⊢; omega)⟩

end OwliesServer.Sproto
