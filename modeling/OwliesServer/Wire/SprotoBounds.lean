/-
Decoding bytes that anyone may have sent (3rd/skynet/lualib-src/sproto).

- `decode_in_bounds`: for types without arrays of integers or booleans, nothing is read outside of the message.
- `decoded_conforms`: every entry of a table that is decoded is a field of its type, with a value of exactly that field's
  kind, whatever the bytes were, and the decoder counts no more bytes than there are.
- `boolean_array_overread_iff`: the length of an array plus 4 is compared with the bytes that are left in 32 bits, so an
  array of booleans that is a message's only record is read outside of it exactly for the four lengths for which the sum
  is small.
-/
import OwliesServer.Wire.SprotoBuffer

namespace OwliesServer.Sproto

open OwliesServer.CChar OwliesServer.Framing OwliesServer.Lua

/-! ## What is decoded -/

section Exact

variable (exact : ℕ → Value → Prop)

/-- a value of the kind, with nothing left to convert -/
def ExactContent (k : Kind) (v : Value) : Prop :=
  match k with
  | .integer => ∃ x, v = .integer x
  | .boolean => ∃ b, v = .boolean b
  | .string => ∃ s, v = .string s
  | .struct i => exact i v

def ExactField (f : Field) (v : Value) : Prop :=
  match f.shape with
  | .single k => ExactContent exact k v
  | .array k => ∃ vs, v = .table vs [] ∧ ∀ x ∈ vs, ExactContent exact k x
  | .map i _ => ∃ pairs, v = .table [] pairs ∧ ∀ p ∈ pairs, ExactContent exact (.struct i) p.2

/-- every entry is a field of the type -/
def ExactPairs (st : SprotoType) (pairs : List (Value × Value)) : Prop :=
  ∀ p ∈ pairs, ∃ f ∈ st.fields, p.1 = .string f.name ∧ ExactField exact f p.2

end Exact

/-- a table of the type, with structs in one another at most so deep -/
def Exact (scheme : Scheme) : ℕ → SprotoType → Value → Prop
  | 0, _, _ => False
  | levels + 1, st, v =>
    ∃ pairs, v = .table [] pairs ∧ ExactPairs (fun i x => Exact scheme levels (scheme.type i) x) st pairs

/-- an array without a length for each element -/
def Shape.ofNumbers : Shape → Prop
  | .array k => ¬ k.IsObject
  | _ => False

section Decoded

variable {exact : ℕ → Value → Prop} {bad : Stop → Prop}

theorem ExactPairs.set {st : SprotoType} {pairs : List (Value × Value)} (h : ExactPairs exact st pairs) {f : Field}
    (hf : f ∈ st.fields) {v : Value} (hv : ExactField exact f v) :
    ExactPairs exact st (setPair (.string f.name) v pairs) := by
  intro p hp
  rcases mem_setPair hp with hp | ⟨rfl, -⟩
  · exact h p hp
  · exact ⟨f, hf, rfl, hv⟩

/-- a read of bytes that are there -/
theorem readBytes_yields {n : ℕ} {s : Bytes} (h : n ≤ s.length) : Yields bad (readBytes n s) fun b => b = s.take n := by
  rw [readBytes, if_neg (Nat.not_lt.2 h)]
  exact yields_ok rfl

variable {call : Except Stop Unit} {sub : ℕ → Option ℕ → Bytes → Except Stop (Result × ℕ)}
  (hnegative : ¬ bad .negative) (hraise : ∀ e, ¬ bad (.raise e)) (hcall : Yields bad call fun _ => True)
  (hsub : ∀ i mainindex content, Yields bad (sub i mainindex content) fun x => exact i (.table [] x.1.hash))

include hnegative hcall hsub in
theorem decodeContent_yields {k : Kind} (hk : k.IsObject) {cur : Bytes} {length : ℕ} (hin : length ≤ cur.length) :
    Yields bad (decodeContent call sub k cur length) (ExactContent exact k) := by
  refine yields_bind hcall fun _ _ => yields_bind (readBytes_yields hin) fun content _ => ?_
  cases k with
  | integer => exact absurd hk id
  | boolean => exact absurd hk id
  | string => exact yields_ok ⟨content, rfl⟩
  | struct i =>
    refine yields_bind (hsub i none content) fun x hx => ?_
    exact yields_ite (fun _ => yields_ok hx) fun _ => yields_error hnegative

include hnegative in
/-- each element lies in what is left of the array, and that in what is left of the message -/
theorem decodeArrayObject_yields {α : Type} {step : Bytes → ℕ → α → Except Stop α} {Q : α → Prop}
    (hstep : ∀ cur length a, length ≤ cur.length → Q a → Yields bad (step cur length a) Q) (n : ℕ) (stream : Bytes)
    (sz : ℕ) (hin : sz ≤ stream.length) (a : α) (ha : Q a) : Yields bad (decodeArrayObject step n stream sz a) Q := by
  induction n generalizing stream sz a with
  | zero => exact yields_ok ha
  | succ n ih =>
    rw [decodeArrayObject]
    refine yields_ite (fun _ => yields_ok ha) fun _ => yields_ite (fun _ => yields_error hnegative) fun hfour => ?_
    refine yields_bind (readBytes_yields (by omega)) fun hsz _ => ?_
    refine yields_ite (fun _ => yields_error hnegative) fun hlen => ?_
    refine yields_bind (hstep _ _ a ?_ ha) fun a' ha' => ih _ _ ?_ a' ha'
    · rw [List.length_drop]
      omega
    · rw [List.length_drop]
      omega

include hcall in
theorem decodeNumbers_yields {α : Type} (houtside : ¬ bad .outside) (w n : ℕ) (f : Bytes → α) (stream : Bytes) :
    Yields bad (decodeNumbers call w n f stream) fun vs => ∀ v ∈ vs, ∃ b, v = f b := by
  unfold decodeNumbers
  refine yields_ite (fun _ => yields_ok nofun) fun _ => yields_ite (fun _ => yields_error houtside) fun _ =>
    yields_bind hcall fun _ _ => yields_ite (fun _ => yields_error houtside) fun _ => yields_ok ?_
  intro v hv
  obtain ⟨i, -, rfl⟩ := List.mem_map.1 hv
  exact ⟨_, rfl⟩

section Field

variable {st : SprotoType} {f : Field} (hf : f ∈ st.fields) {r : Result} (hr : ExactPairs exact st r.hash)

include hf hr

theorem exactPairs_setArray {k : Kind} (hshape : f.shape = .array k) {vs : List Value}
    (hvs : ∀ v ∈ vs, ExactContent exact k v) : ExactPairs exact st (r.setArray f (.table vs [])).hash := by
  refine hr.set hf ?_
  rw [ExactField, hshape]
  exact ⟨vs, rfl, hvs⟩

include hcall in
theorem decodeIntegers_yields (hshape : f.shape = .array .integer) (houtside : ¬ bad .outside) (w n : ℕ)
    (g : Bytes → BitVec 64) (stream : Bytes) :
    Yields bad (decodeNumbers call w n (fun b => Value.integer (g b)) stream >>= fun vs =>
      .ok (if vs.isEmpty then r else r.setArray f (.table vs []))) fun r => ExactPairs exact st r.hash := by
  refine yields_bind (decodeNumbers_yields hcall houtside w n _ stream) fun vs hvs => yields_ok ?_
  by_cases hempty : vs.isEmpty = true
  · rw [if_pos hempty]
    exact hr
  · rw [if_neg hempty]
    refine exactPairs_setArray hf hr hshape fun v hv => ?_
    obtain ⟨b, rfl⟩ := hvs v hv
    exact ⟨_, rfl⟩

include hnegative hcall hsub in
theorem decodeObjects_yields {k : Kind} (hk : k.IsObject) (hshape : f.shape = .array k) (n : ℕ) {stream : Bytes} {sz : ℕ}
    (hin : sz ≤ stream.length) :
    Yields bad (decodeArrayObject (fun cur length vs => do
        let v ← decodeContent call sub k cur length
        return vs ++ [v]) n stream sz [] >>= fun vs => .ok (r.setArray f (.table vs [])))
      fun r => ExactPairs exact st r.hash := by
  have hstep (cur : Bytes) (length : ℕ) (vs : List Value) (hlength : length ≤ cur.length)
      (hvs : ∀ v ∈ vs, ExactContent exact k v) :
      Yields bad (decodeContent call sub k cur length >>= fun v => .ok (vs ++ [v]))
        fun vs => ∀ v ∈ vs, ExactContent exact k v := by
    refine yields_bind (decodeContent_yields hnegative hcall hsub hk hlength) fun v hv => yields_ok ?_
    intro x hx
    rcases List.mem_append.1 hx with hx | hx
    · exact hvs x hx
    · obtain rfl := List.mem_singleton.1 hx
      exact hv
  have hloop := decodeArrayObject_yields hnegative hstep n stream sz hin [] nofun
  exact yields_bind hloop fun vs hvs => yields_ok (exactPairs_setArray hf hr hshape hvs)

include hnegative hcall hsub in
theorem decodeArray_yields {k : Kind} (hshape : f.shape = .array k) (hnumbers : f.shape.ofNumbers → ¬ bad .outside)
    {cur : Bytes} {sz : ℕ} (hin : ¬ 2 ^ 32 ≤ sz + SIZEOF_LENGTH → sz ≤ cur.length) :
    Yields bad (decodeArray call sub f k cur sz r) fun r => ExactPairs exact st r.hash := by
  unfold decodeArray
  refine yields_ite (fun _ => yields_bind hcall fun _ _ => yields_ok ?_) fun _ => ?_
  · exact exactPairs_setArray hf hr hshape nofun
  cases k with
  | integer =>
    have houtside : ¬ bad .outside := hnumbers (by rw [hshape]; exact id)
    cases cur with
    | nil => exact yields_error houtside
    | cons len stream =>
      refine yields_ite (fun _ => ?_) fun _ => yields_ite (fun _ => ?_) fun _ => yields_error hnegative
      · exact yields_ite (fun _ => yields_error hnegative) fun _ =>
          decodeIntegers_yields hcall hf hr hshape houtside _ _ _ _
      · exact yields_ite (fun _ => yields_error hnegative) fun _ =>
          decodeIntegers_yields hcall hf hr hshape houtside _ _ _ _
  | boolean =>
    have houtside : ¬ bad .outside := hnumbers (by rw [hshape]; exact id)
    refine yields_bind (decodeNumbers_yields hcall houtside 1 sz _ cur) fun vs hvs => yields_ok ?_
    refine exactPairs_setArray hf hr hshape fun v hv => ?_
    obtain ⟨b, rfl⟩ := hvs v hv
    exact ⟨_, rfl⟩
  | string =>
    exact yields_ite (fun _ => yields_ok hr) fun hsmall =>
      decodeObjects_yields (k := .string) hnegative hcall hsub hf hr trivial hshape _ (hin hsmall)
  | struct i =>
    exact yields_ite (fun _ => yields_ok hr) fun hsmall =>
      decodeObjects_yields (k := .struct i) hnegative hcall hsub hf hr trivial hshape _ (hin hsmall)

omit hf hr in
include hnegative hraise hcall hsub in
theorem decodeEntry_yields (name : Bytes) (index key : ℕ) {cur : Bytes} {length : ℕ} (hin : length ≤ cur.length)
    (map : List (Value × Value)) (hmap : ∀ p ∈ map, ExactContent exact (.struct index) p.2) :
    Yields bad (decodeEntry call sub name index key cur length map)
      fun map => ∀ p ∈ map, ExactContent exact (.struct index) p.2 := by
  refine yields_bind hcall fun _ _ => yields_bind (readBytes_yields hin) fun content _ => ?_
  refine yields_bind (hsub index (some key) content) fun x hx => yields_ite (fun _ => yields_error hnegative) fun _ => ?_
  refine yields_ite (fun _ => yields_error (hraise _)) fun _ => yields_ok ?_
  intro p hp
  rcases mem_setPair hp with hp | ⟨rfl, -⟩
  · exact hmap p hp
  · exact hx

include hnegative hraise hcall hsub in
theorem decodeMap_yields {index key : ℕ} (hshape : f.shape = .map index key) {cur : Bytes} {sz : ℕ}
    (hin : ¬ 2 ^ 32 ≤ sz + SIZEOF_LENGTH → sz ≤ cur.length) :
    Yields bad (decodeMap call sub f index key cur sz r) fun r => ExactPairs exact st r.hash := by
  have hset {map : List (Value × Value)} (hmap : ∀ p ∈ map, ExactContent exact (.struct index) p.2) :
      ExactPairs exact st (r.setArray f (.table [] map)).hash := by
    refine hr.set hf ?_
    rw [ExactField, hshape]
    exact ⟨map, rfl, hmap⟩
  unfold decodeMap
  refine yields_ite (fun _ => yields_bind hcall fun _ _ => yields_ok (hset nofun)) fun _ =>
    yields_ite (fun _ => yields_ok hr) fun hsmall => yields_bind ?_ fun map hmap => yields_ok (hset hmap)
  exact decodeArrayObject_yields hnegative (fun cur length map hlength hmap =>
    decodeEntry_yields hnegative hraise hcall hsub f.name index key hlength map hmap) _ _ _ (hin hsmall) [] nofun

theorem exactPairs_setSingle {k : Kind} (hshape : f.shape = .single k) (mainindex : Option ℕ) {v : Value}
    (hv : ExactContent exact k v) : ExactPairs exact st (r.setSingle f mainindex v).hash := by
  refine hr.set hf ?_
  rw [ExactField, hshape]
  exact hv

include hnegative hraise hcall hsub in
theorem decodeData_yields (hnumbers : f.shape.ofNumbers → ¬ bad .outside) (mainindex : Option ℕ) {cur : Bytes} {sz : ℕ}
    (hin : ¬ 2 ^ 32 ≤ sz + SIZEOF_LENGTH → sz ≤ cur.length) :
    Yields bad (decodeData call sub f mainindex cur sz r) fun r => ExactPairs exact st r.hash := by
  have hfour : SIZEOF_LENGTH = 4 := rfl
  unfold decodeData
  cases hshape : f.shape with
  | array k => exact decodeArray_yields hnegative hcall hsub hf hr hshape hnumbers hin
  | map index key => exact decodeMap_yields hnegative hraise hcall hsub hf hr hshape hin
  | single k =>
    cases k with
    | integer =>
      refine yields_ite (fun hsz => ?_) fun _ => yields_ite (fun _ => yields_error hnegative) fun hsz => ?_
      · exact yields_bind (readBytes_yields (by omega)) fun _ _ => yields_bind hcall fun _ _ =>
          yields_ok (exactPairs_setSingle hf hr hshape mainindex ⟨_, rfl⟩)
      · exact yields_bind (readBytes_yields (by omega)) fun _ _ => yields_bind hcall fun _ _ =>
          yields_ok (exactPairs_setSingle hf hr hshape mainindex ⟨_, rfl⟩)
    | boolean => exact yields_error hnegative
    | string =>
      exact yields_ite (fun _ => yields_bind hcall fun _ _ => yields_error (hraise _)) fun hsmall =>
        yields_bind (decodeContent_yields (k := .string) hnegative hcall hsub trivial (hin hsmall)) fun v hv =>
          yields_ok (exactPairs_setSingle hf hr hshape mainindex hv)
    | struct i =>
      exact yields_ite (fun _ => yields_bind hcall fun _ _ => yields_error hnegative) fun hsmall =>
        yields_bind (decodeContent_yields (k := .struct i) hnegative hcall hsub trivial (hin hsmall)) fun v hv =>
          yields_ok (exactPairs_setSingle hf hr hshape mainindex hv)

include hnegative hcall in
theorem decodeInline_yields (mainindex : Option ℕ) (value : ℕ) :
    Yields bad (decodeInline call f mainindex value r) fun r => ExactPairs exact st r.hash := by
  unfold decodeInline
  cases hshape : f.shape with
  | single k =>
    cases k with
    | integer =>
      exact yields_bind hcall fun _ _ => yields_ok (exactPairs_setSingle hf hr hshape mainindex ⟨_, rfl⟩)
    | boolean =>
      exact yields_bind hcall fun _ _ => yields_ok (exactPairs_setSingle hf hr hshape mainindex ⟨_, rfl⟩)
    | _ => exact yields_error hnegative
  | _ => exact yields_error hnegative

end Field

include hnegative hraise hcall hsub in
/-- the bytes that are counted lie in the message -/
theorem decodeRecords_yields {st : SprotoType} (hnumbers : ∀ f ∈ st.fields, f.shape.ofNumbers → ¬ bad .outside)
    (mainindex : Option ℕ) (records : List ℕ) (tag : ℕ) (r : Result) (hr : ExactPairs exact st r.hash) (data : Bytes)
    (used : ℕ) :
    Yields bad (decodeRecords call sub st mainindex records tag r data used)
      fun x => ExactPairs exact st x.1.hash ∧ x.2 ≤ used + data.length := by
  have hfour : SIZEOF_LENGTH = 4 := rfl
  induction records generalizing tag r data used with
  | nil => exact yields_ok ⟨hr, Nat.le_add_right _ _⟩
  | cons value records ih =>
    -- behind the data of a field
    have hdrop (n : ℕ) (hn : n ≤ data.length) (tag : ℕ) (r : Result) (hr : ExactPairs exact st r.hash) :
        Yields bad (decodeRecords call sub st mainindex records tag r (data.drop n) (used + n))
          fun x => ExactPairs exact st x.1.hash ∧ x.2 ≤ used + data.length := by
      obtain ⟨hsound, hanswer⟩ := ih tag r hr (data.drop n) (used + n)
      refine ⟨hsound, fun x hx => ⟨(hanswer x hx).1, ?_⟩⟩
      have hle := (hanswer x hx).2
      rw [List.length_drop] at hle
      omega
    rw [decodeRecords]
    refine yields_ite (fun _ => ih _ r hr data used) fun _ => yields_ite (fun _ => ?_) fun _ => ?_
    · refine yields_ite (fun _ => yields_error hnegative) fun hheader => ?_
      refine yields_bind (readBytes_yields (by omega)) fun sz _ => yields_ite (fun _ => yields_error hnegative) fun hnext => ?_
      cases hfind : findtag st tag with
      | none => exact hdrop _ (Nat.le_of_not_lt hnext) _ r hr
      | some f =>
        obtain ⟨hf, -⟩ := (findtag_eq_some st tag f).1 hfind
        have hin : ¬ 2 ^ 32 ≤ ofLe sz + SIZEOF_LENGTH → ofLe sz ≤ (data.drop SIZEOF_LENGTH).length := by
          rw [List.length_drop]
          omega
        exact yields_bind (decodeData_yields hnegative hraise hcall hsub hf hr (hnumbers f hf) mainindex hin)
          fun r' hr' => hdrop _ (Nat.le_of_not_lt hnext) _ r' hr'
    · cases hfind : findtag st tag with
      | none => exact ih _ r hr data used
      | some f =>
        obtain ⟨hf, -⟩ := (findtag_eq_some st tag f).1 hfind
        exact yields_bind (decodeInline_yields hnegative hcall hf hr mainindex _) fun r' hr' => ih _ r' hr' data used

include hnegative hraise hcall hsub in
theorem decodeType_yields {st : SprotoType} (hnumbers : ∀ f ∈ st.fields, f.shape.ofNumbers → ¬ bad .outside)
    (mainindex : Option ℕ) (s : Bytes) :
    Yields bad (decodeType call sub st mainindex s) fun x => ExactPairs exact st x.1.hash ∧ x.2 ≤ s.length := by
  refine yields_ite (fun _ => yields_error hnegative) fun htwo => ?_
  refine yields_bind (readBytes_yields (by omega)) fun fn _ => yields_ite (fun _ => yields_error hnegative) fun hrecords => ?_
  have hlen : (s.drop 2).length = s.length - 2 := List.length_drop
  refine yields_bind (readBytes_yields (by omega)) fun records _ => ?_
  have hempty : ExactPairs exact st Result.empty.hash := nofun
  obtain ⟨hsound, hanswer⟩ := decodeRecords_yields hnegative hraise hcall hsub hnumbers mainindex
    (recordsOf (ofLe fn) records) 0 .empty hempty (s.drop (2 + ofLe fn * 2)) (2 + ofLe fn * 2)
  refine ⟨hsound, fun x hx => ⟨(hanswer x hx).1, ?_⟩⟩
  have hle := (hanswer x hx).2
  rw [List.length_drop] at hle
  omega

end Decoded

/-! ## Messages -/

theorem yields_table {bad : Stop → Prop} {scheme : Scheme} {levels n : ℕ} {st : SprotoType} {x : Except Stop (Result × ℕ)}
    (h : Yields bad x fun y =>
      ExactPairs (fun i v => Exact scheme levels (scheme.type i) v) st y.1.hash ∧ y.2 ≤ n) :
    Yields bad x fun y => Exact scheme (levels + 1) st (.table [] y.1.hash) ∧ y.2 ≤ n :=
  ⟨h.sound, fun y hy => ⟨⟨_, rfl, (h.answer y hy).1⟩, (h.answer y hy).2⟩⟩

theorem sprotoDecode_yields (bad : Stop → Prop) (hnegative : ¬ bad .negative) (hraise : ∀ e, ¬ bad (.raise e))
    (scheme : Scheme) (hnumbers : ∀ i, ∀ f ∈ (scheme.type i).fields, f.shape.ofNumbers → ¬ bad .outside) (levels : ℕ)
    (st : SprotoType) (hstnumbers : ∀ f ∈ st.fields, f.shape.ofNumbers → ¬ bad .outside) (mainindex : Option ℕ)
    (s : Bytes) :
    Yields bad (sprotoDecode scheme levels st mainindex s)
      fun x => Exact scheme (levels + 1) st (.table [] x.1.hash) ∧ x.2 ≤ s.length := by
  induction levels generalizing st mainindex s with
  | zero =>
    exact yields_table (decodeType_yields hnegative hraise (yields_error (hraise _)) (fun _ _ _ => yields_error (hraise _))
      hstnumbers mainindex s)
  | succ levels ih =>
    refine yields_table (decodeType_yields hnegative hraise (yields_ok trivial) (fun i mainindex content => ?_) hstnumbers
      mainindex s)
    obtain ⟨hsound, hanswer⟩ := ih (scheme.type i) (hnumbers i) mainindex content
    exact ⟨hsound, fun x hx => (hanswer x hx).1⟩

theorem decoded_eq_ok {x : Except Stop (Result × ℕ)} {v : Value} {n : ℕ} (h : decoded x = .ok (v, n)) :
    ∃ r, x = .ok (r, n) ∧ v = .table [] r.hash := by
  rcases x with e | ⟨r, used⟩
  · cases e <;> cases h
  · cases h
    exact ⟨r, rfl, rfl⟩

theorem decoded_eq_outside {x : Except Stop (Result × ℕ)} : decoded x = .error .outside ↔ x = .error .outside := by
  rcases x with e | ⟨r, used⟩
  · cases e <;> simp [decoded]
  · simp [decoded]

/-- **A table that is decoded is one of its type**: each entry is a field of the type, with a value of exactly its kind,
and structs are at most 65 deep. This holds whatever the bytes were, and the decoder counts no more of them than there
are. -/
theorem decoded_conforms (scheme : Scheme) (st : SprotoType) (s : Bytes) (v : Value) (n : ℕ)
    (h : ldecode scheme st s = .ok (v, n)) : Exact scheme (ENCODE_DEEPLEVEL + 1) st v ∧ n ≤ s.length := by
  obtain ⟨r, hdecode, rfl⟩ := decoded_eq_ok h
  split_ifs at hdecode
  have hyields := sprotoDecode_yields (fun _ => False) id (fun _ => id) scheme (fun _ _ _ _ => id)
    ENCODE_DEEPLEVEL st (fun _ _ _ => id) none (s.take (s.length % 2 ^ 32))
  obtain ⟨hexact, hcount⟩ := hyields.answer _ hdecode
  exact ⟨hexact, hcount.trans (List.length_take_le' _ _)⟩

/-- the energy is 20000, and the user_id is missing -/
theorem decoded_conforms_energy :
    ∃ v, ldecode Schemes.server2Client Schemes.loginResponse [2, 0, 1, 0, 0x42, 0x9c] = .ok (v, 6) ∧
      Exact Schemes.server2Client (ENCODE_DEEPLEVEL + 1) Schemes.loginResponse v :=
  ⟨.table [] [(.string (ascii "energy"), .integer 20000)], by rfl,
    (decoded_conforms Schemes.server2Client Schemes.loginResponse [2, 0, 1, 0, 0x42, 0x9c] _ 6 (by rfl)).1⟩

/-- no arrays of integers or booleans -/
def Boxed (st : SprotoType) : Prop := ∀ f ∈ st.fields, ¬ f.shape.ofNumbers

theorem sprotoDecode_ne_outside {scheme : Scheme} (hscheme : ∀ st ∈ scheme, Boxed st) {st : SprotoType} (hboxed : Boxed st)
    (s : Bytes) : sprotoDecode scheme ENCODE_DEEPLEVEL st none s ≠ .error .outside := by
  have hnumbers (i : ℕ) : Boxed (scheme.type i) := scheme_type hscheme nofun i
  have hyields := sprotoDecode_yields (· = .outside) nofun (fun _ => nofun) scheme
    (fun i f hf hnum => absurd hnum (hnumbers i f hf)) ENCODE_DEEPLEVEL st (fun f hf hnum => absurd hnum (hboxed f hf)) none s
  exact fun hout => hyields.sound _ hout rfl

/-- **Nothing is read outside of the message**, whatever its bytes are, for types without arrays of integers or booleans. -/
theorem decode_in_bounds (scheme : Scheme) (hscheme : ∀ st ∈ scheme, Boxed st) (st : SprotoType) (hboxed : Boxed st)
    (s : Bytes) : ldecode scheme st s ≠ .error .outside := by
  rw [ldecode, ne_eq, decoded_eq_outside]
  split_ifs
  · simp
  · exact sprotoDecode_ne_outside hscheme hboxed _

/-- a length of 2^32 - 4 in front of the user_id -/
theorem decode_in_bounds_huge :
    ldecode Schemes.server2Client Schemes.loginResponse [1, 0, 0, 0, 0xfc, 0xff, 0xff, 0xff] ≠ .error .outside :=
  have hboxed : ∀ f ∈ Schemes.loginResponse.fields, ¬ f.shape.ofNumbers := by
    intro f hf
    rcases List.mem_pair.1 hf with rfl | rfl <;> exact id
  decode_in_bounds Schemes.server2Client (fun st h => List.mem_singleton.1 h ▸ hboxed) Schemes.loginResponse hboxed _

/-! ## Lengths that wrap -/

/-- an array of booleans that has its length of bytes, and one that has not -/
theorem decodeBooleans_outside_iff (sub : ℕ → Option ℕ → Bytes → Except Stop (Result × ℕ)) (f : Field)
    (hshape : f.shape = .array .boolean) (rest : Bytes) (len : ℕ) (r : Result) :
    decodeData (.ok ()) sub f none rest len r = .error .outside ↔ rest.length < len := by
  simp only [decodeData, hshape, decodeArray]
  by_cases hzero : len = 0
  · rw [if_pos hzero]
    exact iff_of_false (ok_ne_error _ _) (by omega)
  · rw [if_neg hzero]
    refine (bind_eq_error fun _ => ok_ne_error _ _).trans ?_
    unfold decodeNumbers
    rw [if_neg hzero]
    by_cases hempty : rest.length < 1
    · rw [if_pos hempty]
      exact iff_of_true rfl (by omega)
    · rw [if_neg hempty, ok_bind, Nat.mul_one]
      by_cases hshort : rest.length < len
      · rw [if_pos hshort]
        exact iff_of_true rfl hshort
      · rw [if_neg hshort]
        exact iff_of_false (ok_ne_error _ _) hshort

/-- the length and the data of a field, behind the only record -/
theorem decodeRecords_single (call : Except Stop Unit) (sub : ℕ → Option ℕ → Bytes → Except Stop (Result × ℕ))
    (st : SprotoType) (f : Field) (hfind : findtag st 0 = some f) (len : ℕ) (hlen : len < 2 ^ 32) (rest : Bytes) (used : ℕ) :
    decodeRecords call sub st none [0] 0 .empty (le 4 len ++ rest) used = .error .outside ↔
      (len + SIZEOF_LENGTH) % 2 ^ 32 ≤ 4 + rest.length ∧
        decodeData call sub f none rest len .empty = .error .outside := by
  have hofLe : ofLe (le 4 len) = len := by rw [ofLe_le, Nat.mod_eq_of_lt hlen]
  have hlength : (le 4 len ++ rest).length = 4 + rest.length := by rw [List.length_append, length_le]
  have hread : readBytes SIZEOF_LENGTH (le 4 len ++ rest) = .ok (le 4 len) := readBytes_append (length_le 4 len) rest
  have hrest : (le 4 len ++ rest).drop SIZEOF_LENGTH = rest := List.drop_left' (length_le 4 len)
  rw [decodeRecords, if_neg (by decide), if_pos rfl, hlength, if_neg (by unfold SIZEOF_LENGTH; omega), hread, ok_bind]
  simp only [hofLe, hfind, hrest]
  by_cases hshort : 4 + rest.length < (len + SIZEOF_LENGTH) % 2 ^ 32
  · rw [if_pos hshort]
    exact iff_of_false (by simp) (by omega)
  · rw [if_neg hshort]
    refine (bind_eq_error fun _ => ok_ne_error _ _).trans ?_
    exact (and_iff_right (Nat.le_of_not_lt hshort)).symm

/-- **When an array of booleans is read outside of the message**, if it is the message's only record: exactly if its
length is one of the four for which the length plus 4 wraps in 32 bits. -/
theorem boolean_array_overread_iff (scheme : Scheme) (st : SprotoType) (f : Field) (hf : f ∈ st.fields) (htag : f.tag = 0)
    (hshape : f.shape = .array .boolean) (len : ℕ) (hlen : len < 2 ^ 32) (rest : Bytes) (hrest : rest.length + 8 < 2 ^ 31) :
    ldecode scheme st (le 2 1 ++ le 2 0 ++ le 4 len ++ rest) = .error .outside ↔ 2 ^ 32 - 4 ≤ len := by
  have hfind : findtag st 0 = some f := (findtag_eq_some st 0 f).2 ⟨hf, htag⟩
  have hbooleans := decodeBooleans_outside_iff (fun i m c => sprotoDecode scheme 63 (scheme.type i) m c) f hshape rest
    len .empty
  have hmessage : le 2 1 ++ le 2 0 ++ le 4 len ++ rest = le 2 [0].length ++ [0].flatMap (le 2) ++ le 4 len ++ rest := by simp
  rw [ldecode_of_lt (by simp only [List.length_append, length_le]; omega), decoded_eq_outside, hmessage,
    show ENCODE_DEEPLEVEL = 63 + 1 from rfl, sprotoDecode, decodeType_append _ (by simp) (by decide),
    decodeRecords_single _ _ _ _ hfind _ hlen, hbooleans]
  unfold SIZEOF_LENGTH
  omega

/-- a type with one field, which is an array of booleans -/
def flags : SprotoType where
  fields := [⟨ascii "flags", 0, .array .boolean⟩]
  tag_lt := by decide
  ascending := by decide

/-- eight bytes are enough -/
theorem boolean_array_overread_flags :
    ldecode [flags] flags (le 2 1 ++ le 2 0 ++ le 4 0xfffffffc ++ []) = .error .outside :=
  (boolean_array_overread_iff [flags] flags ⟨ascii "flags", 0, .array .boolean⟩ (List.mem_singleton_self _) rfl rfl
    0xfffffffc (by decide) [] (by decide)).2 (by decide)

end OwliesServer.Sproto
