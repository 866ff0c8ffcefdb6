/-
The tables of the login messages (content/Client2Server.sproto, content/Server2Client.sproto). Every field of a sproto type
is optional, so a message has an entry for some of the fields.

- `encodes_entries`: a table with entries for some of the fields of a type, where none is an array, is encoded and decoded
  to the same table.
- `length_encoded_response`: the bytes of a login response that is encoded.
-/
import OwliesServer.Wire.SprotoBuffer

namespace OwliesServer.Sproto

open OwliesServer.CChar OwliesServer.Framing OwliesServer.Lua OwliesServer.Schemes

/-! ## Tables with some of the fields -/

/-- the entries for the fields that have a value -/
def entries (value : Field → Option Value) (fields : List Field) : List (Value × Value) :=
  fields.filterMap fun f => (value f).map fun v => (.string f.name, v)

section Entries

variable {value : Field → Option Value} {fields : List Field}

theorem rawEqual_string (a b : Bytes) : rawEqual (.string a) (.string b) = (a == b) := rfl

theorem getPair_entries_of_not_mem {name : Bytes} (h : name ∉ fields.map Field.name) :
    getPair (.string name) (entries value fields) = .nil := by
  induction fields with
  | nil => rfl
  | cons f fields ih =>
    rw [List.map_cons, List.mem_cons, not_or] at h
    rw [entries, List.filterMap_cons]
    cases value f with
    | none => exact ih h.2
    | some v =>
      rw [Option.map_some, getPair, rawEqual_string, if_neg (by simpa using Ne.symm h.1)]
      exact ih h.2

theorem getPair_entries (hnodup : (fields.map Field.name).Nodup) {f : Field} (hf : f ∈ fields) :
    getPair (.string f.name) (entries value fields) = (value f).getD .nil := by
  induction fields with
  | nil => cases hf
  | cons g fields ih =>
    obtain ⟨hg, hnodup⟩ := List.nodup_cons.1 hnodup
    rw [entries, List.filterMap_cons]
    rcases List.mem_cons.1 hf with rfl | hf
    · cases value f with
      | none => exact getPair_entries_of_not_mem hg
      | some v => rw [Option.map_some, getPair, rawEqual_string, if_pos (by simp), Option.getD_some]
    · have hne : g.name ≠ f.name := fun h => hg (h ▸ List.mem_map_of_mem hf)
      cases value g with
      | none => exact ih hnodup hf
      | some v =>
        rw [Option.map_some, getPair, rawEqual_string, if_neg (by simpa using hne)]
        exact ih hnodup hf

/-- the fields that are kept as they are stand in the table in their order -/
theorem keptFields_entries {lua : Conversions} {sub : ℕ → Option ℕ → Value → Result} {t : Value}
    (hnodup : (fields.map Field.name).Nodup) (hget : ∀ f ∈ fields, getField f.name t = (value f).getD .nil)
    (hvalue : ∀ f ∈ fields, ∀ v, value f = some v →
      v.isNil = false ∧ (∃ k, f.shape = .single k) ∧ keptValue lua sub f.shape v = v)
    (r : Result) (hnew : ∀ p ∈ r.hash, ∀ f ∈ fields, rawEqual p.1 (.string f.name) = false) :
    keptFields lua sub none t fields r = ⟨r.hash ++ entries value fields, r.key⟩ := by
  induction fields generalizing r with
  | nil => simp [keptFields, entries]
  | cons f fields ih =>
    obtain ⟨hg, hnodup⟩ := List.nodup_cons.1 hnodup
    obtain ⟨hgetf, hget⟩ := List.forall_mem_cons.1 hget
    obtain ⟨hvaluef, hvalue⟩ := List.forall_mem_cons.1 hvalue
    rw [keptFields, hgetf, entries, List.filterMap_cons]
    cases hv : value f with
    | none => exact ih hnodup hget hvalue r fun p hp g hg => hnew p hp g (List.mem_cons_of_mem _ hg)
    | some v =>
      obtain ⟨hnil, ⟨k, hshape⟩, hkept⟩ := hvaluef v hv
      have hset : setPair (.string f.name) v r.hash = r.hash ++ [(.string f.name, v)] :=
        setPair_new hnil fun p hp => hnew p hp f List.mem_cons_self
      rw [Option.getD_some, if_neg (by simp [hnil]), hkept, Result.set, hshape]
      simp only [Result.setSingle, hset, reduceCtorEq, if_false]
      rw [ih hnodup hget hvalue _ ?_]
      · simp [entries]
      · intro p hp g hgmem
        rcases List.mem_append.1 hp with hp | hp
        · exact hnew p hp g (List.mem_cons_of_mem _ hgmem)
        · obtain rfl := List.mem_singleton.1 hp
          rw [rawEqual_string]
          simpa using fun h : f.name = g.name => hg (h ▸ List.mem_map_of_mem hgmem)

end Entries

/-- a value of the kind, which the encoder takes as it is -/
def Scalar : Kind → Value → Prop
  | .integer, .integer _ => True
  | .boolean, .boolean _ => True
  | .string, .string _ => True
  | _, _ => False

theorem Scalar.not_nil {k : Kind} {v : Value} (h : Scalar k v) : v.isNil = false := by
  cases v with
  | nil => cases k <;> cases h
  | _ => rfl

theorem Scalar.conforms {lua : Conversions} {conforms : ℕ → Value → Prop} {k : Kind} {v : Value} (h : Scalar k v) :
    ConformsContent lua conforms k v := by
  cases k with
  | integer => cases v with
    | integer x => rfl
    | _ => cases h
  | boolean => cases v with
    | boolean b => exact ⟨b, rfl⟩
    | _ => cases h
  | string => cases v with
    | string s => rfl
    | _ => cases h
  | struct i => cases v <;> cases h

theorem Scalar.kept {lua : Conversions} {sub : ℕ → Option ℕ → Value → Result} {k : Kind} {v : Value} (h : Scalar k v) :
    keptContent lua sub k v = v := by
  cases k with
  | integer => cases v with
    | integer x => rfl
    | _ => cases h
  | boolean => rfl
  | string => cases v with
    | string s => rfl
    | _ => cases h
  | struct i => cases v <;> cases h

/-- a type whose fields are single values, with values for some of them -/
structure Flat (st : SprotoType) (value : Field → Option Value) : Prop where
  names : (st.fields.map Field.name).Nodup
  single : ∀ f ∈ st.fields, ∃ k, f.shape = .single k ∧ ∀ v, value f = some v → Scalar k v

section Flat

variable {st : SprotoType} {value : Field → Option Value} (h : Flat st value)
include h

theorem Flat.getField_entries {f : Field} (hf : f ∈ st.fields) :
    getField f.name (.table [] (entries value st.fields)) = (value f).getD .nil := getPair_entries h.names hf

theorem Flat.plain : Plain st := by
  intro f hf harray
  obtain ⟨k, hk, -⟩ := h.single f hf
  rw [hk] at harray
  cases harray

theorem Flat.no_maps : ∀ f ∈ st.fields, f.isMap = false := by
  intro f hf
  obtain ⟨k, hk, -⟩ := h.single f hf
  rw [Field.isMap, hk]

theorem Flat.conforms (lua : Conversions) (scheme : Scheme) (levels : ℕ) :
    Conforms lua scheme (levels + 1) st (.table [] (entries value st.fields)) := by
  intro f hf
  obtain ⟨k, hk, hv⟩ := h.single f hf
  rw [h.getField_entries hf, ConformsField, hk]
  cases hval : value f with
  | none => exact .inl rfl
  | some v => exact .inr (hv v hval).conforms

theorem Flat.need_entries (lua : Conversions) (scheme : Scheme) (levels : ℕ) :
    need lua scheme (levels + 1) st (.table [] (entries value st.fields)) = 2 + st.maxn * 2 + (st.fields.map fun f =>
      needField lua (fun i v => need lua scheme levels (scheme.type i) v) f ((value f).getD .nil)).sum := by
  rw [need, List.map_congr_left fun f hf => by rw [h.getField_entries hf]]

theorem Flat.kept_entries (lua : Conversions) (scheme : Scheme) (levels : ℕ) :
    (kept lua scheme (levels + 1) st none (.table [] (entries value st.fields))).hash = entries value st.fields := by
  rw [kept, keptFields_entries h.names (fun f hf => h.getField_entries hf) ?_ .empty nofun]
  · rfl
  · intro f hf v hv
    obtain ⟨k, hk, hscalar⟩ := h.single f hf
    refine ⟨(hscalar v hv).not_nil, ⟨k, hk⟩, ?_⟩
    rw [hk]
    exact (hscalar v hv).kept

end Flat

/-- the table is encoded if it needs no more than the largest buffer, and decoded to itself -/
theorem encodes_entries (lua : Conversions) {scheme : Scheme} {st : SprotoType} {value : Field → Option Value}
    (hscheme : ∀ st ∈ scheme, Plain st) (hmaps : ∀ st ∈ scheme, ∀ f ∈ st.fields, f.isMap = false) (h : Flat st value)
    (hneed : need lua scheme ENCODE_DEEPLEVEL st (.table [] (entries value st.fields)) ≤ largestBuffer) :
    ∃ bytes, encoded lua scheme st (.table [] (entries value st.fields)) = .ok bytes ∧
      bytes.length ≤ need lua scheme ENCODE_DEEPLEVEL st (.table [] (entries value st.fields)) ∧
      ldecode scheme st bytes = .ok (.table [] (entries value st.fields), bytes.length) := by
  obtain ⟨bytes, hbytes, hlen, hdecode⟩ := encodes_and_decodes hscheme st h.plain (.table [] (entries value st.fields)) rfl
    (h.conforms lua scheme _) (keyed_of_no_maps lua hmaps _ st h.no_maps _) hneed
  have hlargest : largestBuffer < 2 ^ 31 := by decide
  have hkept : (kept lua scheme ENCODE_DEEPLEVEL st none (.table [] (entries value st.fields))).hash =
      entries value st.fields := h.kept_entries lua scheme _
  have hself := hdecode [] (by rw [List.append_nil]; omega)
  rw [List.append_nil, hkept] at hself
  exact ⟨bytes, hbytes, hlen, hself⟩

/-! ## The login messages -/

theorem plain_client2Server : ∀ st ∈ client2Server, Plain st := by
  unfold Plain
  decide

theorem plain_server2Client : ∀ st ∈ server2Client, Plain st := by
  unfold Plain
  decide

/-- the entries of a login response -/
def responseValue (userId : Option Bytes) (energy : Option (BitVec 64)) (f : Field) : Option Value :=
  match f.tag with
  | 0 => userId.map .string
  | _ => energy.map .integer

def responseTable (userId : Option Bytes) (energy : Option (BitVec 64)) : Value :=
  .table [] (entries (responseValue userId energy) loginResponse.fields)

theorem flat_response (userId : Option Bytes) (energy : Option (BitVec 64)) :
    Flat loginResponse (responseValue userId energy) where
  names := by decide
  single f hf := by
    rcases List.mem_pair.1 hf with rfl | rfl
    · refine ⟨.string, rfl, fun v hv => ?_⟩
      obtain ⟨s, -, rfl⟩ := Option.map_eq_some_iff.1 hv
      trivial
    · refine ⟨.integer, rfl, fun v hv => ?_⟩
      obtain ⟨x, -, rfl⟩ := Option.map_eq_some_iff.1 hv
      trivial

/-- the bytes of an integer behind the records -/
def integerData (v : BitVec 64) : ℕ := if fits32 v then if low32 v < 0x7fff then 0 else 8 else 12

/-- the bytes of a login response: the number of the records; for the user's id a record, its length and its bytes; for the
energy a record, behind one that skips the first tag where the id is left out, and its data -/
def responseSize (userId : Option Bytes) (energy : Option (BitVec 64)) : ℕ :=
  match userId, energy with
  | none, none => 2
  | some s, none => 8 + s.length
  | none, some v => 6 + integerData v
  | some s, some v => 10 + s.length + integerData v

theorem length_encodeInteger {v : BitVec 64} {size : ℕ} {x : ℕ × Bytes} (h : encodeInteger v size = .ok x) :
    x.2.length = integerData v := by
  unfold encodeInteger at h
  unfold integerData
  split_ifs at h with hfits hinline hroom hroom
  · cases h
    rw [if_pos hfits, if_pos hinline]
    rfl
  · obtain ⟨data, hdata, h⟩ := bind_eq_ok.1 h
    obtain rfl := writeBytes_ok hdata
    cases h
    rw [if_pos hfits, if_neg hinline, List.length_append, length_le, length_le]
  · obtain ⟨data, hdata, h⟩ := bind_eq_ok.1 h
    obtain rfl := writeBytes_ok hdata
    cases h
    rw [if_neg hfits, List.length_append, length_le, length_le]

section Lengths

variable {lua : Conversions} {enc : ℕ → Value → ℕ → Except Stop Bytes} {f : Field} {t : Value} {size : ℕ}
  {x : Option (ℕ × Bytes)}

theorem length_encodeField_string (hshape : f.shape = .single .string) {s : Option Bytes}
    (hs : getField f.name t = (s.map Value.string).getD .nil) (h : encodeField lua (.ok ()) enc f t size = .ok x) :
    x.map (fun y => y.2.length) = s.map fun s => 4 + s.length := by
  simp only [encodeField, hshape] at h
  have hroom : SIZEOF_LENGTH ≤ size := by
    by_contra hlt
    simp only [encodeSingle, if_pos (Nat.lt_of_not_le hlt)] at h
    cases h
  rw [encodeSingle_object (show Kind.IsObject .string from trivial) f.name t hroom, hs] at h
  split_ifs at h with hnil
  · cases s with
    | none =>
      cases h
      rfl
    | some s => cases hnil
  · cases s with
    | none => exact absurd rfl hnil
    | some s =>
      obtain ⟨content, hcontent, h⟩ := bind_eq_ok.1 h
      cases h
      have htext : lua.toText (.string s) = some s := rfl
      simp only [Option.map_some, Option.getD_some, encodeContent, htext] at hcontent
      split_ifs at hcontent
      obtain rfl := writeBytes_ok hcontent
      rw [Option.map_some, Option.map_some, List.length_append, length_le]

theorem length_encodeField_integer (hshape : f.shape = .single .integer) {v : Option (BitVec 64)}
    (hv : getField f.name t = (v.map Value.integer).getD .nil) (h : encodeField lua (.ok ()) enc f t size = .ok x) :
    x.map (fun y => y.2.length) = v.map integerData := by
  simp only [encodeField, hshape] at h
  rw [encodeSingle, hv] at h
  cases v with
  | none =>
    cases h
    rfl
  | some v =>
    have hcheck : checkInteger lua f.name 0 (.integer v) = .ok v := rfl
    simp only [Option.map_some, Option.getD_some, Value.isNil, hcheck, ok_bind] at h
    obtain ⟨y, hy, h⟩ := bind_eq_ok.1 h
    cases h
    rw [Option.map_some, Option.map_some, length_encodeInteger hy]

theorem encodeFields_cons_ok {maxn : ℕ} {f : Field} {fields : List Field} {w w' : Written}
    (h : encodeFields lua (.ok ()) enc t maxn size (f :: fields) w = .ok w') :
    ∃ x, encodeField lua (.ok ()) enc f t (size - w.data.length) = .ok x ∧
      encodeFields lua (.ok ()) enc t maxn size fields (x.elim w fun y => w.add f.tag y.1 y.2) = .ok w' := by
  rw [encodeFields] at h
  obtain ⟨x, hx, h⟩ := bind_eq_ok.1 h
  refine ⟨x, hx, ?_⟩
  cases x with
  | none => exact h
  | some y =>
    simp only at h
    split_ifs at h
    exact h

end Lengths

theorem length_encoded_response {lua : Conversions} {userId : Option Bytes} {energy : Option (BitVec 64)} {code : Bytes}
    (h : encoded lua server2Client loginResponse (responseTable userId energy) = .ok code) :
    code.length = responseSize userId energy := by
  have hget (f : Field) (hf : f ∈ loginResponse.fields) := (flat_response userId energy).getField_entries hf
  obtain ⟨enc, henc⟩ : ∃ enc, encodeType lua (.ok ()) enc loginResponse (responseTable userId energy) largestBuffer =
      .ok code := by
    rw [encoded, if_pos (by rfl)] at h
    split at h
    · cases h
    · exact ⟨_, h⟩
  unfold encodeType at henc
  split_ifs at henc
  obtain ⟨w, hw, henc⟩ := bind_eq_ok.1 henc
  cases henc
  obtain ⟨x, hx, hw⟩ := encodeFields_cons_ok hw
  obtain ⟨y, hy, hw⟩ := encodeFields_cons_ok hw
  cases hw
  have hlenx : x.map (fun y => y.2.length) = userId.map fun s => 4 + s.length :=
    length_encodeField_string rfl (hget _ List.mem_cons_self) hx
  have hleny : y.map (fun y => y.2.length) = energy.map integerData :=
    length_encodeField_integer rfl (hget _ (List.mem_cons_of_mem _ List.mem_cons_self)) hy
  cases userId with
  | none =>
    obtain rfl := Option.map_eq_none_iff.1 hlenx
    cases energy with
    | none =>
      obtain rfl := Option.map_eq_none_iff.1 hleny
      rfl
    | some v =>
      obtain ⟨y, rfl, hv⟩ := Option.map_eq_some_iff.1 hleny
      simp [responseSize, Written.add, Written.empty, hv]
      omega
  | some s =>
    obtain ⟨x, rfl, hs⟩ := Option.map_eq_some_iff.1 hlenx
    replace hs : x.2.length = 4 + s.length := hs
    cases energy with
    | none =>
      obtain rfl := Option.map_eq_none_iff.1 hleny
      simp [responseSize, Written.add, Written.empty, hs]
      omega
    | some v =>
      obtain ⟨y, rfl, hv⟩ := Option.map_eq_some_iff.1 hleny
      simp [responseSize, Written.add, Written.empty, hs, hv]
      omega

theorem needContent_string (lua : Conversions) (sub : ℕ → Value → ℕ) (s : Option Bytes) :
    needContent lua sub .string ((s.map Value.string).getD .nil) = (s.getD []).length := by
  cases s with
  | none => rfl
  | some s => rfl

theorem need_response (lua : Conversions) (userId : Option Bytes) (energy : Option (BitVec 64)) :
    need lua server2Client ENCODE_DEEPLEVEL loginResponse (responseTable userId energy) =
      22 + (userId.getD []).length := by
  have hmaxn : loginResponse.maxn = 2 := by decide
  refine ((flat_response userId energy).need_entries lua server2Client _).trans ?_
  rw [hmaxn]
  simp only [loginResponse, List.map_cons, List.map_nil, List.sum_cons, List.sum_nil, needField, responseValue,
    needContent_string, SIZEOF_LENGTH]
  omega

theorem need_le_of_responseSize {userId : Option Bytes} {energy : Option (BitVec 64)} {n : ℕ}
    (h : responseSize userId energy ≤ n) : 22 + (userId.getD []).length ≤ n + 20 := by
  cases userId with
  | none =>
    change 22 ≤ n + 20
    cases energy with
    | none =>
      have hsize : 2 ≤ n := h
      omega
    | some v =>
      have hsize : 6 + integerData v ≤ n := h
      omega
  | some s =>
    change 22 + s.length ≤ n + 20
    cases energy with
    | none =>
      have hsize : 8 + s.length ≤ n := h
      omega
    | some v =>
      have hsize : 10 + s.length + integerData v ≤ n := h
      omega

/-- a login response is encoded if the id is not longer than the largest buffer allows, and decoded to its table -/
theorem encodes_response (lua : Conversions) (userId : Option Bytes) (energy : Option (BitVec 64))
    (h : 22 + (userId.getD []).length ≤ largestBuffer) :
    ∃ code, encoded lua server2Client loginResponse (responseTable userId energy) = .ok code ∧
      code.length = responseSize userId energy ∧
      ldecode server2Client loginResponse code = .ok (responseTable userId energy, code.length) := by
  obtain ⟨code, hcode, -, hdecode⟩ := encodes_entries lua plain_server2Client (by decide) (flat_response userId energy)
    ((need_response lua userId energy).trans_le h)
  exact ⟨code, hcode, length_encoded_response hcode, hdecode⟩

end OwliesServer.Sproto
