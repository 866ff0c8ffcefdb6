/-
`skynet.unpack` gives back what `skynet.pack` was given (3rd/skynet/lualib-src/lua-seri.c).

Well-formed values are those a Lua program can build: the pairs of a table have distinct keys that are not nil, not NaN,
no double with an integer value and outside the array part, and no value that is nil. Each part of a value is shown to be
taken off the stream exactly, whatever follows it.

- `unpack_pack`: what is packed is unpacked to the same values.
- `unpack_wellFormed`: on any bytes the reader ends, with well-formed values or with one of the code's errors.
-/
import OwliesServer.Skynet.Seri

namespace OwliesServer.Seri

open OwliesServer.CChar OwliesServer.Framing OwliesServer.Lua

/-! ## Well-formed values -/

/-- a value of a supported type, as Lua builds it -/
inductive WellFormed : Value → Prop
  | nil : WellFormed .nil
  | boolean (b : Bool) : WellFormed (.boolean b)
  | integer (v : BitVec 64) : WellFormed (.integer v)
  | real (bits : BitVec 64) : WellFormed (.real bits)
  | userdata (p : BitVec 64) : WellFormed (.userdata p)
  | string {s : Bytes} (h : s.length < 2 ^ 31) : WellFormed (.string s)
  | table {array : List Value} {hash : List (Value × Value)} (hsize : array.length < 2 ^ 31)
    (harray : ∀ v ∈ array, WellFormed v) (hkeys : ∀ p ∈ hash, WellFormed p.1) (hvalues : ∀ p ∈ hash, WellFormed p.2)
    (hkey : ∀ p ∈ hash, Key array.length p.1) (hvalue : ∀ p ∈ hash, p.2.isNil = false) (hdistinct : Distinct hash) :
    WellFormed (.table array hash)

/-! ## What is taken for what -/

theorem type_combine : ∀ t < 8, ∀ c < 32, ofLe [combineType t c] % 8 = t ∧ ofLe [combineType t c] / 8 = c := by
  decide +kernel

theorem takes_unpackOne {budget t c : ℕ} {s : Bytes} {v : Value} (ht : t < 8) (hc : c < 32)
    (h : Takes (pushValue (unpackOne budget) budget t c) s v) :
    Takes (unpackOne (budget + 1)) (combineType t c :: s) v := by
  obtain ⟨hmod, hdiv⟩ := type_combine t ht c hc
  refine takes_bind (s := [combineType t c]) (takes_take rfl) ?_
  rw [hmod, hdiv]
  exact h

theorem takes_le {w line : ℕ} (n : ℕ) : Takes (rbRead w line) (le w n) (le w n) := takes_take (length_le w n)

theorem takes_read {α : Type} {w line n : ℕ} {a : α} (f : Bytes → α) (h : f (le w n) = a) :
    Takes (do return f (← rbRead w line)) (le w n) a := by
  rw [← h]
  exact takes_map (takes_le n) f

/-- the value behind the type byte of an integer -/
theorem takes_integer (v : BitVec 64) :
    ∃ cookie s, encodeInteger v = combineType TYPE_NUMBER cookie :: s ∧ cookie < TYPE_NUMBER_REAL ∧
      Takes (getInteger cookie) s v := by
  have hnat := BitVec.toInt_eq_toNat_cond v
  have hlt := v.isLt
  have hlow : BitVec.ofNat 32 (v.toNat % 2 ^ 32) = v.setWidth 32 := by
    apply BitVec.eq_of_toNat_eq
    simp
  unfold encodeInteger
  split_ifs with hzero hqword hneg hbyte hword
  · refine ⟨TYPE_NUMBER_ZERO, [], rfl, by decide, ?_⟩
    rw [hzero]
    exact takes_pure 0
  · refine ⟨TYPE_NUMBER_QWORD, _, rfl, by decide, ?_⟩
    refine takes_read (fun b => BitVec.ofNat 64 (ofLe b)) ?_
    rw [ofLe_le, Nat.mod_eq_of_lt hlt, BitVec.ofNat_toNat, BitVec.setWidth_eq]
  · refine ⟨TYPE_NUMBER_DWORD, _, rfl, by decide, ?_⟩
    refine takes_read (fun b => (BitVec.ofNat 32 (ofLe b)).signExtend 64) ?_
    rw [ofLe_le, Nat.mod_mod, hlow]
    exact (not_not.1 hqword).symm
  · refine ⟨TYPE_NUMBER_BYTE, _, rfl, by decide, ?_⟩
    refine takes_read (fun b => BitVec.ofNat 64 (ofLe b)) ?_
    rw [ofLe_le, Nat.mod_eq_of_lt (by omega), BitVec.ofNat_toNat, BitVec.setWidth_eq]
  · refine ⟨TYPE_NUMBER_WORD, _, rfl, by decide, ?_⟩
    refine takes_read (fun b => BitVec.ofNat 64 (ofLe b)) ?_
    rw [ofLe_le, Nat.mod_eq_of_lt (by omega), BitVec.ofNat_toNat, BitVec.setWidth_eq]
  · refine ⟨TYPE_NUMBER_DWORD, _, rfl, by decide, ?_⟩
    refine takes_read (fun b => (BitVec.ofNat 32 (ofLe b)).signExtend 64) ?_
    rw [ofLe_le, hlow]
    exact (not_not.1 hqword).symm

theorem takes_buffer {s : Bytes} (h : s.length < 2 ^ 31) : Takes (getBuffer s.length) s (.string s) := by
  rw [getBuffer, if_neg (by omega)]
  exact takes_map (takes_take rfl) Value.string

theorem takes_tableSize {n : ℕ} (h : n < 2 ^ 31) :
    ∃ cookie s, encodeHead n = combineType TYPE_TABLE cookie :: s ∧ cookie < 32 ∧ Takes (tableSize cookie) s n := by
  unfold encodeHead
  split_ifs with hlong
  · refine ⟨MAX_COOKIE - 1, _, rfl, by decide, ?_⟩
    obtain ⟨cookie, s, hs, hcookie, htakes⟩ := takes_integer (BitVec.ofNat 64 n)
    obtain ⟨hmod, hdiv⟩ := type_combine TYPE_NUMBER (by decide) cookie (hcookie.trans (by decide))
    rw [hs, tableSize, if_pos rfl]
    refine takes_bind (s := [combineType TYPE_NUMBER cookie]) (takes_take rfl) ?_
    rw [hmod, hdiv, if_neg (by omega)]
    convert takes_map htakes (fun size => (size.setWidth 32).toInt.toNat) using 1
    have hsmall : (BitVec.ofNat 64 n).setWidth 32 = BitVec.ofNat 32 n := by
      apply BitVec.eq_of_toNat_eq
      simp
    rw [hsmall, BitVec.toInt_eq_toNat_cond, BitVec.toNat_ofNat]
    omega
  · refine ⟨n, [], rfl, by simp [MAX_COOKIE] at hlong; omega, ?_⟩
    rw [tableSize, if_neg (by omega)]
    exact takes_pure n

theorem takes_array {one : Unpack Value} {array : List Value} (h : ∀ v ∈ array, Takes one (encode v) v) :
    Takes (unpackArray one array.length) (encodeArray array) array := by
  induction array with
  | nil => exact takes_pure []
  | cons v array ih =>
    obtain ⟨hv, harray⟩ := List.forall_mem_cons.1 h
    rw [encodeArray]
    exact takes_bind hv (takes_map (ih harray) (v :: ·))

theorem rawset_new {array : List Value} {hash : List (Value × Value)} {k v : Value} (hkey : Key array.length k)
    (hv : v.isNil = false) (hk : ∀ p ∈ hash, rawEqual p.1 k = false) :
    rawset array hash k v = pure (array, hash ++ [(k, v)]) := by
  rw [rawset, hkey.norm, hkey.outside, hkey.ne_nan, setPair_new hv hk]
  rfl

/-- the pairs are put behind those that are there already, one by one -/
theorem takes_hash {one : Unpack Value} {array : List Value} (hnil : Takes one [combineType TYPE_NIL 0] .nil)
    (done todo : List (Value × Value)) (budget : ℕ) (hbudget : todo.length < budget)
    (hone : ∀ p ∈ todo, Takes one (encode p.1) p.1 ∧ Takes one (encode p.2) p.2)
    (hkey : ∀ p ∈ todo, Key array.length p.1) (hvalue : ∀ p ∈ todo, p.2.isNil = false)
    (hdistinct : Distinct (done ++ todo)) :
    Takes (unpackHash one budget array done) (encodeHash todo ++ [combineType TYPE_NIL 0])
      (.table array (done ++ todo)) := by
  induction todo generalizing done budget with
  | nil =>
    obtain ⟨budget, rfl⟩ := Nat.exists_eq_add_of_lt hbudget
    rw [encodeHash, List.append_nil]
    exact takes_bind (t := []) hnil (takes_pure _)
  | cons p todo ih =>
    obtain ⟨k, v⟩ := p
    obtain ⟨⟨hk, hv⟩, hone⟩ := List.forall_mem_cons.1 hone
    obtain ⟨hkeyk, hkey⟩ := List.forall_mem_cons.1 hkey
    obtain ⟨hvaluev, hvalue⟩ := List.forall_mem_cons.1 hvalue
    have hnew : ∀ q ∈ done, rawEqual q.1 k = false := fun q hq =>
      (List.pairwise_append.1 hdistinct).2.2 q hq (k, v) List.mem_cons_self
    have happ : done ++ (k, v) :: todo = (done ++ [(k, v)]) ++ todo := by simp
    rw [happ] at hdistinct ⊢
    cases budget with
    | zero => simp at hbudget
    | succ budget =>
      have hrest := ih (done ++ [(k, v)]) budget (by simpa using hbudget) hone hkey hvalue hdistinct
      rw [encodeHash, List.append_assoc, List.append_assoc]
      refine takes_bind hk ?_
      rw [hkeyk.ne_nil]
      refine takes_bind hv ?_
      rw [rawset_new hkeyk hvaluev hnew, pure_bind]
      exact hrest

/-! ## The round trip -/

theorem encodeInteger_pos (v : BitVec 64) : 0 < (encodeInteger v).length := by
  obtain ⟨cookie, s, hs, -⟩ := takes_integer v
  simp [hs]

theorem encode_pos {v : Value} (h : WellFormed v) : 0 < (encode v).length := by
  cases h with
  | integer v => exact encodeInteger_pos v
  | string => rw [encode, encodeString]; split_ifs <;> simp
  | table => simp [encode]
  | _ => simp [encode]

theorem length_encode_le {array : List Value} {v : Value} (h : v ∈ array) :
    (encode v).length ≤ (encodeArray array).length := by
  rw [encodeArray_eq, List.length_flatMap]
  exact List.single_le_sum (by simp) _ (List.mem_map_of_mem h)

theorem encodeHash_eq (hash : List (Value × Value)) :
    encodeHash hash = hash.flatMap fun p => encode p.1 ++ encode p.2 := by
  induction hash with
  | nil => rfl
  | cons p hash ih => rw [encodeHash, ih, List.flatMap_cons]

theorem length_pair_le {hash : List (Value × Value)} {p : Value × Value} (h : p ∈ hash) :
    (encode p.1).length + (encode p.2).length ≤ (encodeHash hash).length := by
  rw [encodeHash_eq, List.length_flatMap, ← List.length_append]
  exact List.single_le_sum (by simp) _ (List.mem_map_of_mem (f := fun p => (encode p.1 ++ encode p.2).length) h)

theorem length_le_encodeHash {hash : List (Value × Value)} (hkeys : ∀ p ∈ hash, WellFormed p.1) :
    hash.length ≤ (encodeHash hash).length := by
  induction hash with
  | nil => exact le_rfl
  | cons p hash ih =>
    obtain ⟨hp, hhash⟩ := List.forall_mem_cons.1 hkeys
    have := encode_pos hp
    have := ih hhash
    simp only [encodeHash, List.length_append, List.length_cons]
    omega

theorem takes_nil (budget : ℕ) : Takes (unpackOne (budget + 1)) [combineType TYPE_NIL 0] .nil :=
  takes_unpackOne (by decide) (by decide) (takes_pure _)

theorem takes_string {s : Bytes} (h : s.length < 2 ^ 31) (budget : ℕ) :
    Takes (unpackOne (budget + 1)) (encodeString s) (.string s) := by
  unfold encodeString
  split_ifs with hshort hlong
  · exact takes_unpackOne (by decide) hshort (takes_buffer h)
  · refine takes_unpackOne (by decide) (by decide) (takes_bind (takes_le s.length) ?_)
    rw [ofLe_le, Nat.mod_eq_of_lt (by omega)]
    exact takes_buffer h
  · refine takes_unpackOne (by decide) (by decide) (takes_bind (takes_le s.length) ?_)
    rw [ofLe_le, Nat.mod_eq_of_lt (by omega)]
    exact takes_buffer h

/-- every well-formed value is taken off the stream, and nothing else -/
theorem takes_encode {v : Value} (h : WellFormed v) (budget : ℕ) (hbudget : (encode v).length ≤ budget) :
    Takes (unpackOne budget) (encode v) v := by
  induction h generalizing budget with
  | nil =>
    obtain ⟨budget, rfl⟩ := Nat.exists_eq_add_of_le' hbudget
    exact takes_nil budget
  | boolean b =>
    obtain ⟨budget, rfl⟩ := Nat.exists_eq_add_of_le' hbudget
    cases b
    · exact takes_unpackOne (by decide) (by decide) (takes_pure _)
    · exact takes_unpackOne (by decide) (by decide) (takes_pure _)
  | integer v =>
    obtain ⟨cookie, s, hs, hcookie, htakes⟩ := takes_integer v
    obtain ⟨budget, rfl⟩ := Nat.exists_eq_add_of_le' ((encodeInteger_pos v).trans_le hbudget)
    rw [encode, hs]
    refine takes_unpackOne (by decide) (hcookie.trans (by decide)) ?_
    change Takes (if cookie = TYPE_NUMBER_REAL then _ else _) s _
    rw [if_neg hcookie.ne]
    exact takes_map htakes Value.integer
  | real bits =>
    obtain ⟨budget, rfl⟩ : ∃ n, budget = n + 1 := Nat.exists_eq_add_of_le' (by simp [encode] at hbudget; omega)
    refine takes_unpackOne (by decide) (by decide) (takes_map (takes_read _ ?_) Value.real)
    rw [ofLe_le, Nat.mod_eq_of_lt bits.isLt, BitVec.ofNat_toNat, BitVec.setWidth_eq]
  | userdata p =>
    obtain ⟨budget, rfl⟩ : ∃ n, budget = n + 1 := Nat.exists_eq_add_of_le' (by simp [encode] at hbudget; omega)
    refine takes_unpackOne (by decide) (by decide) (takes_map (takes_read _ ?_) Value.userdata)
    rw [ofLe_le, Nat.mod_eq_of_lt p.isLt, BitVec.ofNat_toNat, BitVec.setWidth_eq]
  | @string s hs =>
    obtain ⟨budget, rfl⟩ := Nat.exists_eq_add_of_le' ((encode_pos (.string hs)).trans_le hbudget)
    exact takes_string hs budget
  | @table array hash hsize harray hkeys hvalues hkey hvalue hdistinct iharray ihkeys ihvalues =>
    obtain ⟨cookie, s, hs, hcookie, htakes⟩ := takes_tableSize hsize
    have hlen : (encode (.table array hash)).length =
        s.length + (encodeArray array).length + (encodeHash hash).length + 2 := by
      simp only [encode, hs, List.length_append, List.length_cons, List.length_nil]
      omega
    obtain ⟨budget, rfl⟩ : ∃ n, budget = n + 1 := Nat.exists_eq_add_of_le' (by omega)
    have hfew := length_le_encodeHash hkeys
    have htakesArray : Takes (unpackArray (unpackOne budget) array.length) (encodeArray array) array :=
      takes_array fun v hv => iharray v hv budget (by have := length_encode_le hv; omega)
    have hnil : Takes (unpackOne budget) [combineType TYPE_NIL 0] .nil := by
      obtain ⟨budget, rfl⟩ : ∃ n, budget = n + 1 := Nat.exists_eq_add_of_le' (by omega)
      exact takes_nil budget
    have htakesHash := takes_hash hnil [] hash budget (by omega)
      (fun p hp => ⟨ihkeys p hp budget (by have := length_pair_le hp; omega),
        ihvalues p hp budget (by have := length_pair_le hp; omega)⟩) hkey hvalue hdistinct
    rw [encode, hs, List.append_assoc, List.append_assoc]
    exact takes_unpackOne (by decide) hcookie (takes_bind htakes (takes_bind htakesArray htakesHash))

theorem unpackAll_cons (budget : ℕ) (t : Byte) (s : Bytes) : unpackAll (budget + 1) (t :: s) = (do
    let x ← unpackOne (budget + 1) (t :: s)
    let vs ← unpackAll budget x.2
    return x.1 :: vs) := by
  have hone : unpackOne (budget + 1) (t :: s) =
      pushValue (unpackOne budget) budget (t.toNat % 8) (t.toNat / 8) s := by
    rw [unpackOne, bind_run]
    simp [rbRead, take, ofLe]
  rw [hone]
  rfl

theorem unpackAll_encode {vs : List Value} (h : ∀ v ∈ vs, WellFormed v) (budget : ℕ)
    (hbudget : (vs.flatMap encode).length ≤ budget) : unpackAll budget (vs.flatMap encode) = .ok vs := by
  induction vs generalizing budget with
  | nil => cases budget <;> rfl
  | cons v vs ih =>
    obtain ⟨hv, hvs⟩ := List.forall_mem_cons.1 h
    have hpos := encode_pos hv
    rw [List.flatMap_cons, List.length_append] at hbudget
    obtain ⟨budget, rfl⟩ : ∃ n, budget = n + 1 := Nat.exists_eq_add_of_le' (by omega)
    have hone := takes_encode hv (budget + 1) (by omega) (vs.flatMap encode)
    obtain ⟨t, s, hs⟩ := List.exists_cons_of_length_pos (l := encode v ++ vs.flatMap encode)
      (by rw [List.length_append]; omega)
    rw [List.flatMap_cons, hs, unpackAll_cons, ← hs, hone]
    change (do let rest ← unpackAll budget (vs.flatMap encode); return v :: rest) = _
    rw [ih hvs budget (by omega)]
    rfl

theorem WellFormed.small {v : Value} (h : WellFormed v) : Small v := by
  induction h with
  | string hs => exact small_leaf rfl hs
  | table hsize _ _ _ _ _ _ iharray ihkeys ihvalues =>
    exact small_table.2 ⟨hsize, iharray, fun p hp => ⟨ihkeys p hp, ihvalues p hp⟩⟩
  | _ => exact small_leaf rfl (Nat.two_pow_pos 31)

/-- **What is packed is unpacked to the same values**, if it takes less than 2^31 bytes. -/
theorem unpack_pack (args : List Value) (hargs : ∀ v ∈ args, WellFormed v) (hsize : (args.flatMap encode).length < 2 ^ 31)
    (bytes : Bytes) (hpack : pack args = .ok bytes) : unpack bytes = .ok args := by
  have hsmall : ∀ v ∈ args, Small v := fun v hv => (hargs v hv).small
  rw [pack_of_fits hsmall hsize (fits_of_pack hsmall hpack), Except.ok.injEq] at hpack
  rw [← hpack, unpack, toInt_of_lt hsize, Int.toNat_natCast, List.take_length]
  exact unpackAll_encode hargs _ (Nat.le_succ _)

theorem unpack_pack_sampleArgs : ∃ bytes, pack sampleArgs = .ok bytes ∧ unpack bytes = .ok sampleArgs := by
  have hargs : ∀ v ∈ sampleArgs, WellFormed v := by
    refine List.forall_mem_cons.2 ⟨.table (by decide) ?_ ?_ ?_ ?_ ?_ (List.pairwise_singleton _ _),
      List.forall_mem_singleton.2 (.real 0)⟩
    · exact List.forall_mem_singleton.2 (.boolean true)
    · exact List.forall_mem_singleton.2 (.string (by simp [ascii]))
    · exact List.forall_mem_singleton.2 (.integer 300)
    · exact List.forall_mem_singleton.2 ⟨rfl, rfl, rfl, rfl⟩
    · exact List.forall_mem_singleton.2 rfl
  have hsize : (sampleArgs.flatMap encode).length < 2 ^ 31 := by decide
  have hpack := pack_of_fits (fun v hv => (hargs v hv).small) hsize fits_sampleArgs
  exact ⟨_, hpack, unpack_pack sampleArgs hargs hsize _ hpack⟩

/-! ## Any bytes -/

/-- the parts of a table that is being built -/
structure Built (array : List Value) (hash : List (Value × Value)) : Prop where
  size : array.length < 2 ^ 31
  items : ∀ v ∈ array, WellFormed v
  keys : ∀ p ∈ hash, WellFormed p.1
  values : ∀ p ∈ hash, WellFormed p.2
  key : ∀ p ∈ hash, Key array.length p.1
  value : ∀ p ∈ hash, p.2.isNil = false
  distinct : Distinct hash

theorem Built.wellFormed {array : List Value} {hash : List (Value × Value)} (h : Built array hash) :
    WellFormed (.table array hash) :=
  .table h.size h.items h.keys h.values h.key h.value h.distinct

theorem wellFormed_normKey {k : Value} (h : WellFormed k) : WellFormed (normKey k) := by
  cases h with
  | real bits =>
    cases h : realToInteger bits with
    | none => simpa [normKey, h] using WellFormed.real bits
    | some v => simpa [normKey, h] using WellFormed.integer v
  | nil => exact .nil
  | boolean b => exact .boolean b
  | integer v => exact .integer v
  | userdata p => exact .userdata p
  | string h => exact .string h
  | table hsize harray hkeys hvalues hkey hvalue hdistinct =>
    exact .table hsize harray hkeys hvalues hkey hvalue hdistinct

theorem Built.setPair {array : List Value} {hash : List (Value × Value)} {k v : Value} (h : Built array hash)
    (hk : WellFormed k) (hkey : Key array.length k) (hv : WellFormed v) : Built array (setPair k v hash) where
  size := h.size
  items := h.items
  keys := by
    intro p hp
    rcases mem_setPair hp with hp | ⟨rfl, -⟩
    · exact h.keys p hp
    · exact hk
  values := by
    intro p hp
    rcases mem_setPair hp with hp | ⟨rfl, -⟩
    · exact h.values p hp
    · exact hv
  key := by
    intro p hp
    rcases mem_setPair hp with hp | ⟨rfl, -⟩
    · exact h.key p hp
    · exact hkey
  value := by
    intro p hp
    rcases mem_setPair hp with hp | ⟨rfl, hnil⟩
    · exact h.value p hp
    · exact hnil
  distinct := distinct_setPair h.distinct

theorem Built.setArray {array : List Value} {hash : List (Value × Value)} {v : Value} (h : Built array hash) (i : ℕ)
    (hv : WellFormed v) : Built (array.set i v) hash where
  size := by simpa using h.size
  items := by
    intro w hw
    rcases List.mem_or_eq_of_mem_set hw with hw | rfl
    · exact h.items w hw
    · exact hv
  keys := h.keys
  values := h.values
  key := by simpa using h.key
  value := h.value
  distinct := h.distinct

/-- the parser takes at least `k` bytes, answers what `Q` says, and stays within the budget on fewer than `n` bytes -/
abbrev Unpacks (n k : ℕ) {α : Type} (p : Unpack α) (Q : α → Prop) : Prop := Meets .budget n k p Q

section Unpacks

variable {n : ℕ}

theorem unpacks_rbRead (sz line : ℕ) : Unpacks n sz (rbRead sz line) (fun bytes => bytes.length = sz) :=
  meets_take nofun

theorem unpacks_rawset {array : List Value} {hash : List (Value × Value)} {k v : Value} (h : Built array hash)
    (hk : WellFormed k) (hnil : k.isNil = false) (hv : WellFormed v) :
    Unpacks n 0 (rawset array hash k v) (fun t => Built t.1 t.2) := by
  unfold rawset
  split_ifs with harray hnan
  · exact meets_pure (h.setArray _ hv)
  · exact meets_fail nofun
  · refine meets_pure (h.setPair (wellFormed_normKey hk) ?_ hv)
    exact ⟨by rw [isNil_normKey, hnil], normKey_normKey k, by simpa using hnan, by simpa using harray⟩

theorem unpacks_integer (cookie : ℕ) : Unpacks n 0 (getInteger cookie) (fun _ => True) := by
  have hread (sz line : ℕ) (f : Bytes → BitVec 64) : Unpacks n 0 (do return f (← rbRead sz line)) (fun _ => True) :=
    (meets_map (unpacks_rbRead sz line) f fun _ _ => trivial).mono le_rfl (Nat.zero_le _) fun _ h => h
  unfold getInteger
  split_ifs
  · exact meets_pure trivial
  · exact hread _ _ _
  · exact hread _ _ _
  · exact hread _ _ _
  · exact hread _ _ _
  · exact meets_fail nofun

theorem unpacks_buffer (len : ℕ) : Unpacks n 0 (getBuffer len) WellFormed := by
  unfold getBuffer
  split_ifs with hbig
  · exact meets_fail nofun
  · refine (meets_map (unpacks_rbRead len 425) Value.string ?_).mono le_rfl (Nat.zero_le _) fun _ h => h
    intro s hs
    exact .string (by omega)

theorem unpacks_tableSize {cookie : ℕ} (hcookie : cookie < 32) :
    Unpacks n 0 (tableSize cookie) (fun size => size < 2 ^ 31) := by
  unfold tableSize
  split_ifs
  · refine (meets_bind (k := 0) (unpacks_rbRead 1 438) ?_).mono le_rfl (Nat.zero_le _) fun _ h => h
    intro t ht
    split_ifs
    · exact meets_fail nofun
    · refine meets_map (unpacks_integer _) (fun size => (size.setWidth 32).toInt.toNat) ?_
      intro size _
      have := BitVec.toInt_lt (x := size.setWidth 32)
      omega
  · exact meets_pure (by omega)

theorem unpacks_array {one : Unpack Value} (hone : Unpacks n 0 one WellFormed) (size : ℕ) :
    Unpacks n 0 (unpackArray one size) (fun array => array.length = size ∧ ∀ v ∈ array, WellFormed v) := by
  induction size with
  | zero => exact meets_pure ⟨rfl, by simp⟩
  | succ size ih =>
    refine meets_bind hone fun v hv => meets_map ih (v :: ·) ?_
    intro array ⟨hlen, harray⟩
    exact ⟨by simp [hlen], by simpa [hv] using harray⟩

/-- a pair takes a byte at least, so that the loop ends before its budget does -/
theorem unpacks_hash {one : Unpack Value} {budget : ℕ} (hone : Unpacks budget 1 one WellFormed) (array : List Value)
    (hash : List (Value × Value)) (h : Built array hash) :
    Unpacks budget 0 (unpackHash one budget array hash) WellFormed := by
  induction budget generalizing array hash with
  | zero => exact fun s hs => absurd hs (Nat.not_lt_zero _)
  | succ budget ih =>
    have hless : Unpacks budget 1 one WellFormed := hone.mono (Nat.le_succ _) le_rfl fun _ h => h
    refine (meets_bind (k := 0) hone ?_).mono le_rfl (Nat.zero_le _) fun _ h => h
    intro k hk
    split_ifs with hnil
    · exact meets_pure h.wellFormed
    · have hless0 := hless.mono le_rfl (Nat.zero_le 1) fun _ h => h
      refine meets_bind (j := 0) (k := 0) hless0 fun v hv =>
        meets_bind (j := 0) (k := 0) (unpacks_rawset h hk (by simpa using hnil) hv) ?_
      intro t ht
      exact ih hless t.1 t.2 ht

theorem unpacks_pushValue {one : Unpack Value} {budget type cookie : ℕ} (hone : Unpacks budget 1 one WellFormed)
    (hcookie : cookie < 32) : Unpacks budget 0 (pushValue one budget type cookie) WellFormed := by
  have hone0 : Unpacks budget 0 one WellFormed := hone.mono le_rfl (Nat.zero_le 1) fun _ h => h
  have hread (sz line : ℕ) (f : Bytes → BitVec 64) :
      Unpacks budget 0 (do return f (← rbRead sz line)) (fun _ => True) :=
    (meets_map (unpacks_rbRead sz line) f fun _ _ => trivial).mono le_rfl (Nat.zero_le _) fun _ h => h
  have hlong (sz line : ℕ) : Unpacks budget 0 (do getBuffer (ofLe (← rbRead sz line))) WellFormed :=
    (meets_bind (k := 0) (unpacks_rbRead sz line) fun s _ => unpacks_buffer _).mono le_rfl (Nat.zero_le _) fun _ h => h
  unfold pushValue
  split_ifs
  · exact meets_pure .nil
  · exact meets_pure (.boolean _)
  · exact meets_map (hread _ _ _) Value.real fun bits _ => .real bits
  · exact meets_map (unpacks_integer cookie) Value.integer fun v _ => .integer v
  · exact meets_map (hread _ _ _) Value.userdata fun p _ => .userdata p
  · exact unpacks_buffer cookie
  · exact hlong 2 491
  · exact meets_fail nofun
  · exact hlong 4 502
  · refine meets_bind (j := 0) (k := 0) (unpacks_tableSize hcookie) fun size hsize => ?_
    refine meets_bind (j := 0) (k := 0) (unpacks_array hone0 size) fun array ⟨hlen, harray⟩ => ?_
    refine unpacks_hash hone array [] ⟨by omega, harray, ?_, ?_, ?_, ?_, List.Pairwise.nil⟩ <;> simp
  · exact meets_fail nofun

theorem unpacks_one (budget : ℕ) : Unpacks budget 1 (unpackOne budget) WellFormed := by
  induction budget with
  | zero => exact fun s hs => absurd hs (Nat.not_lt_zero _)
  | succ budget ih =>
    refine meets_bind (k := 0) (unpacks_rbRead 1 526) fun t ht => unpacks_pushValue ih ?_
    have := ofLe_lt t
    rw [ht] at this
    omega

end Unpacks

theorem unpackAll_wellFormed (budget : ℕ) (s : Bytes) (hs : s.length < budget) :
    (∀ vs, unpackAll budget s = .ok vs → ∀ v ∈ vs, WellFormed v) ∧ unpackAll budget s ≠ .error .budget := by
  induction budget generalizing s with
  | zero => exact absurd hs (Nat.not_lt_zero _)
  | succ budget ih =>
    cases s with
    | nil =>
      refine ⟨?_, nofun⟩
      intro vs hvs
      cases hvs
      simp
    | cons t s =>
      obtain ⟨hok, hbad⟩ := unpacks_one (budget + 1) (t :: s) hs
      rw [unpackAll_cons]
      cases hone : unpackOne (budget + 1) (t :: s) with
      | error e =>
        rw [hone] at hbad
        exact ⟨nofun, fun h => hbad (congrArg _ (Except.error.inj h))⟩
      | ok x =>
        obtain ⟨hlen, hx⟩ := hok x.1 x.2 hone
        obtain ⟨hrest, hbudget⟩ := ih x.2 (by simp only [List.length_cons] at hlen hs; omega)
        change (∀ vs, (do let vs ← unpackAll budget x.2; return x.1 :: vs) = .ok vs → _) ∧
          (do let vs ← unpackAll budget x.2; return x.1 :: vs) ≠ _
        cases hall : unpackAll budget x.2 with
        | error e =>
          rw [hall] at hbudget
          exact ⟨nofun, fun h => hbudget (congrArg _ (Except.error.inj h))⟩
        | ok vs =>
          refine ⟨?_, nofun⟩
          intro vs' hvs
          cases hvs
          exact List.forall_mem_cons.2 ⟨hx, hrest vs hall⟩

/-- **On any bytes the reader ends, and what it accepts is well formed.** -/
theorem unpack_wellFormed (s : Bytes) :
    unpack s ≠ .error .budget ∧ ∀ vs, unpack s = .ok vs → ∀ v ∈ vs, WellFormed v := by
  have hlen : (s.take (toInt s.length).toNat).length < s.length + 1 := Nat.lt_succ_of_le (List.length_take_le' _ _)
  obtain ⟨hok, hbad⟩ := unpackAll_wellFormed (s.length + 1) (s.take (toInt s.length).toNat) hlen
  exact ⟨hbad, hok⟩

end OwliesServer.Seri
