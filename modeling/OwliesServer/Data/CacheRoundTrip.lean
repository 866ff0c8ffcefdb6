/-
What comes back from the cache: `updateRedis` packs the fields of an object as JSON under its Redis key, and
`loadRedisCache` of an object with the same primary key unpacks them (redis_object.lua, packer.lua).

- `Cjson` is what is assumed of cjson: strings come back as they are, integers as floats that have lost what fourteen
  decimal digits do not hold (`reread`).
- `onRedis` runs a procedure on a Redis that returns the bytes stored.
- `cache_round_trips_iff`: the fields come back with equal values, and leave the object its key, exactly when every
  integer among them survives and none of them is a primary key: a float is concatenated as "7.0".
-/
import OwliesServer.Data.FieldNames

namespace OwliesServer.CacheRoundTrip

open OwliesServer.CChar OwliesServer.LuaNumber OwliesServer.LuaTable OwliesServer.ObjectBase OwliesServer.FieldNames

/-! ## Model -/

/-- a string or a 64-bit integer -/
def Plain : Value → Prop
  | .str _ => True
  | .int n => -2 ^ 63 ≤ n ∧ n < 2 ^ 63
  | _ => False

/-- a value written and read by cjson: every number is a float then -/
def reread : Value → Value
  | .int n => .float (readBack n)
  | .float n => .float (readBack n)
  | v => v

/-- the packer with cjson in it -/
structure Cjson (codec : Codec) extends Packer codec where
  get_unpacked : ∀ t json, pack t = some json → (∀ k v, get t k = some v → Plain v) →
    ∀ k, get (unpacked t) k = (get t k).map reread

/-- an instance whose own fields, `class` and `columns` apart, are strings and 64-bit integers -/
structure RedisObject where
  obj : Obj
  plain : ∀ k v, get (toSproto obj) k = some v → Plain v

/-- no field hides the two methods that `getRedisKey` calls on the instance -/
def Keyable (self : Obj) : Prop :=
  member self (ascii "getTableName") = .method ∧ member self (ascii "getPrimaryKeys") = .method

instance (self : Obj) : Decidable (Keyable self) := by
  unfold Keyable; infer_instance

/-- `getRedisKey`, with these calls -/
def callGetRedisKey (self : Obj) : Option Bytes := if Keyable self then getRedisKey self else none

/-- `loadRedisCache`, with these calls -/
def callLoadRedisCache (codec : Codec) (self : Obj) : ObjectBase.Proc (Option Table) :=
  if Keyable self then loadRedisCache codec self else Proc.raise

abbrev Store := Bytes → Option Bytes

/-- a procedure on a Redis that answers, and gives back the bytes stored; MySQL does not answer -/
def onRedis {α : Type} : ObjectBase.Proc α → Store → Option (α × Store)
  | .ret a, store => some (a, store)
  | .raise, _ => none
  | .call (.redisSet key value) k, store => onRedis (k true) (Function.update store key (some value))
  | .call (.redisGet key) k, store => onRedis (k (RedisReply.value (store key))) store
  | .call (.query _) k, store => onRedis (k DbReply.failed) store

/-- another object of the class with the same primary key -/
structure SamePrimaryKey (o other : Obj) : Prop where
  cls : other.cls = o.cls
  keys : ∀ k ∈ o.cls.primaryKeys, other.index k = o.index k
  keyable : Keyable other

/-- values up to the subtype of numbers -/
def numeric : Value → Value
  | .float n => .int n
  | v => v

/-- The cache gives the object back: every object with its primary key loads a table that has exactly the fields of the
object, with equal values, and copying this table over the object leaves it its key. -/
def RoundTrips (codec : Codec) (self : Obj) (store : Store) : Prop :=
  ∀ other, SamePrimaryKey self other → ∃ t, onRedis (callLoadRedisCache codec other) store = some (some t, store) ∧
    (∀ k, (get t k).map numeric = (get (toSproto self) k).map numeric) ∧
    callGetRedisKey (filled (self, some t)) = callGetRedisKey self

/-! ## Keys -/

theorem getRedisKey_congr {self other : Obj} (hcls : other.cls = self.cls)
    (hkeys : ∀ k ∈ self.cls.primaryKeys, other.index k = self.index k) : getRedisKey other = getRedisKey self := by
  have hfold : ∀ (keys : List Bytes) (acc : Bytes), (∀ k ∈ keys, other.index k = self.index k) →
      (keys.foldlM (fun redisKey v => do
        let value ← concatArg (other.index v)
        some (redisKey ++ value ++ ascii "_")) acc) =
      keys.foldlM (fun redisKey v => do
        let value ← concatArg (self.index v)
        some (redisKey ++ value ++ ascii "_")) acc := by
    intro keys
    induction keys with
    | nil => exact fun _ _ => rfl
    | cons k keys ih =>
      intro acc h
      rw [List.foldlM_cons, List.foldlM_cons, h k List.mem_cons_self]
      exact congrArg _ (funext fun acc' => ih acc' fun k' hk' => h k' (List.mem_cons_of_mem k hk'))
  rw [getRedisKey, getRedisKey, hcls]
  exact congrArg _ (funext fun tableName => hfold _ _ hkeys)

/-- an object with a key: its values concatenate -/
theorem concatArg_of_getRedisKey {self : Obj} {key : Bytes} (h : getRedisKey self = some key) :
    (∃ tableName, self.cls.tableName = some tableName) ∧
      ∀ k ∈ self.cls.primaryKeys, (concatArg (self.index k)).isSome := by
  unfold getRedisKey at h
  cases ht : self.cls.tableName with
  | none => simp [ht] at h
  | some tableName =>
    rw [ht] at h
    refine ⟨⟨tableName, rfl⟩, ?_⟩
    exact (foldlM_isSome (fun k => concatArg (self.index k)) (fun redisKey _ value => redisKey ++ value ++ ascii "_")
      self.cls.primaryKeys (tableName ++ ascii "_")).1 (Option.isSome_iff_exists.2 ⟨key, h⟩)

/-- where an integer has become a float, the texts are told apart at its end -/
theorem flatMap_ne_of_float (keys : List Bytes) (v w : Bytes → Bytes)
    (hall : ∀ k ∈ keys, v k = w k ∨ ∃ n m, v k = ascii (toString (n : ℤ)) ∧ w k = floatText m)
    (hsome : ∃ k ∈ keys, ∃ n m, v k = ascii (toString (n : ℤ)) ∧ w k = floatText m) :
    (keys.flatMap fun k => v k ++ ascii "_") ≠ keys.flatMap fun k => w k ++ ascii "_" := by
  induction keys with
  | nil => simp at hsome
  | cons k keys ih =>
    rw [List.flatMap_cons, List.flatMap_cons]
    by_cases hk : ∃ n m, v k = ascii (toString (n : ℤ)) ∧ w k = floatText m
    · obtain ⟨n, m, hv, hw⟩ := hk
      rw [hv, hw, List.append_assoc (floatText m)]
      exact toString_append_ne_floatText_append n m _ _
    · have hsame : v k = w k := (hall k List.mem_cons_self).resolve_right hk
      have hrest : ∃ k ∈ keys, ∃ n m, v k = ascii (toString (n : ℤ)) ∧ w k = floatText m := by
        obtain ⟨k', hmem, hk'⟩ := hsome
        rcases List.mem_cons.1 hmem with rfl | hmem
        · exact absurd hk' hk
        · exact ⟨k', hmem, hk'⟩
      intro heq
      rw [hsame] at heq
      exact ih (fun k' hk' => hall k' (List.mem_cons_of_mem k hk')) hrest (List.append_cancel_left heq)

/-! ## Storing and loading -/

section Cache

variable {codec : Codec} (cj : Cjson codec) (o : RedisObject)

/-- what a successful `updateRedis` has done -/
theorem updateRedis_succeeds {store store' : Store}
    (h : onRedis (callUpdateRedis cj.pack o.obj) store = some (true, store')) :
    ∃ key json, Keyable o.obj ∧ getRedisKey o.obj = some key ∧ cj.pack (toSproto o.obj) = some json ∧
      store' key = some json := by
  unfold callUpdateRedis at h
  split_ifs at h with hk
  · unfold updateRedis at h
    cases hkey : getRedisKey o.obj with
    | none => simp [hkey] at h; cases h
    | some key =>
      cases hjson : cj.pack (toSproto o.obj) with
      | none => rw [hkey, hjson] at h; cases h
      | some json =>
        rw [hkey, hjson] at h
        have hstore : Function.update store key (some json) = store' := congrArg Prod.snd (Option.some.inj h)
        exact ⟨key, json, hk, rfl, rfl, by rw [← hstore, Function.update_self]⟩
  · cases h

/-- what every object with the same primary key loads then -/
theorem onRedis_loadRedisCache {store : Store} {key json : Bytes} (hkey : getRedisKey o.obj = some key)
    (hjson : cj.pack (toSproto o.obj) = some json) (hstore : store key = some json) {other : Obj}
    (h : SamePrimaryKey o.obj other) :
    onRedis (callLoadRedisCache codec other) store = some (some (cj.unpacked (toSproto o.obj)), store) := by
  rw [callLoadRedisCache, if_pos h.keyable, loadRedisCache, getRedisKey_congr h.cls h.keys, hkey]
  have hunpack := cj.unpack_pack _ _ hjson
  simp only [redisGet, Proc.request, bind, Proc.bind, Proc.ofOption, onRedis, hstore, hunpack, pure]

/-- the integer fields come back as they are -/
def IntegersSurvive (o : RedisObject) : Prop := ∀ k n, get (toSproto o.obj) k = some (.int n) → Survives n

/-- no field that is an integer is a primary key -/
def NoIntegerKey (o : RedisObject) : Prop :=
  ∀ k ∈ o.obj.cls.primaryKeys, ∀ n, get (toSproto o.obj) k ≠ some (.int n)

theorem numeric_reread_eq_iff {v : Value} (h : Plain v) :
    numeric (reread v) = numeric v ↔ ∀ n, v = .int n → Survives n := by
  cases v with
  | str s => simp [reread, numeric]
  | int n => simp [reread, numeric, readBack_eq_iff]
  | _ => exact h.elim

section Loaded

variable {t : Table} (hloaded : ∀ k, get t k = (get (toSproto o.obj) k).map reread)
include hloaded

theorem same_fields_iff :
    (∀ k, (get t k).map numeric = (get (toSproto o.obj) k).map numeric) ↔ IntegersSurvive o := by
  have hone : ∀ k, (get t k).map numeric = (get (toSproto o.obj) k).map numeric ↔
      ∀ n, get (toSproto o.obj) k = some (.int n) → Survives n := by
    intro k
    rw [hloaded k]
    cases hv : get (toSproto o.obj) k with
    | none => simp
    | some v => simpa using numeric_reread_eq_iff (o.plain k v hv)
  exact forall_congr' hone

variable (hnodup : (t.map Prod.fst).Nodup)
include hnodup

theorem index_reloaded (k : Bytes) :
    (filled (o.obj, some t)).index k = ((get (toSproto o.obj) k).map reread).or (o.obj.index k) := by
  rw [← hloaded k]
  exact index_filled o.obj ⟨t, hnodup⟩ k

theorem keyable_reloaded (h : Keyable o.obj) : Keyable (filled (o.obj, some t)) := by
  have hmember : ∀ name ∈ classMethods, member o.obj name = .method →
      member (filled (o.obj, some t)) name = .method := by
    intro name hname hm
    rw [member_eq_method_iff _ hname] at hm ⊢
    rw [index_reloaded o hloaded hnodup, get_toSproto, hm, ite_self]
    rfl
  exact ⟨hmember _ (by simp [classMethods]) h.1, hmember _ (by simp [classMethods]) h.2⟩

/-- what a primary key is after the copy: as before, or an integer that has become a float -/
theorem index_reloaded_cases (k : Bytes) :
    (filled (o.obj, some t)).index k = o.obj.index k ∧ (∀ n, get (toSproto o.obj) k ≠ some (.int n)) ∨
    ∃ n, get (toSproto o.obj) k = some (.int n) ∧ o.obj.index k = some (.int n) ∧
      (filled (o.obj, some t)).index k = some (.float (readBack n)) := by
  have hown := get_toSproto o.obj k
  have hindex := index_reloaded o hloaded hnodup k
  cases hv : get (toSproto o.obj) k with
  | none =>
    rw [hv] at hindex
    exact .inl ⟨hindex, by simp⟩
  | some v =>
    rw [hv] at hindex
    rw [hv] at hown
    split_ifs at hown
    cases v with
    | str s => exact .inl ⟨hindex.trans hown, by simp⟩
    | int n => exact .inr ⟨n, rfl, hown.symm, hindex⟩
    | _ => exact (o.plain k _ hv).elim

theorem same_key_iff {key : Bytes} (hk : Keyable o.obj) (hkey : getRedisKey o.obj = some key) :
    callGetRedisKey (filled (o.obj, some t)) = callGetRedisKey o.obj ↔ NoIntegerKey o := by
  rw [callGetRedisKey, if_pos (keyable_reloaded o hloaded hnodup hk), callGetRedisKey, if_pos hk]
  have hcases := index_reloaded_cases o hloaded hnodup
  apply Iff.intro
  · intro heq k hmem n hint
    obtain ⟨⟨tableName, htable⟩, hconcat⟩ := concatArg_of_getRedisKey hkey
    obtain ⟨-, hconcat'⟩ := concatArg_of_getRedisKey (heq.trans hkey)
    have htext : ∀ x : Option Value, (concatArg x).isSome → concatArg x = some ((concatArg x).getD []) := by
      intro x hx
      obtain ⟨text, htext⟩ := Option.isSome_iff_exists.1 hx
      rw [htext]
      rfl
    rw [getRedisKey_text o.obj tableName _ htable fun k hk => htext _ (hconcat k hk),
      getRedisKey_text (filled (o.obj, some t)) tableName _ htable fun k hk => htext _ (hconcat' k hk),
      Option.some.injEq] at heq
    refine flatMap_ne_of_float o.obj.cls.primaryKeys (fun k => (concatArg (o.obj.index k)).getD [])
      (fun k => (concatArg ((filled (o.obj, some t)).index k)).getD []) ?_ ?_ (List.append_cancel_left heq).symm
    · intro k _
      obtain ⟨hsame, -⟩ | ⟨n, -, hbefore, hafter⟩ := hcases k
      · exact .inl (by rw [hsame])
      · exact .inr ⟨n, readBack n, by rw [hbefore]; rfl, by rw [hafter]; rfl⟩
    · obtain ⟨-, hno⟩ | ⟨n, -, hbefore, hafter⟩ := hcases k
      · exact absurd hint (hno n)
      · exact ⟨k, hmem, n, readBack n, by rw [hbefore]; rfl, by rw [hafter]; rfl⟩
  · intro hno
    refine getRedisKey_congr (show (filled (o.obj, some t)).cls = o.obj.cls from rfl) ?_
    intro k hmem
    obtain ⟨hsame, -⟩ | ⟨n, hint, -⟩ := hcases k
    · exact hsame
    · exact absurd hint (hno k hmem n)

end Loaded

theorem roundTrips_iff {store store' : Store} (h : onRedis (callUpdateRedis cj.pack o.obj) store = some (true, store')) :
    RoundTrips codec o.obj store' ↔ IntegersSurvive o ∧ NoIntegerKey o := by
  obtain ⟨key, json, hk, hkey, hjson, hstore⟩ := updateRedis_succeeds cj o h
  have hload : ∀ other, SamePrimaryKey o.obj other →
      onRedis (callLoadRedisCache codec other) store' = some (some (cj.unpacked (toSproto o.obj)), store') :=
    fun _ hother => onRedis_loadRedisCache cj o hkey hjson hstore hother
  have hloaded := cj.get_unpacked _ _ hjson o.plain
  have hnodup := cj.unpacked_nodup (toSproto o.obj)
  rw [← same_fields_iff o hloaded, ← same_key_iff o hloaded hnodup hk hkey]
  apply Iff.intro
  · intro hround
    have hself : SamePrimaryKey o.obj o.obj := ⟨rfl, fun _ _ => rfl, hk⟩
    obtain ⟨t, ht, hfields, hsame⟩ := hround o.obj hself
    rw [hload _ hself, Option.some.injEq, Prod.mk.injEq, Option.some.injEq] at ht
    rw [ht.1]
    exact ⟨hfields, hsame⟩
  · intro ⟨hfields, hsame⟩ other hother
    exact ⟨_, hload other hother, hfields, hsame⟩

/-- **The cache round-trips an object exactly if its integers survive and are no keys.** After `updateRedis` succeeded,
what the objects with the same primary key load has exactly the object's fields with equal values, and leaves the object
its key, if and only if every integer field is the double nearest to a number of at most fourteen decimal digits, and no
integer field is a primary key. -/
theorem cache_round_trips_iff {store store' : Store}
    (h : onRedis (callUpdateRedis cj.pack o.obj) store = some (true, store')) :
    RoundTrips codec o.obj store' ↔
      (∀ k n, get (toSproto o.obj) k = some (.int n) → Survives n) ∧
      ∀ k ∈ o.obj.cls.primaryKeys, ∀ n, get (toSproto o.obj) k ≠ some (.int n) := roundTrips_iff cj o h

end Cache

/-! ## Runs -/

/-- a cache for one table, under the text cjson writes for it -/
def oneTable (fields : Row) (json : Bytes) : Codec where
  encode _ _ := none
  unpack text := if text = json then some (fields.entries.map fun e => (e.1, reread e.2)) else none

theorem get_map_snd (f : Value → Value) (t : Table) (k : Bytes) :
    get (t.map fun e => (e.1, f e.2)) k = (get t k).map f := by
  induction t with
  | nil => rfl
  | cons e t ih =>
    rw [List.map_cons, get_cons, get_cons, ih]
    split_ifs <;> rfl

def oneTableCjson (fields : Row) (json : Bytes) : Cjson (oneTable fields json) where
  pack t := if t = fields.entries then some json else none
  unpacked _ := fields.entries.map fun e => (e.1, reread e.2)
  unpack_pack t text h := by
    split_ifs at h
    rw [← Option.some.inj h]
    exact if_pos rfl
  unpacked_nodup _ := by
    rw [List.map_map]
    exact fields.nodup
  get_unpacked t text h _ k := by
    split_ifs at h with ht
    rw [ht]
    exact get_map_snd reread fields.entries k

/-- a login response with the given fields -/
def response (fields : Row) (h : ∀ e ∈ fields.entries, Plain e.2) : RedisObject where
  obj := ⟨loginResponseObject, loginResponseObject.allocate.entries ++ fields.entries⟩
  plain k v hv := by
    obtain ⟨hmem, hown⟩ := List.mem_filter.1 (mem_of_get_eq_some hv)
    rcases List.mem_append.1 hmem with hclass | hfield
    · rw [ObjectBase.Class.allocate, List.mem_singleton, Prod.mk.injEq] at hclass
      simp [hclass.1] at hown
    · exact h (k, v) hfield

/-- user 7 with an energy of 10 -/
def energy : RedisObject := response energyRow (by simp [energyRow, Plain])

def energyJson : Bytes := ascii "\x7b\"user_id\":\"7\",\"energy\":10\x7d"

/-- an energy of 10 and a user_id that is a string come back -/
theorem cache_round_trips_energy :
    ∃ store, onRedis (callUpdateRedis (oneTableCjson energyRow energyJson).pack energy.obj) (fun _ => none) =
        some (true, store) ∧ RoundTrips (oneTable energyRow energyJson) energy.obj store := by
  have hfields : toSproto energy.obj = energyRow.entries := by decide +kernel
  refine ⟨_, rfl, (cache_round_trips_iff (oneTableCjson energyRow energyJson) energy rfl).2 ⟨?_, ?_⟩⟩
  · intro k n hn
    rw [hfields] at hn
    obtain ⟨-, hten⟩ : k = ascii "energy" ∧ n = 10 := by simpa [energyRow] using mem_of_get_eq_some hn
    exact survives_of_lt n (by rw [hten]; decide)
  · intro k hk n
    rw [List.mem_singleton.1 hk, hfields]
    simp [energyRow, get_cons]

/-- a user_id that is a number -/
def numberedRow : Row := ⟨[(ascii "user_id", .int 7), (ascii "energy", .int 10)], by decide +kernel⟩

def numbered : RedisObject := response numberedRow (by simp [numberedRow, Plain])

def numberedJson : Bytes := ascii "\x7b\"user_id\":7,\"energy\":10\x7d"

/-- an energy of sixteen digits -/
def richRow : Row := ⟨[(ascii "user_id", .str (ascii "7")), (ascii "energy", .int (10 ^ 15 + 1))], by decide +kernel⟩

def rich : RedisObject := response richRow (by simp [richRow, Plain])

def richJson : Bytes := ascii "\x7b\"user_id\":\"7\",\"energy\":1e+15\x7d"

/-- **A number as key is renamed, and a long one is shortened.** The user 7 comes back as 7.0, which is another key; an
energy of 1000000000000001 comes back as 10^15. -/
theorem numbered_key_renamed_rich_value_cut :
    (∃ store, onRedis (callUpdateRedis (oneTableCjson numberedRow numberedJson).pack numbered.obj) (fun _ => none) =
        some (true, store) ∧ ¬ RoundTrips (oneTable numberedRow numberedJson) numbered.obj store) ∧
    callGetRedisKey numbered.obj = some (ascii "user_energy_7_") ∧
    callGetRedisKey (filled (numbered.obj, some (numberedRow.entries.map fun e => (e.1, reread e.2)))) =
      some (ascii "user_energy_7.0_") ∧
    (∃ store, onRedis (callUpdateRedis (oneTableCjson richRow richJson).pack rich.obj) (fun _ => none) =
        some (true, store) ∧ ¬ RoundTrips (oneTable richRow richJson) rich.obj store) ∧
    readBack (10 ^ 15 + 1) = 10 ^ 15 := by
  refine ⟨⟨_, rfl, ?_⟩, by decide +kernel, by decide +kernel, ⟨_, rfl, ?_⟩, by decide +kernel⟩
  · rw [roundTrips_iff (oneTableCjson numberedRow numberedJson) numbered rfl]
    intro ⟨_, hno⟩
    exact hno (ascii "user_id") (by decide +kernel) 7 (by decide +kernel)
  · rw [roundTrips_iff (oneTableCjson richRow richJson) rich rfl]
    intro ⟨hsurvive, _⟩
    have hback := (readBack_eq_iff _).2 (hsurvive (ascii "energy") (10 ^ 15 + 1) (by decide +kernel))
    exact absurd hback (by decide +kernel)

end OwliesServer.CacheRoundTrip
