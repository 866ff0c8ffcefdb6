/-
Fields and members share one table: what the names of a message's fields, or of a row's columns, do to the object they
are copied into (c2s_object_base.lua, s2c_object_base.lua, redis_object.lua).

- `self.name` finds an own entry first and the class's method otherwise (`member`): a field hides the method of its
  name, and calling it raises (`callToSproto`, `callUpdateRedis`).
- `initialize` copies every field, over `class` and `columns` too; the three copy loops leave these two out by name.

`fields_unharmed_iff`: the object built from a message is whole, and its fields come back out of `toSproto` and into the
cache, exactly when none of them has one of the names below.
-/
import OwliesServer.Data.LoadOutcomes
import OwliesServer.Data.OptionalFields

namespace OwliesServer.FieldNames

open OwliesServer.CChar OwliesServer.LuaTable OwliesServer.ObjectBase

/-! ## Members -/

/-- the methods of the class that the object layer calls on an instance -/
def classMethods : List Bytes :=
  [ascii "getTableName", ascii "getPrimaryKeys", ascii "getSprotoName", ascii "insertOnDuplicate", ascii "toSproto"]

/-- what `self.name` finds -/
inductive Member where
  | entry (v : Value)
  | method
  | missing
deriving DecidableEq

def member (self : Obj) (name : Bytes) : Member :=
  match self.index name with
  | some v => .entry v
  | none => if classMethods.contains name then .method else .missing

/-- `toSproto` of both base classes, with its call of `self.getSprotoName` -/
def callToSproto (self : Obj) : Option Table :=
  if member self (ascii "getSprotoName") = .method then some (toSproto self) else none

/-- `updateRedis`, with the calls of `self:getTableName` and `self:getPrimaryKeys` in `getRedisKey` -/
def callUpdateRedis (pack : Table → Option Bytes) (self : Obj) : ObjectBase.Proc Bool :=
  if member self (ascii "getTableName") = .method ∧ member self (ascii "getPrimaryKeys") = .method then
    updateRedis pack self
  else Proc.raise

theorem member_eq_method_iff (self : Obj) {name : Bytes} (h : name ∈ classMethods) :
    member self name = .method ↔ self.index name = none := by
  unfold member
  cases self.index name <;> simp [h]

/-! ## Names -/

/-- the entries every instance has -/
def bookkeeping : List Bytes := [ascii "class", ascii "columns"]

theorem notMem_bookkeeping : ∀ name ∈ classMethods, name ∉ bookkeeping := by decide +kernel

/-- no field has one of the names -/
def Absent (names : List Bytes) (fields : Row) : Prop := ∀ name ∈ names, get fields.entries name = none

theorem absent_append (names names' : List Bytes) (fields : Row) :
    Absent (names ++ names') fields ↔ Absent names fields ∧ Absent names' fields := List.forall_mem_append

/-- the table has every field with its value -/
def Carries (t : Table) (fields : Row) : Prop := ∀ k v, get fields.entries k = some v → get t k = some v

theorem get_toSproto (self : Obj) (k : Bytes) :
    get (toSproto self) k = if k ∈ bookkeeping then none else self.index k := by
  have h := get_filter (fun k => decide (k ≠ ascii "class" ∧ k ≠ ascii "columns")) self.entries k
  rw [toSproto, h, Obj.index]
  by_cases hk : k ∈ bookkeeping
  · rw [if_pos hk, if_neg]
    simp only [bookkeeping, List.mem_cons, List.not_mem_nil, or_false] at hk
    simpa [imp_iff_not_or, not_or] using hk
  · rw [if_neg hk, if_pos]
    simpa [bookkeeping, not_or] using hk

/-- what the copy loops keep of the fields that were copied into an object -/
theorem carries_toSproto_iff (self : Obj) (fields : Row)
    (h : ∀ k v, get fields.entries k = some v → self.index k = some v) :
    Carries (toSproto self) fields ↔ Absent bookkeeping fields := by
  apply Iff.intro
  · intro hcarry name hname
    cases hv : get fields.entries name with
    | none => rfl
    | some v =>
      have := hcarry name v hv
      rw [get_toSproto, if_pos hname] at this
      cases this
  · intro habsent k v hv
    have hk : k ∉ bookkeeping := by
      intro hk
      rw [habsent k hk] at hv
      cases hv
    rw [get_toSproto, if_neg hk]
    exact h k v hv

/-! ## Messages -/

/-- the members of an object with the given fields copied over it -/
theorem index_filled (self : Obj) (fields : Row) (k : Bytes) :
    (filled (self, some fields.entries)).index k = (get fields.entries k).or (self.index k) :=
  get_copyInto_of_nodup _ fields.entries fields.nodup k

theorem c2sObject_eq_filled (cls : ObjectBase.Class) (columns : List Bytes) (fields : Table) :
    c2sObject cls columns fields = filled (cls.allocate.set (ascii "columns") (.list columns), some fields) := rfl

/-- the object keeps its columns and its methods, and `toSproto` gives every field of the message back -/
def Unharmed (cls : ObjectBase.Class) (columns : List Bytes) (msg : Row) : Prop :=
  (c2sObject cls columns msg.entries).columns = some columns ∧
    (∀ name ∈ classMethods, member (c2sObject cls columns msg.entries) name = .method) ∧
    ∃ t, callToSproto (c2sObject cls columns msg.entries) = some t ∧ Carries t msg

theorem unharmed_iff (cls : ObjectBase.Class) (columns : List Bytes) (msg : Row) :
    Unharmed cls columns msg ↔ Absent (bookkeeping ++ classMethods) msg := by
  have hindex : ∀ k, (c2sObject cls columns msg.entries).index k =
      (get msg.entries k).or (get [(ascii "class", .class cls.name), (ascii "columns", .list columns)] k) := by
    intro k
    rw [c2sObject_eq_filled, index_filled]
    rfl
  have hcopied : ∀ k v, get msg.entries k = some v → (c2sObject cls columns msg.entries).index k = some v := by
    intro k v hv
    rw [hindex, hv]
    rfl
  apply Iff.intro
  · intro ⟨_, hmethods, t, ht, hcarry⟩ name hname
    obtain hname | hname := List.mem_append.1 hname
    · unfold callToSproto at ht
      split_ifs at ht
      cases ht
      exact (carries_toSproto_iff _ msg hcopied).1 hcarry name hname
    · have := (member_eq_method_iff _ hname).1 (hmethods name hname)
      rw [hindex, Option.or_eq_none_iff] at this
      exact this.1
  · intro habsent
    have hmethods : ∀ name ∈ classMethods, member (c2sObject cls columns msg.entries) name = .method := by
      intro name hname
      have hown := notMem_bookkeeping name hname
      simp only [bookkeeping, List.mem_cons, List.not_mem_nil, or_false, not_or] at hown
      rw [member_eq_method_iff _ hname, hindex, habsent name (List.mem_append_right _ hname), Option.none_or, get_cons,
        if_neg (Ne.symm hown.1), get_cons, if_neg (Ne.symm hown.2)]
      rfl
    refine ⟨?_, hmethods, toSproto _, if_pos (hmethods _ (by simp [classMethods])), ?_⟩
    · rw [Obj.columns, hindex, habsent (ascii "columns") (by simp [bookkeeping])]
      rfl
    · rw [carries_toSproto_iff _ msg hcopied]
      intro name hname
      exact habsent name (List.mem_append_left _ hname)

/-! ## Rows -/

/-- an instance before its row is copied into it: no method is hidden, and its primary keys can be concatenated -/
structure Instance where
  obj : Obj
  unshadowed : ∀ name ∈ classMethods, obj.index name = none
  tableName : Bytes
  hasTable : obj.cls.tableName = some tableName
  keyed : ∀ k ∈ obj.cls.primaryKeys, (concatArg (obj.index k)).isSome

/-- a row's columns are strings and numbers -/
structure DbRow extends Row where
  plain : ∀ k v, get entries k = some v → (concatArg (some v)).isSome

variable (inst : Instance) (row : DbRow)

/-- the instance with the row's columns -/
def Instance.load : Obj := filled (inst.obj, some row.entries)

theorem index_load (k : Bytes) : (inst.load row).index k = (get row.entries k).or (inst.obj.index k) :=
  index_filled inst.obj row.toRow k

theorem member_load_iff (name : Bytes) (h : name ∈ classMethods) :
    member (inst.load row) name = .method ↔ get row.entries name = none := by
  rw [member_eq_method_iff _ h, index_load, inst.unshadowed name h, Option.or_none]

theorem carries_load_iff : Carries (toSproto (inst.load row)) row.toRow ↔ Absent bookkeeping row.toRow := by
  apply carries_toSproto_iff
  intro k v hv
  rw [index_load, hv]
  rfl

theorem getRedisKey_load : (getRedisKey (inst.load row)).isSome := by
  have hconcat : ∀ k ∈ (inst.load row).cls.primaryKeys,
      concatArg ((inst.load row).index k) = some ((concatArg ((inst.load row).index k)).getD []) := by
    intro k hk
    have hsome : (concatArg ((inst.load row).index k)).isSome := by
      rw [index_load]
      cases hv : get row.entries k with
      | none => exact inst.keyed k hk
      | some v => exact row.plain k v hv
    obtain ⟨text, htext⟩ := Option.isSome_iff_exists.1 hsome
    rw [htext]
    rfl
  rw [getRedisKey_text (inst.load row) inst.tableName _ inst.hasTable hconcat]
  rfl

/-- `toSproto` gives every column of the row back -/
def SprotoKeeps : Prop := ∃ t, callToSproto (inst.load row) = some t ∧ Carries t row.toRow

/-- `updateRedis` packs, whatever the packer, a table with every column of the row, and stores it -/
def RedisKeeps : Prop :=
  ∃ key t, Carries t row.toRow ∧
    ∀ pack json, pack t = some json → callUpdateRedis pack (inst.load row) = redisSet key json

theorem sprotoKeeps_iff :
    SprotoKeeps inst row ↔ Absent (bookkeeping ++ [ascii "getSprotoName"]) row.toRow := by
  have hmember := member_load_iff inst row (ascii "getSprotoName") (by simp [classMethods])
  rw [absent_append, ← carries_load_iff inst row, Absent, List.forall_mem_singleton, ← hmember]
  apply Iff.intro
  · intro ⟨t, ht, hcarry⟩
    unfold callToSproto at ht
    split_ifs at ht with hm
    cases ht
    exact ⟨hcarry, hm⟩
  · intro ⟨hcarry, hm⟩
    exact ⟨_, if_pos hm, hcarry⟩

theorem redisSet_injective {key key' json json' : Bytes} (h : redisSet key json = redisSet key' json') :
    json = json' := by
  unfold redisSet Proc.request at h
  injection h with hq
  injection hq

theorem redisKeeps_iff :
    RedisKeeps inst row ↔ Absent (bookkeeping ++ [ascii "getTableName", ascii "getPrimaryKeys"]) row.toRow := by
  have htable := member_load_iff inst row (ascii "getTableName") (by simp [classMethods])
  have hkeys := member_load_iff inst row (ascii "getPrimaryKeys") (by simp [classMethods])
  rw [absent_append, ← carries_load_iff inst row, Absent, List.forall_mem_cons, List.forall_mem_singleton, ← htable,
    ← hkeys]
  obtain ⟨redisKey, hkey⟩ := Option.isSome_iff_exists.1 (getRedisKey_load inst row)
  have hupdate : ∀ pack json, pack (toSproto (inst.load row)) = some json →
      updateRedis pack (inst.load row) = redisSet redisKey json := by
    intro pack json hpack
    rw [updateRedis, hkey, hpack]
    rfl
  apply Iff.intro
  · intro ⟨key, t, hcarry, hcall⟩
    -- a packer that tells the packed table from every other
    have hcall := hcall (fun t' => some (if t' = toSproto (inst.load row) then [1#8] else [])) _ rfl
    unfold callUpdateRedis at hcall
    by_cases hm : member (inst.load row) (ascii "getTableName") = .method ∧
        member (inst.load row) (ascii "getPrimaryKeys") = .method
    · rw [if_pos hm, hupdate _ _ rfl] at hcall
      have hjson := redisSet_injective hcall
      by_cases ht : t = toSproto (inst.load row)
      · exact ⟨ht ▸ hcarry, hm⟩
      · simp [ht] at hjson
    · rw [if_neg hm] at hcall
      cases hcall
  · intro ⟨hcarry, hm⟩
    refine ⟨redisKey, toSproto (inst.load row), hcarry, ?_⟩
    intro pack json hpack
    rw [callUpdateRedis, if_pos hm, hupdate pack json hpack]

/-- **Fields pass unharmed exactly under other names.** A message's object: none of `class`, `columns` and the five
methods. A row sent to the client: none of `class`, `columns` and `getSprotoName`. A row put into the cache: none of
`class`, `columns`, `getTableName` and `getPrimaryKeys`. -/
theorem fields_unharmed_iff (cls : ObjectBase.Class) (columns : List Bytes) (msg : Row) :
    (Unharmed cls columns msg ↔ Absent (bookkeeping ++ classMethods) msg) ∧
    (SprotoKeeps inst row ↔ Absent (bookkeeping ++ [ascii "getSprotoName"]) row.toRow) ∧
    (RedisKeeps inst row ↔ Absent (bookkeeping ++ [ascii "getTableName", ascii "getPrimaryKeys"]) row.toRow) :=
  ⟨unharmed_iff cls columns msg, sprotoKeeps_iff inst row, redisKeeps_iff inst row⟩

/-- a character message of a game -/
def knight : Row := ⟨[(ascii "user_id", .str (ascii "7")), (ascii "class", .str (ascii "knight"))], by decide +kernel⟩

/-- a field `class` is dropped again by `toSproto`; a field `getTableName` takes the method's place -/
theorem class_field_dropped :
    get (toSproto (c2sObject LoginRequestObject [ascii "user_id"] knight.entries)) (ascii "class") = none ∧
    ¬ Unharmed LoginRequestObject [ascii "user_id"] knight ∧
    member (c2sObject LoginRequestObject [] [(ascii "getTableName", .str [])]) (ascii "getTableName") =
      .entry (.str []) := by
  refine ⟨by decide +kernel, ?_, by decide +kernel⟩
  rw [unharmed_iff]
  intro h
  exact absurd (h (ascii "class") (by simp [bookkeeping])) (by decide +kernel)

end OwliesServer.FieldNames
