/-
The Redis keys of `RedisObject:getRedisKey`: the table name and the primary-key values, with "_" after each of them and
nothing escaped.

- `getRedisKey_eq`: the key is the table name, "_" and the terminated values.
- `redis_keys_identify_iff`: which pairs of classes have keys that identify rows, whatever the values are.
-/
import Mathlib.Data.List.Forall2
import OwliesServer.Core.Separated
import OwliesServer.Data.LoginObjects

namespace OwliesServer.RedisKey

open OwliesServer.CChar OwliesServer.LuaTable OwliesServer.ObjectBase OwliesServer.Separated

/-! ## Classes and keyed objects -/

/-- a class derived from RedisObject: it has a table, whose key has no column twice -/
structure RedisClass where
  cls : ObjectBase.Class
  table : Bytes
  hasTable : cls.tableName = some table
  keysNodup : cls.primaryKeys.Nodup

/-- an instance that holds a string for each primary key -/
structure KeyedObject (c : RedisClass) where
  obj : Obj
  values : List Bytes
  ofClass : obj.cls = c.cls
  holds : List.Forall₂ (fun key value => obj.index key = some (.str value)) c.cls.primaryKeys values

def underscore : Byte := 95#8

/-- the keys of `T₁`, with n₁ values, can run into the table name `T₂` with n₂ values -/
def RunsInto (T₁ : Bytes) (n₁ : ℕ) (T₂ : Bytes) (n₂ : ℕ) : Prop :=
  ∃ x, T₂ = T₁ ++ [underscore] ++ x ∧ 1 ≤ n₁ ∧ (1 ≤ n₂ ∨ n₁ ≤ x.count underscore + 1)

/-- one table: one key column in both classes, or none in one of them. Two tables: neither runs into the other. -/
def KeysApart (c₁ c₂ : RedisClass) : Prop :=
  let n₁ := c₁.cls.primaryKeys.length
  let n₂ := c₂.cls.primaryKeys.length
  (c₁.table = c₂.table → n₁ = 0 ∨ n₂ = 0 ∨ n₁ = 1 ∧ n₂ = 1) ∧
    (c₁.table ≠ c₂.table → ¬ RunsInto c₁.table n₁ c₂.table n₂ ∧ ¬ RunsInto c₂.table n₂ c₁.table n₁)

/-! ## The text of a key -/

theorem foldlM_key (o : Obj) (keys values : List Bytes) (acc : Bytes)
    (h : List.Forall₂ (fun key value => o.index key = some (.str value)) keys values) :
    (keys.foldlM (fun redisKey v => do
      let value ← concatArg (o.index v)
      some (redisKey ++ value ++ ascii "_")) acc) = some (acc ++ terminated underscore values) := by
  induction h generalizing acc with
  | nil => simp
  | @cons key value keys values hkey _ ih =>
    have hvalue : concatArg (o.index key) = some value := by rw [hkey]; rfl
    have hnext := ih (acc ++ value ++ [underscore])
    rw [List.foldlM_cons, hvalue, terminated_cons, ← List.append_assoc, ← List.append_assoc]
    exact hnext

theorem getRedisKey_eq (c : RedisClass) (o : KeyedObject c) :
    getRedisKey o.obj = some (c.table ++ [underscore] ++ terminated underscore o.values) := by
  rw [getRedisKey, o.ofClass, c.hasTable]
  exact foldlM_key o.obj _ _ _ o.holds

theorem length_values (c : RedisClass) (o : KeyedObject c) : o.values.length = c.cls.primaryKeys.length :=
  o.holds.length_eq.symm

/-- an instance with the given key values -/
def keyed (c : RedisClass) (values : List Bytes) (h : values.length = c.cls.primaryKeys.length) : KeyedObject c where
  obj := ⟨c.cls, copyInto c.cls.allocate.entries (c.cls.primaryKeys.zip (values.map .str))⟩
  values := values
  ofClass := rfl
  holds := by
    rw [List.forall₂_iff_zip]
    refine ⟨h.symm, ?_⟩
    intro key value hmem
    have hentry : (key, Value.str value) ∈ (c.cls.primaryKeys.zip (values.map Value.str)).reverse := by
      rw [List.mem_reverse, List.zip_map_right, List.mem_map]
      exact ⟨(key, value), hmem, rfl⟩
    have hnodup : ((c.cls.primaryKeys.zip (values.map Value.str)).reverse.map Prod.fst).Nodup := by
      rw [List.map_reverse, List.nodup_reverse, List.map_fst_zip (by simp [h])]
      exact c.keysNodup
    rw [Obj.index, get_copyInto, get_eq_some_of_mem _ hnodup _ _ hentry, Option.some_or]

/-! ## When keys identify rows -/

/-- two keys of different tables are equal only if the longer table name goes on where the other's values begin -/
theorem eq_append_of_key_eq {T₁ T₂ s₁ s₂ : Bytes} (hne : T₁ ≠ T₂) (hlen : T₁.length ≤ T₂.length)
    (h : T₁ ++ [underscore] ++ s₁ = T₂ ++ [underscore] ++ s₂) :
    ∃ x, T₂ = T₁ ++ [underscore] ++ x ∧ s₁ = x ++ [underscore] ++ s₂ := by
  rw [List.append_assoc, List.append_assoc] at h
  rcases List.append_eq_append_iff.1 h with ⟨x, hT, hs⟩ | ⟨x, hT, -⟩
  · rcases x with _ | ⟨u, x⟩
    · exact absurd (by simpa using hT.symm) hne
    · rw [List.singleton_append, List.cons_append, List.cons.injEq] at hs
      obtain ⟨rfl, hs⟩ := hs
      exact ⟨x, by simp [hT], by simp [hs]⟩
  · have hx : x = [] := by
      have hT' := congrArg List.length hT
      rw [List.length_append] at hT'
      exact List.length_eq_zero_iff.1 (by omega)
    exact absurd (by simpa [hx] using hT) hne

/-- two tables: some keys are equal exactly if one of the tables runs into the other -/
theorem keys_meet_iff (c₁ c₂ : RedisClass) (hne : c₁.table ≠ c₂.table) (hlen : c₁.table.length ≤ c₂.table.length) :
    (∃ (o₁ : KeyedObject c₁) (o₂ : KeyedObject c₂), getRedisKey o₁.obj = getRedisKey o₂.obj) ↔
      RunsInto c₁.table c₁.cls.primaryKeys.length c₂.table c₂.cls.primaryKeys.length := by
  apply Iff.intro
  · rintro ⟨o₁, o₂, heq⟩
    rw [getRedisKey_eq, getRedisKey_eq, Option.some.injEq] at heq
    obtain ⟨x, hT, hs⟩ := eq_append_of_key_eq hne hlen heq
    have hmeet := (terminated_meets_iff underscore x _ _).1
      ⟨o₁.values, o₂.values, length_values c₁ o₁, length_values c₂ o₂, hs⟩
    exact ⟨x, hT, hmeet⟩
  · rintro ⟨x, hT, hmeet⟩
    obtain ⟨ws, ws', hws, hws', hs⟩ := (terminated_meets_iff underscore x _ _).2 hmeet
    refine ⟨keyed c₁ ws hws, keyed c₂ ws' hws', ?_⟩
    rw [getRedisKey_eq, getRedisKey_eq, hT, Option.some.injEq]
    change _ ++ terminated underscore ws = _ ++ terminated underscore ws'
    rw [hs]
    simp

/-- a longer name runs into no shorter one -/
theorem not_runsInto {T₁ T₂ : Bytes} (n₁ n₂ : ℕ) (hlen : T₁.length ≤ T₂.length) : ¬ RunsInto T₂ n₂ T₁ n₁ := by
  rintro ⟨x, hT, -⟩
  rw [hT] at hlen
  simp at hlen

/-- the keys of the two classes identify rows -/
def KeysIdentify (c₁ c₂ : RedisClass) : Prop :=
  ∀ (o₁ : KeyedObject c₁) (o₂ : KeyedObject c₂), getRedisKey o₁.obj = getRedisKey o₂.obj →
    c₁.table = c₂.table ∧ o₁.values = o₂.values

theorem KeysIdentify.symm {c₁ c₂ : RedisClass} (h : KeysIdentify c₁ c₂) : KeysIdentify c₂ c₁ := by
  intro o₂ o₁ heq
  obtain ⟨hT, hv⟩ := h o₁ o₂ heq.symm
  exact ⟨hT.symm, hv.symm⟩

theorem keysIdentify_same (c₁ c₂ : RedisClass) (hT : c₁.table = c₂.table) :
    KeysIdentify c₁ c₂ ↔ Unique underscore c₁.cls.primaryKeys.length c₂.cls.primaryKeys.length := by
  apply Iff.intro
  · intro h ws ws' hm hn heq
    have hkey : getRedisKey (keyed c₁ ws hm).obj = getRedisKey (keyed c₂ ws' hn).obj := by
      rw [getRedisKey_eq, getRedisKey_eq, hT]
      change some (_ ++ terminated underscore ws) = some (_ ++ terminated underscore ws')
      rw [heq]
    exact (h _ _ hkey).2
  · intro h o₁ o₂ heq
    rw [getRedisKey_eq, getRedisKey_eq, hT, Option.some.injEq] at heq
    exact ⟨hT, h _ _ (length_values c₁ o₁) (length_values c₂ o₂) (List.append_cancel_left heq)⟩

theorem keysIdentify_other (c₁ c₂ : RedisClass) (hne : c₁.table ≠ c₂.table)
    (hlen : c₁.table.length ≤ c₂.table.length) :
    KeysIdentify c₁ c₂ ↔ ¬ RunsInto c₁.table c₁.cls.primaryKeys.length c₂.table c₂.cls.primaryKeys.length := by
  rw [← keys_meet_iff c₁ c₂ hne hlen]
  apply Iff.intro
  · rintro h ⟨o₁, o₂, heq⟩
    exact hne (h o₁ o₂ heq).1
  · intro h o₁ o₂ heq
    exact absurd ⟨o₁, o₂, heq⟩ h

/-- **When Redis keys identify rows.** For any two classes, equal keys mean the same table and the same key values
exactly if the classes have one table and one key column each (or no key column in one of them), or have two tables of
which neither name runs, after a "_", into the other. -/
theorem redis_keys_identify_iff (c₁ c₂ : RedisClass) :
    (∀ (o₁ : KeyedObject c₁) (o₂ : KeyedObject c₂), getRedisKey o₁.obj = getRedisKey o₂.obj →
      c₁.table = c₂.table ∧ o₁.values = o₂.values) ↔ KeysApart c₁ c₂ := by
  change KeysIdentify c₁ c₂ ↔ KeysApart c₁ c₂
  by_cases hT : c₁.table = c₂.table
  · rw [keysIdentify_same c₁ c₂ hT, terminated_unique_iff]
    simp [KeysApart, hT]
  · rcases Nat.le_total c₁.table.length c₂.table.length with hlen | hlen
    · have hnot := not_runsInto c₁.cls.primaryKeys.length c₂.cls.primaryKeys.length hlen
      rw [keysIdentify_other c₁ c₂ hT hlen]
      simp [KeysApart, hT, hnot]
    · have hnot := not_runsInto c₂.cls.primaryKeys.length c₁.cls.primaryKeys.length hlen
      have hswap : KeysIdentify c₁ c₂ ↔ KeysIdentify c₂ c₁ := ⟨KeysIdentify.symm, KeysIdentify.symm⟩
      rw [hswap, keysIdentify_other c₂ c₁ (Ne.symm hT) hlen]
      simp [KeysApart, hT, hnot]

/-! ## Two collisions -/

/-- a class with the given table and keys -/
def redisClass (table : Bytes) (keys : List Bytes) (h : keys.Nodup) : RedisClass where
  cls := ⟨table, some table, keys, table⟩
  table := table
  hasTable := rfl
  keysNodup := h

/-- two key columns of one table, and the key of "user" that is one of "user_energy" -/
theorem redis_keys_collide :
    (∃ o₁ o₂ : KeyedObject (redisClass (ascii "score") [ascii "user_id", ascii "song"] (by decide)),
      getRedisKey o₁.obj = getRedisKey o₂.obj ∧ o₁.values = [ascii "a_b", ascii "c"] ∧
        o₂.values = [ascii "a", ascii "b_c"] ∧ o₁.values ≠ o₂.values) ∧
    (∃ (o₁ : KeyedObject (redisClass (ascii "user") [ascii "user_id"] (by decide)))
      (o₂ : KeyedObject ⟨loginResponseObject, ascii "user_energy", rfl, by decide⟩),
      getRedisKey o₁.obj = getRedisKey o₂.obj ∧ o₁.values = [ascii "energy_7"] ∧ o₂.values = [ascii "7"]) := by
  refine ⟨⟨keyed _ [ascii "a_b", ascii "c"] rfl, keyed _ [ascii "a", ascii "b_c"] rfl, ?_, rfl, rfl, by decide⟩,
    ⟨keyed _ [ascii "energy_7"] rfl, keyed _ [ascii "7"] rfl, ?_, rfl, rfl⟩⟩
  · rw [getRedisKey_eq, getRedisKey_eq]
    decide
  · rw [getRedisKey_eq, getRedisKey_eq]
    decide

end OwliesServer.RedisKey
