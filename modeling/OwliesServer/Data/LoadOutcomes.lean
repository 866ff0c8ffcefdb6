/-
What `RedisObject:initialize` and `loginResponseObject:initialize` make of the outcomes of their two lookups: the cache
may hold what `updateRedis` wrote, hold nothing or fail; MySQL may fail, reject the statement or find any number of rows.

- `Follows`, `LoginFollows`: what the two should do for each pair of outcomes.
- `load_follows_outcome_iff`: they do so exactly if no error message has to be built (it names an undefined global), and
  the login response keeps its user exactly if the loaded values do not bring another one.
-/
import OwliesServer.Data.LoginObjects
import OwliesServer.Data.StatementText

namespace OwliesServer.ObjectBase

open OwliesServer.CChar OwliesServer.LuaTable

/-! ## Outcomes -/

/-- `packer.pack`, and the table that `unpack` makes of what it wrote (numbers come back in cjson's own format) -/
structure Packer (codec : Codec) where
  pack : Table → Option Bytes
  unpacked : Table → Table
  unpack_pack : ∀ t json, pack t = some json → codec.unpack json = some (unpacked t)
  unpacked_nodup : ∀ t, ((unpacked t).map Prod.fst).Nodup

/-- a Lua table has each key once -/
structure Row where
  entries : Table
  nodup : (entries.map Prod.fst).Nodup

/-- outcomes of the cache lookup; `stored`: `updateRedis` wrote the table as this text -/
inductive CacheGet {codec : Codec} (packer : Packer codec) where
  | stored (t : Table) (json : Bytes) (written : packer.pack t = some json)
  | absent
  | failed

/-- outcomes of the SELECT -/
inductive Select where
  | failed
  | rejected
  | rows (rs : List Row)

section Outcomes

variable {codec : Codec} {packer : Packer codec}

def CacheGet.reply : CacheGet packer → RedisReply
  | .stored _ json _ => .value (some json)
  | .absent => .value none
  | .failed => .failed

def Select.reply : Select → DbReply
  | .failed => .failed
  | .rejected => .badresult
  | .rows rs => .rows (rs.map Row.entries)

/-- the replies to one `initialize`: SHOW COLUMNS, the cache, and MySQL if the cache has nothing -/
def replies (columns : List Bytes) (cached : CacheGet packer) (selected : Select) : ℕ → (q : Request) → Reply q
  | 0, .query _ => DbReply.rows (columns.map fun c => [(ascii "Field", .str c)])
  | _, .query _ => selected.reply
  | _, .redisGet _ => cached.reply
  | _, .redisSet _ _ => true

/-- The result of `RedisObject:initialize`, `none` if it raises, follows the outcomes: the cached table on a hit, else
the values of a single row, else nil. -/
def Follows (cached : CacheGet packer) (selected : Select) (result : Option (Option Table)) : Prop :=
  match cached, selected with
  | .stored t _ _, _ => result = some (some (packer.unpacked t))
  | _, .rows [row] => ∃ values, result = some (some values) ∧ ∀ k, get values k = get row.entries k
  | _, _ => result = some none

/-- a hit, or a SELECT that is answered with at most one row or a rejection -/
def NoErrorMessage : CacheGet packer → Select → Prop
  | .stored _ _ _, _ => True
  | _, .failed => False
  | _, .rejected => True
  | _, .rows rs => rs.length ≤ 1

/-- the value loaded for a key -/
def loadedAt (cached : CacheGet packer) (selected : Select) (k : Bytes) : Option Value :=
  match cached, selected with
  | .stored t _ _, _ => get (packer.unpacked t) k
  | _, .rows [row] => get row.entries k
  | _, _ => none

/-- `loginResponseObject:new(userId)` returns an object that has its argument as user_id and, besides what it had before
the loading (its class, columns and user), exactly the loaded entries -/
def LoginFollows (columns : List Bytes) (cached : CacheGet packer) (selected : Select) (userId : Value)
    (result : Option Obj) : Prop :=
  ∃ o, result = some o ∧ o.index (ascii "user_id") = some userId ∧ ∀ k, o.index k =
    (loadedAt cached selected k).or (((allocateResponse (some userId)).set (ascii "columns") (.list columns)).index k)

/-! ## What is loaded -/

/-- SHOW COLUMNS gives the names in its Field entries -/
theorem fieldNames_rows (columns : List Bytes) :
    fieldNames (.rows (columns.map fun c => [(ascii "Field", .str c)])) = some columns := by
  simp [fieldNames, List.filterMap_map, LuaTable.get]

theorem columnsAt_replies (columns : List Bytes) (cached : CacheGet packer) (selected : Select) (tableName : Bytes) :
    columnsAt (replies columns cached selected) 0 tableName = some columns := fieldNames_rows columns

theorem redisAt_replies (columns : List Bytes) (cached : CacheGet packer) (selected : Select) (n : ℕ) (key : Bytes) :
    redisAt (replies columns cached selected) n key = cached.reply := by
  cases n <;> rfl

theorem dbAt_replies (columns : List Bytes) (cached : CacheGet packer) (selected : Select) (n : ℕ) (sql : Bytes) :
    dbAt (replies columns cached selected) (n + 1) sql = selected.reply := rfl

/-- the values of a row, as copied -/
theorem get_copied_row (row : Row) (k : Bytes) : get (copyInto [] row.entries) k = get row.entries k := by
  rw [get_copyInto_of_nodup [] row.entries row.nodup]
  simp [LuaTable.get]

/-- the loaded values: present unless an error message is built, and then as the outcomes say -/
theorem loadedValues_cases (cached : CacheGet packer) (selected : Select) :
    (NoErrorMessage cached selected ∧ ∃ values, loadedValues codec cached.reply selected.reply = some values ∧
      Follows cached selected (some values) ∧ (∀ t, values = some t → (t.map Prod.fst).Nodup) ∧
      ∀ k, values.bind (get · k) = loadedAt cached selected k) ∨
    (¬ NoErrorMessage cached selected ∧ loadedValues codec cached.reply selected.reply = none) := by
  have hmiss : ∀ cached : CacheGet packer, (cached = .absent ∨ cached = .failed) →
      (NoErrorMessage cached selected ∧ ∃ values, singleRow selected.reply = some values ∧
        Follows cached selected (some values) ∧ (∀ t, values = some t → (t.map Prod.fst).Nodup) ∧
        ∀ k, values.bind (get · k) = loadedAt cached selected k) ∨
      (¬ NoErrorMessage cached selected ∧ singleRow selected.reply = none) := by
    intro cached hc
    rcases selected with _ | _ | (_ | ⟨row, _ | ⟨row', rows⟩⟩)
    · rcases hc with rfl | rfl <;> exact .inr ⟨id, rfl⟩
    · rcases hc with rfl | rfl <;> exact .inl ⟨trivial, none, rfl, rfl, by simp, fun _ => rfl⟩
    · rcases hc with rfl | rfl <;> exact .inl ⟨Nat.zero_le 1, none, rfl, rfl, by simp, fun _ => rfl⟩
    · have hnodup : ((copyInto [] row.entries).map Prod.fst).Nodup := nodup_copyInto [] _ (by simp)
      rcases hc with rfl | rfl <;>
        exact .inl ⟨le_rfl, some (copyInto [] row.entries), rfl, ⟨_, rfl, get_copied_row row⟩,
          fun t ht => Option.some.inj ht ▸ hnodup, get_copied_row row⟩
    · rcases hc with rfl | rfl <;> exact .inr ⟨by simp [NoErrorMessage], rfl⟩
  cases cached with
  | stored t json written =>
    refine .inl ⟨trivial, some (packer.unpacked t), ?_, rfl, ?_, fun _ => rfl⟩
    · simp [loadedValues, CacheGet.reply, packer.unpack_pack t json written]
    · intro t' ht'
      exact Option.some.inj ht' ▸ packer.unpacked_nodup t
  | absent => exact hmiss .absent (.inl rfl)
  | failed => exact hmiss .failed (.inr rfl)

/-! ## The two initializers -/

theorem exec_initializeRedis_replies (columns : List Bytes) (cached : CacheGet packer) (selected : Select) (self : Obj)
    (tableName : Bytes) (v : Bytes → Bytes) (ht : self.cls.tableName = some tableName)
    (hc : ascii "columns" ∉ self.cls.primaryKeys)
    (hv : ∀ k ∈ self.cls.primaryKeys, concatArg (self.index k) = some (v k)) :
    ((initializeRedis codec self).exec (replies columns cached selected) 0).map (fun r => r.1.2) =
      loadedValues codec cached.reply selected.reply := by
  have hset : ∀ columns, ∀ k ∈ self.cls.primaryKeys,
      concatArg ((self.set (ascii "columns") (.list columns)).index k) = some (v k) := by
    intro columns k hk
    rw [index_set_columns self columns k (fun he => hc (he ▸ hk)), hv k hk]
  have hexec := exec_initializeRedis (replies columns cached selected) codec self tableName
    (tableName ++ ascii "_" ++ self.cls.primaryKeys.flatMap fun k => v k ++ ascii "_") _ ht 0
    (fun columns => getRedisKey_text (self.set (ascii "columns") (.list columns)) tableName v ht (hset columns))
    (fun columns => selectSql_text tableName self.cls.primaryKeys _ v (hset columns))
  rw [columnsAt_replies, redisAt_replies, dbAt_replies, Option.bind_some] at hexec
  have hsnd := congrArg (Option.map Prod.snd) hexec
  rw [Option.map_map, Option.map_map] at hsnd
  rw [show (fun r : (Obj × Option Table) × ℕ => r.1.2) = Prod.snd ∘ Prod.fst from rfl, hsnd]
  exact Option.map_id'

theorem follows_iff (cached : CacheGet packer) (selected : Select) :
    Follows cached selected (loadedValues codec cached.reply selected.reply) ↔ NoErrorMessage cached selected := by
  rcases loadedValues_cases cached selected with ⟨hok, values, hv, hf, -⟩ | ⟨herr, hnone⟩
  · rw [hv]
    exact iff_of_true hf hok
  · rw [hnone]
    refine iff_of_false ?_ herr
    unfold Follows
    split <;> simp

theorem loginFollows_iff (columns : List Bytes) (cached : CacheGet packer) (selected : Select) (userId : Value)
    (hu : (concatArg (some userId)).isSome) :
    LoginFollows columns cached selected userId
        (((newLoginResponseObject codec (some userId)).exec (replies columns cached selected) 0).map Prod.fst) ↔
      NoErrorMessage cached selected ∧ ∀ w, loadedAt cached selected (ascii "user_id") = some w → w = userId := by
  obtain ⟨uid, huid⟩ := Option.isSome_iff_exists.1 hu
  rw [exec_newLoginResponseObject, columnsAt_replies, huid]
  simp only [Option.bind_some, redisAt_replies, dbAt_replies]
  have hbase := index_allocateResponse (some userId) columns
  rcases loadedValues_cases cached selected with ⟨hok, values, hv, -, hnodup, hat⟩ | ⟨herr, hnone⟩
  · rw [hv, Option.map_some]
    have hindex : ∀ k, (responseObject columns (some userId) values).index k = (loadedAt cached selected k).or
        (((allocateResponse (some userId)).set (ascii "columns") (.list columns)).index k) := by
      intro k
      rw [← hat k]
      cases values with
      | none => simp [responseObject]
      | some t => exact get_copyInto_of_nodup _ t (hnodup t rfl) k
    have huser := hindex (ascii "user_id")
    rw [hbase] at huser
    apply Iff.intro
    · rintro ⟨o, ho, hid, -⟩
      refine ⟨hok, ?_⟩
      intro w hw
      rw [← Option.some.inj ho, huser, hw, Option.some_or] at hid
      exact Option.some.inj hid
    · rintro ⟨-, hsame⟩
      refine ⟨_, rfl, ?_, hindex⟩
      rw [huser]
      cases hw : loadedAt cached selected (ascii "user_id") with
      | none => rfl
      | some w => rw [hsame w hw, Option.some_or]
  · rw [hnone]
    refine iff_of_false ?_ fun h => herr h.1
    rintro ⟨o, ho, -⟩
    cases ho

/-- **Loading follows its outcomes exactly if no error message is built.** For every pair of outcomes and every object
whose primary keys are set, `RedisObject:initialize` does what the outcomes say exactly on a hit, after a rejected
lookup and with at most one row; `loginResponseObject:initialize` moreover needs loaded values that do not bring another
user_id than its argument. -/
theorem load_follows_outcome_iff (codec : Codec) (packer : Packer codec) (columns : List Bytes)
    (cached : CacheGet packer) (selected : Select) :
    (∀ (self : Obj) (tableName : Bytes) (v : Bytes → Bytes), self.cls.tableName = some tableName →
      ascii "columns" ∉ self.cls.primaryKeys → (∀ k ∈ self.cls.primaryKeys, concatArg (self.index k) = some (v k)) →
      (Follows cached selected
          (((initializeRedis codec self).exec (replies columns cached selected) 0).map fun r => r.1.2) ↔
        NoErrorMessage cached selected)) ∧
    ∀ userId, (concatArg (some userId)).isSome →
      (LoginFollows columns cached selected userId
          (((newLoginResponseObject codec (some userId)).exec (replies columns cached selected) 0).map Prod.fst) ↔
        NoErrorMessage cached selected ∧ ∀ w, loadedAt cached selected (ascii "user_id") = some w → w = userId) := by
  refine ⟨?_, loginFollows_iff columns cached selected⟩
  intro self tableName v ht hc hv
  rw [exec_initializeRedis_replies columns cached selected self tableName v ht hc hv]
  exact follows_iff cached selected

end Outcomes

/-! ## Runs -/

/-- the energy of user 7 -/
def energyRow : Row := ⟨[(ascii "user_id", .str (ascii "7")), (ascii "energy", .int 10)], by decide⟩

/-- a cache for this row alone -/
def rowJson : Bytes := ascii "cached"

def rowCodec : Codec := ⟨fun _ _ => none, fun json => if json = rowJson then some energyRow.entries else none⟩

def rowPacker : Packer rowCodec where
  pack t := if t = energyRow.entries then some rowJson else none
  unpacked _ := energyRow.entries
  unpack_pack t json h := by
    split_ifs at h
    rw [← Option.some.inj h]
    rfl
  unpacked_nodup _ := energyRow.nodup

/-- on a miss the row of user 7 is loaded; on a hit the cached one -/
theorem load_follows_energy :
    LoginFollows [ascii "user_id", ascii "energy"] (CacheGet.absent : CacheGet rowPacker) (.rows [energyRow])
        (.str (ascii "7"))
        (((newLoginResponseObject rowCodec (some (.str (ascii "7")))).exec (replies [ascii "user_id", ascii "energy"]
          (CacheGet.absent : CacheGet rowPacker) (.rows [energyRow])) 0).map Prod.fst) ∧
      Follows (CacheGet.stored energyRow.entries rowJson rfl : CacheGet rowPacker) .failed
        (((initializeRedis rowCodec (allocateResponse (some (.str (ascii "7"))))).exec (replies [ascii "user_id"]
          (CacheGet.stored energyRow.entries rowJson rfl : CacheGet rowPacker) .failed) 0).map fun r => r.1.2) := by
  refine ⟨?_, ?_⟩
  · refine ((load_follows_outcome_iff rowCodec rowPacker [ascii "user_id", ascii "energy"] .absent
      (.rows [energyRow])).2 (.str (ascii "7")) rfl).2 ⟨le_rfl, ?_⟩
    intro w hw
    exact (Option.some.inj hw).symm
  · exact ((load_follows_outcome_iff rowCodec rowPacker [ascii "user_id"]
      (.stored energyRow.entries rowJson rfl) .failed).1 (allocateResponse (some (.str (ascii "7"))))
      (ascii "user_energy") (fun _ => ascii "7") rfl (by decide) (by decide)).2 trivial

/-- the row of ann, which MySQL also finds for ANN: the default collation of its character set ignores case -/
def annRow : Row := ⟨[(ascii "user_id", .str (ascii "ann")), (ascii "energy", .int 10)], by decide⟩

/-- **The error messages raise, and a loaded row can rename the user.** After a failed lookup, and with two rows,
`RedisObject:initialize` raises where it should return nil; and the response made for ANN comes out as that of ann. -/
theorem load_raises_and_renames :
    (((initializeRedis rowCodec (allocateResponse (some (.str (ascii "7"))))).exec (replies [ascii "user_id"]
        (CacheGet.absent : CacheGet rowPacker) .failed) 0).map fun r => r.1.2) = none ∧
      (((initializeRedis rowCodec (allocateResponse (some (.str (ascii "7"))))).exec (replies [ascii "user_id"]
        (CacheGet.absent : CacheGet rowPacker) (.rows [energyRow, annRow])) 0).map fun r => r.1.2) = none ∧
      ((((newLoginResponseObject rowCodec (some (.str (ascii "ANN")))).exec (replies [ascii "user_id"]
        (CacheGet.absent : CacheGet rowPacker) (.rows [annRow])) 0).map Prod.fst).bind fun o =>
          o.index (ascii "user_id")) = some (.str (ascii "ann")) :=
  ⟨by decide, by decide, by decide⟩

end OwliesServer.ObjectBase
