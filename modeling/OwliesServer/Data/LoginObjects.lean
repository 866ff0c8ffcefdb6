/-
The two objects of a login (Script/DataTypes): `LoginRequestObject`, a C2sObjectBase filled from the client's message,
and `loginResponseObject`, an S2cObjectBase loaded from the Redis cache or, on a miss, from MySQL.

The sproto encoder and the JSON decoder of the cache are parameters (`Codec`); both may raise.
- `exec_newLoginRequestObject`, `exec_insertOnDuplicate`, `exec_newLoginResponseObject`: what the steps of a login do
  with given replies of the services, and when they raise.
-/
import OwliesServer.Data.ObjectBase

namespace OwliesServer.ObjectBase

open OwliesServer.CChar OwliesServer.LuaTable

/-! ## Model -/

structure Codec where
  /-- `sp:encode` for the named type -/
  encode : Bytes → Table → Option Bytes
  /-- `packer.unpack`, with a result that can be traversed -/
  unpack : Bytes → Option Table

/-- `LoginRequestObject:new(sproto)` -/
def newLoginRequestObject (sproto : Table) : Proc Obj := do
  let self ← initializeColumns LoginRequestObject.allocate
  pure { self with entries := copyInto self.entries sproto }

/-- `toSproto`, of both base classes; the empty record of the scheme is filled in place -/
def toSproto (self : Obj) : Table := self.entries.filter fun e => e.1 ≠ ascii "class" ∧ e.1 ≠ ascii "columns"

def getRedisKey (self : Obj) : Option Bytes := do
  let tableName ← self.cls.tableName
  self.cls.primaryKeys.foldlM (fun redisKey v => do
    let value ← concatArg (self.index v)
    some (redisKey ++ value ++ ascii "_")) (tableName ++ ascii "_")

/-- `loadRedisCache`: the cached values, `none` after a failed call and on a miss -/
def loadRedisCache (codec : Codec) (self : Obj) : Proc (Option Table) := do
  let redisKey ← OwliesServer.Proc.ofOption (getRedisKey self)
  match ← redisGet redisKey with
  | .value (some json) => do
    let valueTable ← OwliesServer.Proc.ofOption (codec.unpack json)
    pure (some valueTable)
  | _ => pure none

/-- `RedisObject:updateRedis`, which caches the same entries that `toSproto` sends; `pack` is `packer.pack` -/
def updateRedis (pack : Table → Option Bytes) (self : Obj) : Proc Bool := do
  let redisKey ← OwliesServer.Proc.ofOption (getRedisKey self)
  let json ← OwliesServer.Proc.ofOption (pack (toSproto self))
  redisSet redisKey json

/-- the values out of the answer to the lookup. After a failed call, and with more than one row, the error message names
the undefined global `redisKey`, and building it raises. Answers that are no rows have length 0. -/
def singleRow : DbReply → Option (Option Table)
  | .failed => none
  | .badresult => some none
  | .executed => some none
  | .rows [] => some none
  | .rows [row] => some (some (copyInto [] row))
  | .rows (_ :: _ :: _) => none

/-- the values in MySQL; without a table name there is no result, and `#result` raises -/
def loadRow (self : Obj) : Proc (Option Table) := do
  match ← loadByPrimaryKeys self with
  | none => OwliesServer.Proc.raise
  | some reply => OwliesServer.Proc.ofOption (singleRow reply)

/-- `RedisObject:initialize`: the instance with its columns, and the values found -/
def initializeRedis (codec : Codec) (self : Obj) : Proc (Obj × Option Table) := do
  let self ← initializeColumns self
  match ← loadRedisCache codec self with
  | some valueTable => pure (self, some valueTable)
  | none => do
    let valueTable ← loadRow self
    pure (self, valueTable)

/-- `self.user_id = user_id`, which leaves no entry for nil -/
def allocateResponse (userId : Option Value) : Obj :=
  match userId with
  | none => loginResponseObject.allocate
  | some v => loginResponseObject.allocate.set (ascii "user_id") v

/-- `loginResponseObject:new(user_id)` -/
def newLoginResponseObject (codec : Codec) (userId : Option Value) : Proc Obj := do
  let loaded ← initializeRedis codec (allocateResponse userId)
  match loaded.2 with
  | none => do
    -- "Failed to load object from user_energy, user_id " .. user_id
    let _ ← OwliesServer.Proc.ofOption (concatArg userId)
    pure loaded.1
  | some result => pure { loaded.1 with entries := copyInto loaded.1.entries result }

/-! ## What they do with given replies -/

section Exec

variable (oracle : ℕ → (q : Request) → Reply q) (codec : Codec)

/-- the n-th reply, to a statement -/
def dbAt (n : ℕ) (sql : Bytes) : DbReply := oracle n (.query sql)

/-- the n-th reply, to a cache lookup -/
def redisAt (n : ℕ) (key : Bytes) : RedisReply := oracle n (.redisGet key)

/-- the columns of a table, as the n-th reply gives them -/
def columnsAt (n : ℕ) (tableName : Bytes) : Option (List Bytes) :=
  fieldNames (dbAt oracle n (ascii "SHOW COLUMNS FROM " ++ tableName ++ ascii ";"))

/-- the login object for the reported columns and the message -/
def loginObject (columns : List Bytes) (sproto : Table) : Obj :=
  let self := LoginRequestObject.allocate.set (ascii "columns") (.list columns)
  { self with entries := copyInto self.entries sproto }

/-- the key and the lookup of a user's energy -/
def energyKey (userId : Bytes) : Bytes := ascii "user_energy" ++ ascii "_" ++ userId ++ ascii "_"

def energySql (userId : Bytes) : Bytes :=
  ascii "SELECT * FROM " ++ ascii "user_energy" ++ ascii " WHERE " ++ ascii "user_id" ++ ascii " = '" ++ userId ++
    ascii "'" ++ ascii ";"

/-- the values a login response is filled with: from the cache if there is a hit, else from the row found -/
def loadedValues (cached : RedisReply) (row : DbReply) : Option (Option Table) :=
  match cached with
  | .value (some json) => (codec.unpack json).map some
  | _ => singleRow row

/-- the response object for the reported columns, the user and the loaded values -/
def responseObject (columns : List Bytes) (userId : Option Value) (values : Option Table) : Obj :=
  let self := (allocateResponse userId).set (ascii "columns") (.list columns)
  match values with
  | none => self
  | some result => { self with entries := copyInto self.entries result }

@[simp] theorem exec_query (sql : Bytes) (n : ℕ) : (query sql).exec oracle n = some (dbAt oracle n sql, n + 1) := rfl

@[simp] theorem exec_redisGet (key : Bytes) (n : ℕ) :
    (redisGet key).exec oracle n = some (redisAt oracle n key, n + 1) := rfl

theorem exec_initializeColumns (self : Obj) (tableName : Bytes) (ht : self.cls.tableName = some tableName) (n : ℕ) :
    (initializeColumns self).exec oracle n =
      (columnsAt oracle n tableName).map fun columns => (self.set (ascii "columns") (.list columns), n + 1) := by
  simp only [initializeColumns, getColumnNames, ht, columnsAt, Proc.exec_bind, Proc.exec_ofOption,
    exec_query, Option.map_some, Option.bind_some]
  cases fieldNames (dbAt oracle n _) <;> rfl

theorem exec_newLoginRequestObject (sproto : Table) (n : ℕ) :
    (newLoginRequestObject sproto).exec oracle n =
      (columnsAt oracle n (ascii "user_login")).map fun columns => (loginObject columns sproto, n + 1) := by
  rw [newLoginRequestObject, Proc.exec_bind, exec_initializeColumns oracle _ (ascii "user_login") rfl]
  cases columnsAt oracle n (ascii "user_login") <;> rfl

theorem foldlM_isSome {β : Type} (g : β → Option Bytes) (f : Bytes → β → Bytes → Bytes) (l : List β) (sql : Bytes) :
    (l.foldlM (fun sql x => (g x).bind fun value => some (f sql x value)) sql).isSome ↔ ∀ x ∈ l, (g x).isSome := by
  induction l generalizing sql with
  | nil => simp
  | cons x l ih =>
    rw [List.foldlM_cons]
    cases hx : g x with
    | none => simp [hx]
    | some value => simpa [hx] using ih (f sql x value)

/-- the upsert can be written down exactly when every column holds something that concatenates -/
theorem insertSql_isSome (tableName : Bytes) (columns primaryKeys : List Bytes) (self : Bytes → Option Value) :
    (insertSql tableName columns primaryKeys self).isSome ↔ ∀ c ∈ columns, (concatArg (self c)).isSome := by
  have h1 := foldlM_isSome (fun c => concatArg (self c)) (fun sql _ value => sql ++ ascii "'" ++ value ++ ascii "',")
    columns (ascii "INSERT INTO " ++ tableName ++ ascii " VALUES (")
  simp only [insertSql, Option.bind_eq_bind]
  rw [← h1]
  generalize hloop : List.foldlM (m := Option) _ (ascii "INSERT INTO " ++ tableName ++ ascii " VALUES (") columns = loop
    at h1 ⊢
  cases loop with
  | none => simp
  | some sql =>
    have hall := h1.1 rfl
    have h2 := (foldlM_isSome (fun c => concatArg (self c))
      (fun sql c value => sql ++ c ++ ascii " = '" ++ value ++ ascii "', ") (columnsToUpdate columns primaryKeys)
      (cutTail 1 sql ++ ascii ") ON DUPLICATE KEY UPDATE ")).2 fun c hc => hall c (List.mem_of_mem_filter hc)
    obtain ⟨sql', hloop'⟩ := Option.isSome_iff_exists.1 h2
    rw [Option.bind_some, hloop']
    rfl

theorem exec_insertOnDuplicate (self : Obj) (tableName : Bytes) (ht : self.cls.tableName = some tableName) (n : ℕ) :
    (insertOnDuplicate self).exec oracle n =
      (self.columns.bind fun columns => insertSql tableName columns self.cls.primaryKeys self.index).map fun sql =>
        (some (decide (dbAt oracle n sql ≠ DbReply.failed)), n + 1) := by
  simp only [insertOnDuplicate, ht, Proc.exec_bind, Proc.exec_ofOption, exec_query]
  cases self.columns with
  | none => rfl
  | some columns =>
    simp only [Option.map_some, Option.bind_some]
    cases insertSql tableName columns self.cls.primaryKeys self.index <;> rfl

theorem index_allocateResponse (userId : Option Value) (columns : List Bytes) :
    ((allocateResponse userId).set (ascii "columns") (.list columns)).index (ascii "user_id") = userId := by
  cases userId with
  | none => rfl
  | some v =>
    rw [Obj.index, Obj.set, get_set_ne _ _ _ _ (by decide)]
    exact get_set_self _ _ _

/-- the key of an object whose primary keys concatenate -/
theorem getRedisKey_text (self : Obj) (tableName : Bytes) (v : Bytes → Bytes) (ht : self.cls.tableName = some tableName)
    (hv : ∀ k ∈ self.cls.primaryKeys, concatArg (self.index k) = some (v k)) :
    getRedisKey self = some (tableName ++ ascii "_" ++ self.cls.primaryKeys.flatMap fun k => v k ++ ascii "_") := by
  rw [getRedisKey, ht]
  refine foldlM_append _ _ _ _ fun redisKey k hk => ?_
  rw [hv k hk]
  simp

/-- the key and the lookup of a response object depend on its user only -/
theorem getRedisKey_response (self : Obj) (userId : Option Value) (hc : self.cls = loginResponseObject)
    (hi : self.index (ascii "user_id") = userId) : getRedisKey self = (concatArg userId).map energyKey := by
  simp only [getRedisKey, hc, loginResponseObject, List.foldlM_cons, List.foldlM_nil, hi, Option.bind_eq_bind,
    Option.bind_some]
  cases concatArg userId <;> rfl

theorem selectSql_response (self : Obj) (userId : Option Value) (hi : self.index (ascii "user_id") = userId) :
    selectSql (ascii "user_energy") loginResponseObject.primaryKeys self.index = (concatArg userId).map energySql := by
  simp only [selectSql, loginResponseObject, List.zipIdx_cons, List.zipIdx_nil, List.foldlM_cons, List.foldlM_nil, hi,
    Option.bind_eq_bind]
  cases concatArg userId <;> rfl

theorem exec_loadRow (self : Obj) (tableName sql : Bytes) (ht : self.cls.tableName = some tableName)
    (hs : selectSql tableName self.cls.primaryKeys self.index = some sql) (n : ℕ) :
    (loadRow self).exec oracle n = (singleRow (dbAt oracle n sql)).map fun values => (values, n + 1) := by
  simp only [loadRow, loadByPrimaryKeys, ht, hs, Proc.exec_bind, Proc.exec_ofOption, exec_query, Option.map_some,
    Option.bind_some, Proc.exec_pure]

theorem index_set_columns (self : Obj) (columns : List Bytes) (k : Bytes) (h : k ≠ ascii "columns") :
    (self.set (ascii "columns") (.list columns)).index k = self.index k := get_set_ne _ _ _ _ h

/-- `RedisObject:initialize` with given replies: the columns, then the cache, then MySQL if the cache has nothing -/
theorem exec_initializeRedis (self : Obj) (tableName key sql : Bytes) (ht : self.cls.tableName = some tableName) (n : ℕ)
    (hk : ∀ columns, getRedisKey (self.set (ascii "columns") (.list columns)) = some key)
    (hs : ∀ columns, selectSql tableName self.cls.primaryKeys (self.set (ascii "columns") (.list columns)).index =
      some sql) :
    ((initializeRedis codec self).exec oracle n).map Prod.fst =
      (columnsAt oracle n tableName).bind fun columns =>
        (loadedValues codec (redisAt oracle (n + 1) key) (dbAt oracle (n + 2) sql)).map fun values =>
          (self.set (ascii "columns") (.list columns), values) := by
  rw [initializeRedis, Proc.exec_bind, exec_initializeColumns oracle self tableName ht]
  cases columnsAt oracle n tableName with
  | none => rfl
  | some columns =>
    have hrow := exec_loadRow oracle (self.set (ascii "columns") (.list columns)) tableName sql ht (hs columns) (n + 2)
    simp only [Option.map_some, Option.bind_some, Proc.exec_bind, loadRedisCache, hk columns, Proc.exec_ofOption,
      exec_redisGet]
    -- a hit, or the lookup
    rcases redisAt oracle (n + 1) key with _ | _ | json
    · simp only [Proc.exec_pure, Option.bind_some, Proc.exec_bind, hrow, loadedValues]
      cases singleRow (dbAt oracle (n + 2) sql) <;> rfl
    · simp only [Proc.exec_pure, Option.bind_some, Proc.exec_bind, hrow, loadedValues]
      cases singleRow (dbAt oracle (n + 2) sql) <;> rfl
    · simp only [Proc.exec_bind, Proc.exec_ofOption, loadedValues]
      cases codec.unpack json <;> rfl

/-- the object with the values found -/
def filled (loaded : Obj × Option Table) : Obj :=
  match loaded.2 with
  | none => loaded.1
  | some result => { loaded.1 with entries := copyInto loaded.1.entries result }

/-- without a key there is nothing to load by -/
theorem exec_initializeRedis_none (self : Obj) (tableName : Bytes) (ht : self.cls.tableName = some tableName) (n : ℕ)
    (hk : ∀ columns, getRedisKey (self.set (ascii "columns") (.list columns)) = none) :
    (initializeRedis codec self).exec oracle n = none := by
  rw [initializeRedis, Proc.exec_bind, exec_initializeColumns oracle self tableName ht]
  cases columnsAt oracle n tableName with
  | none => rfl
  | some columns => simp [loadRedisCache, hk columns]

theorem exec_newLoginResponseObject (userId : Option Value) (n : ℕ) :
    ((newLoginResponseObject codec userId).exec oracle n).map Prod.fst =
      (columnsAt oracle n (ascii "user_energy")).bind fun columns => (concatArg userId).bind fun uid =>
        (loadedValues codec (redisAt oracle (n + 1) (energyKey uid)) (dbAt oracle (n + 2) (energySql uid))).map
          (responseObject columns userId) := by
  have hclass : (allocateResponse userId).cls = loginResponseObject := by cases userId <;> rfl
  have htable : (allocateResponse userId).cls.tableName = some (ascii "user_energy") := by rw [hclass]; rfl
  have hkey := fun columns => getRedisKey_response ((allocateResponse userId).set (ascii "columns") (.list columns))
    userId hclass (index_allocateResponse userId columns)
  have hsql := fun columns => selectSql_response ((allocateResponse userId).set (ascii "columns") (.list columns))
    userId (index_allocateResponse userId columns)
  cases huid : concatArg userId with
  | none =>
    rw [newLoginResponseObject, Proc.exec_bind,
      exec_initializeRedis_none oracle codec _ _ htable n (by simp [hkey, huid])]
    cases columnsAt oracle n (ascii "user_energy") <;> rfl
  | some uid =>
    -- behind the loading no further call is made
    rw [newLoginResponseObject, Proc.map_fst_exec_bind oracle _ _ (fun loaded => some (filled loaded)) (by
        intro loaded m
        obtain ⟨self, _ | result⟩ := loaded
        · simp [huid, filled]
        · rfl),
      exec_initializeRedis oracle codec (allocateResponse userId) (ascii "user_energy") (energyKey uid) (energySql uid)
        htable n (by simp [hkey, huid]) (by simp [hclass, hsql, huid])]
    cases columnsAt oracle n (ascii "user_energy") with
    | none => rfl
    | some columns =>
      simp only [Option.bind_some]
      rcases loadedValues codec (redisAt oracle (n + 1) (energyKey uid)) (dbAt oracle (n + 2) (energySql uid))
        with _ | _ | values <;> rfl

end Exec

end OwliesServer.ObjectBase
