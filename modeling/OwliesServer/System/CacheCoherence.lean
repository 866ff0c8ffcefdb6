/-
The Redis cache beside MySQL: `updateDB`, `updateRedis` and `initialize` of one class and one value of its primary key,
by any number of objects, interleaved call by call.

- Each operation is the procedure of the object layer. A step lets one client's pending call happen: it is done, or done
  with the reply lost, or fails without an effect, or (a statement) is rejected.
- MySQL is a parameter (`RowStore`): any database of which a state has a row for the key, and which answers the lookup
  with rows only if these are that row. What it executes, and what an executed statement does, is left to it. So are the
  texts that `pack` makes of a table, and the tables that `unpack` makes of a text. Redis keeps what is set.
- `returned` records each table an `initialize` returns, with the row and the last cached text at that moment.

`cached_or_current`: a returned table is what `unpack` makes of the text that was cached last, or the row in MySQL.
`stale_read`: nothing ties the two writes together, so a cached row outlives later updates of MySQL.
-/
import OwliesServer.Core.Machine
import OwliesServer.Data.LoadOutcomes

namespace OwliesServer.CacheCoherence

open OwliesServer.CChar OwliesServer.LuaTable OwliesServer.ObjectBase OwliesServer.Machine

/-! ## Model -/

/-- a class with its table, and one value of its primary key -/
structure Setting where
  cls : ObjectBase.Class
  tableName : Bytes
  columns : List Bytes
  keyValue : Bytes → Bytes
  hasTable : cls.tableName = some tableName
  noColumnsKey : ascii "columns" ∉ cls.primaryKeys

/-- an object of the class with that key -/
structure Instance (S : Setting) where
  obj : Obj
  ofClass : obj.cls = S.cls
  keySet : ∀ k ∈ S.cls.primaryKeys, concatArg (obj.index k) = some (S.keyValue k)

inductive Kind where
  | updateDB
  | updateRedis
  | initializeRedis
deriving DecidableEq, Repr

/-- what an operation returned -/
inductive Done where
  | updatedDB (success : Option Bool)
  | updatedRedis (success : Bool)
  | initialized (result : Option Table)

/-- what becomes of a call -/
inductive Fate where
  | done
  /-- executed, but the caller sees a failure -/
  | lost
  | failed
  | rejected
deriving DecidableEq, Repr

def showColumns (S : Setting) : Bytes := ascii "SHOW COLUMNS FROM " ++ S.tableName ++ ascii ";"

def redisKey (S : Setting) : Bytes :=
  S.tableName ++ ascii "_" ++ S.cls.primaryKeys.flatMap fun k => S.keyValue k ++ ascii "_"

def lookup (S : Setting) : Bytes :=
  ascii "SELECT * FROM " ++ S.tableName ++ ascii " WHERE " ++ whereClause S.cls.primaryKeys S.keyValue ++ ascii ";"

/-- MySQL, with the row that a state has for the key. All that is assumed: the lookup, if it is answered with rows, is
answered with that row, or with none if there is none. -/
structure RowStore (S : Setting) extends Database where
  row : State → Option Row
  lookup_rows : ∀ s rs, (query s (lookup S)).1 = .rows rs → rs = (row (query s (lookup S)).2).toList.map Row.entries

structure Stores (State : Type) where
  db : State
  redis : Bytes → Option Bytes
  /-- the table that was cached last, and the text it was packed into -/
  cached : Option (Table × Bytes)

structure Client (S : Setting) where
  kind : Kind
  item : Instance S
  rest : ObjectBase.Proc Done

/-- a table returned by `initialize`, with the row and what was cached last at that moment -/
structure Returned where
  table : Table
  row : Option Row
  cached : Option (Table × Bytes)

structure St (S : Setting) (State : Type) where
  stores : Stores State
  clients : List (Client S)
  returned : List Returned

inductive Op (S : Setting) where
  | start (kind : Kind) (item : Instance S)
  /-- the pending call of the i-th client happens -/
  | act (i : ℕ) (fate : Fate)

section Machine

variable {S : Setting} (D : RowStore S) (codec : Codec) (pack : Table → Option Bytes)

/-- the operation as a procedure -/
def begin (kind : Kind) (o : Obj) : ObjectBase.Proc Done :=
  match kind with
  | .updateDB => do
    let success ← updateDB o
    pure (.updatedDB success)
  | .updateRedis => do
    let success ← updateRedis pack o
    pure (.updatedRedis success)
  | .initializeRedis => do
    let result ← initializeRedis codec o
    pure (.initialized result.2)

/-- the stores after an executed statement -/
def Stores.query (st : Stores D.State) (sql : Bytes) : Stores D.State := { st with db := (D.query st.db sql).2 }

/-- the stores after an executed set of an object's entries -/
def Stores.set (st : Stores D.State) (key json : Bytes) (t : Table) : Stores D.State :=
  ⟨st.db, fun k => if k = key then some json else st.redis k, some (t, json)⟩

/-- the reply to a call, and the stores afterwards -/
def serve (c : Client S) (st : Stores D.State) (fate : Fate) : (q : Request) → Reply q × Stores D.State
  | .query sql =>
    match fate with
    | .done => ((D.query st.db sql).1, st.query D sql)
    | .lost => (DbReply.failed, st.query D sql)
    | .failed => (DbReply.failed, st)
    | .rejected => (DbReply.badresult, st)
  | .redisGet key => if fate = .done then (RedisReply.value (st.redis key), st) else (RedisReply.failed, st)
  | .redisSet key json =>
    match fate with
    | .done => (true, st.set D key json (toSproto c.item.obj))
    | .lost => (false, st.set D key json (toSproto c.item.obj))
    | _ => (false, st)

/-- the tables that a procedure returns right now -/
def returns (st : Stores D.State) : ObjectBase.Proc Done → List Returned
  | .ret (.initialized (some table)) => [⟨table, D.row st.db, st.cached⟩]
  | _ => []

def act (s : St S D.State) (i : ℕ) (fate : Fate) : St S D.State :=
  match s.clients[i]? with
  | none => s
  | some c =>
    match c.rest with
    | .call q k =>
      let r := serve D c s.stores fate q
      { stores := r.2
        clients := s.clients.set i { c with rest := k r.1 }
        returned := s.returned ++ returns D r.2 (k r.1) }
    | _ => s

def step (s : St S D.State) : Op S → St S D.State
  | .start kind item => { s with clients := s.clients ++ [⟨kind, item, begin codec pack kind item.obj⟩] }
  | .act i fate => act D s i fate

/-- MySQL in any state, and nothing cached -/
def init (db : D.State) : St S D.State := ⟨⟨db, fun _ => none, none⟩, [], []⟩

end Machine

/-! ## The calls of an operation -/

section Calls

variable {S : Setting} (codec : Codec) (pack : Table → Option Bytes) (item : Instance S)

/-- the object with its columns read -/
def Instance.listed (columns : List Bytes) : Obj := item.obj.set (ascii "columns") (.list columns)

/-- `initialize` behind the cache lookup, if it found nothing -/
def afterMiss (S : Setting) : ObjectBase.Proc Done :=
  .call (.query (lookup S)) fun reply =>
    match singleRow reply with
    | none => .raise
    | some values => .ret (.initialized values)

/-- `initialize` behind the cache lookup, if it found a text -/
def afterHit (json : Bytes) : ObjectBase.Proc Done :=
  match codec.unpack json with
  | none => .raise
  | some values => .ret (.initialized (some values))

/-- `initialize` behind the columns -/
def afterColumns (S : Setting) : ObjectBase.Proc Done :=
  .call (.redisGet (redisKey S)) fun reply =>
    match reply with
    | .value (some json) => afterHit codec json
    | _ => afterMiss S

theorem keySet_listed (columns : List Bytes) :
    ∀ k ∈ S.cls.primaryKeys, concatArg ((item.listed columns).index k) = some (S.keyValue k) := by
  intro k hk
  have hne : k ≠ ascii "columns" := fun he => S.noColumnsKey (he ▸ hk)
  rw [Instance.listed, index_set_columns item.obj columns k hne, item.keySet k hk]

theorem class_listed (columns : List Bytes) : (item.listed columns).cls = S.cls := item.ofClass

/-- the key of the cache is the same for all the objects -/
theorem getRedisKey_listed (columns : List Bytes) : getRedisKey (item.listed columns) = some (redisKey S) := by
  have hclass := class_listed item columns
  rw [getRedisKey_text (item.listed columns) S.tableName S.keyValue (by rw [hclass, S.hasTable])
    (by rw [hclass]; exact keySet_listed item columns), hclass, redisKey]

theorem loadRow_listed (columns : List Bytes) :
    loadRow (item.listed columns) = .call (.query (lookup S)) fun reply => Proc.ofOption (singleRow reply) := by
  have hsql : selectSql S.tableName S.cls.primaryKeys (item.listed columns).index = some (lookup S) :=
    selectSql_text S.tableName S.cls.primaryKeys _ S.keyValue (keySet_listed item columns)
  simp only [loadRow, loadByPrimaryKeys, class_listed, S.hasTable, hsql]
  rfl

theorem bind_loadRow (columns : List Bytes) :
    ((loadRow (item.listed columns)).bind fun values => Proc.ret (item.listed columns, values)).bind
      (fun result => Proc.ret (Done.initialized result.2)) = afterMiss S := by
  rw [loadRow_listed]
  refine congrArg (Proc.call (Request.query (lookup S))) (funext fun reply => ?_)
  change Proc.bind (Proc.bind (Proc.ofOption (singleRow reply)) _) _ = _
  cases singleRow reply <;> rfl

/-- `initialize`, call by call -/
theorem begin_initializeRedis :
    begin codec pack .initializeRedis item.obj = .call (.query (showColumns S)) fun reply =>
      match fieldNames reply with
      | none => .raise
      | some _ => afterColumns codec S := by
  have htable : item.obj.cls.tableName = some S.tableName := by rw [item.ofClass, S.hasTable]
  simp only [begin, initializeRedis, initializeColumns, getColumnNames, htable]
  refine congrArg (Proc.call (Request.query (showColumns S))) (funext fun reply => ?_)
  change Proc.bind (Proc.bind (Proc.bind (Proc.ofOption (fieldNames reply)) _) _) _ = _
  cases fieldNames reply with
  | none => rfl
  | some columns =>
    change Proc.bind (Proc.bind (loadRedisCache codec (item.listed columns)) _) _ = _
    rw [loadRedisCache, getRedisKey_listed]
    refine congrArg (Proc.call (Request.redisGet (redisKey S))) (funext fun cached => ?_)
    -- the cache failed, is empty, or has a text
    rcases cached with _ | _ | json
    · exact bind_loadRow item columns
    · exact bind_loadRow item columns
    · change Proc.bind (Proc.bind (Proc.bind (Proc.ofOption (codec.unpack json)) _) _) _ = afterHit codec json
      rw [afterHit]
      cases codec.unpack json <;> rfl

/-- `updateDB`: one statement, or nothing at all -/
theorem begin_updateDB :
    begin codec pack .updateDB item.obj = .raise ∨ ∃ sql, ∃ success : Reply (.query sql) → Option Bool,
      begin codec pack .updateDB item.obj = .call (.query sql) fun reply => .ret (.updatedDB (success reply)) := by
  have htable : item.obj.cls.tableName = some S.tableName := by rw [item.ofClass, S.hasTable]
  simp only [begin, updateDB, insertOnDuplicate, htable]
  cases item.obj.columns with
  | none => exact .inl rfl
  | some columns =>
    cases hsql : insertSql S.tableName columns item.obj.cls.primaryKeys item.obj.index with
    | none => exact .inl (by simp only [bind, Proc.ofOption, Proc.bind, hsql])
    | some sql => exact .inr ⟨sql, _, by simp only [bind, Proc.ofOption, Proc.bind, hsql]; rfl⟩

/-- `updateRedis`: one write of the packed entries, under the key of the setting, or nothing at all -/
theorem begin_updateRedis :
    begin codec pack .updateRedis item.obj = .raise ∨ ∃ json, pack (toSproto item.obj) = some json ∧
      begin codec pack .updateRedis item.obj = .call (.redisSet (redisKey S) json) fun ok => .ret (.updatedRedis ok) := by
  have hkey : getRedisKey item.obj = some (redisKey S) := by
    rw [getRedisKey_text item.obj S.tableName S.keyValue (by rw [item.ofClass, S.hasTable])
      (by rw [item.ofClass]; exact item.keySet), item.ofClass, redisKey]
  simp only [begin, updateRedis, hkey]
  cases hpack : pack (toSproto item.obj) with
  | none => exact .inl rfl
  | some json => exact .inr ⟨json, rfl, rfl⟩

end Calls

/-! ## Every interleaving -/

section Runs

variable {S : Setting} (D : RowStore S) (codec : Codec) (pack : Table → Option Bytes)

/-- where a client can be -/
inductive Pending (c : Client S) : Prop
  | finished (done : ∀ q k, c.rest ≠ .call q k)
  | started (h : c.rest = begin codec pack c.kind c.item.obj)
  | columns (hk : c.kind = .initializeRedis) (h : c.rest = afterColumns codec S)
  | missed (hk : c.kind = .initializeRedis) (h : c.rest = afterMiss S)

/-- Redis holds the text cached last, which was packed from the table cached last -/
structure CacheOk (st : Stores D.State) : Prop where
  held : st.redis (redisKey S) = st.cached.map Prod.snd
  packed : ∀ t json, st.cached = some (t, json) → pack t = some json

/-- a returned table is what `unpack` makes of the text cached last, or has the entries of the row -/
def CachedOrCurrent (r : Returned) : Prop :=
  (∃ t json, r.cached = some (t, json) ∧ pack t = some json ∧ codec.unpack json = some r.table) ∨
    ∃ row, r.row = some row ∧ ∀ k, get r.table k = get row.entries k

structure Inv (s : St S D.State) : Prop where
  cache : CacheOk D pack s.stores
  clients : ∀ c ∈ s.clients, Pending codec pack c
  returned : ∀ r ∈ s.returned, CachedOrCurrent codec pack r

theorem pending_ret (kind : Kind) (item : Instance S) (d : Done) : Pending codec pack ⟨kind, item, .ret d⟩ :=
  .finished fun _ _ h => by cases h

theorem pending_raise (kind : Kind) (item : Instance S) : Pending codec pack ⟨kind, item, .raise⟩ :=
  .finished fun _ _ h => by cases h

/-- no statement touches the cache -/
theorem serve_query_cache (c : Client S) (st : Stores D.State) (fate : Fate) (sql : Bytes) (hc : CacheOk D pack st) :
    CacheOk D pack (serve D c st fate (.query sql)).2 := by
  cases fate with
  | done | lost => exact ⟨hc.held, hc.packed⟩
  | failed | rejected => exact hc

theorem serve_get (c : Client S) (st : Stores D.State) (fate : Fate) (key : Bytes) :
    serve D c st fate (.redisGet key) = (RedisReply.value (st.redis key), st) ∨
      serve D c st fate (.redisGet key) = (RedisReply.failed, st) := by
  cases fate with
  | done => exact .inl rfl
  | lost | failed | rejected => exact .inr rfl

/-- an executed set of what was packed -/
theorem serve_set_cache (c : Client S) (st : Stores D.State) (fate : Fate) (json : Bytes)
    (hpack : pack (toSproto c.item.obj) = some json) (hc : CacheOk D pack st) :
    CacheOk D pack (serve D c st fate (.redisSet (redisKey S) json)).2 := by
  have hset : CacheOk D pack (st.set D (redisKey S) json (toSproto c.item.obj)) := by
    refine ⟨if_pos rfl, ?_⟩
    intro t j h
    cases h
    exact hpack
  cases fate with
  | done | lost => exact hset
  | failed | rejected => exact hc

/-- an answered lookup finds the row, or no row, or has no rows at all -/
theorem serve_lookup (c : Client S) (st : Stores D.State) (fate : Fate) (table : Table)
    (h : singleRow (serve D c st fate (.query (lookup S))).1 = some (some table)) :
    ∃ row, D.row (serve D c st fate (.query (lookup S))).2.db = some row ∧ ∀ k, get table k = get row.entries k := by
  cases fate with
  | done =>
    change singleRow (D.query st.db (lookup S)).1 = _ at h
    cases hreply : (D.query st.db (lookup S)).1 with
    | failed =>
      rw [hreply] at h
      cases h
    | badresult =>
      rw [hreply] at h
      cases h
    | executed =>
      rw [hreply] at h
      cases h
    | rows rs =>
      have hrows := D.lookup_rows st.db rs hreply
      rw [hreply, hrows] at h
      change ∃ row, D.row (D.query st.db (lookup S)).2 = some row ∧ _
      cases hrow : D.row (D.query st.db (lookup S)).2 with
      | none =>
        rw [hrow] at h
        cases h
      | some row =>
        rw [hrow] at h
        cases h
        exact ⟨row, rfl, get_copied_row row⟩
  | lost | failed | rejected => cases h

/-- one call of a client: the cache stays as it should be, so does the client, and a table it returns is right -/
theorem serve_ok (c : Client S) (st : Stores D.State) (fate : Fate) (q : Request) (k : Reply q → ObjectBase.Proc Done)
    (hp : Pending codec pack c) (hq : c.rest = .call q k) (hc : CacheOk D pack st) :
    CacheOk D pack (serve D c st fate q).2 ∧ Pending codec pack { c with rest := k (serve D c st fate q).1 } ∧
      ∀ r ∈ returns D (serve D c st fate q).2 (k (serve D c st fate q).1), CachedOrCurrent codec pack r := by
  cases hp with
  | finished done => exact absurd hq (done q k)
  | started h =>
    rw [h] at hq
    cases hk : c.kind with
    | updateDB =>
      rw [hk] at hq
      rcases begin_updateDB codec pack c.item with hraise | ⟨sql, success, hcall⟩
      · rw [hraise] at hq
        cases hq
      · rw [hcall] at hq
        cases hq
        exact ⟨serve_query_cache D pack c st fate sql hc, pending_ret codec pack _ _ _, by simp [returns]⟩
    | updateRedis =>
      rw [hk] at hq
      rcases begin_updateRedis codec pack c.item with hraise | ⟨json, hpack, hcall⟩
      · rw [hraise] at hq
        cases hq
      · rw [hcall] at hq
        cases hq
        exact ⟨serve_set_cache D pack c st fate json hpack hc, pending_ret codec pack _ _ _, by simp [returns]⟩
    | initializeRedis =>
      rw [hk, begin_initializeRedis] at hq
      cases hq
      refine ⟨serve_query_cache D pack c st fate _ hc, ?_⟩
      dsimp only
      cases fieldNames (serve D c st fate (.query (showColumns S))).1 with
      | none => exact ⟨pending_raise codec pack _ _, by simp [returns]⟩
      | some columns => exact ⟨.columns rfl rfl, by simp [returns, afterColumns]⟩
  | columns hk h =>
    rw [h, afterColumns] at hq
    cases hq
    rcases serve_get D c st fate (redisKey S) with hs | hs
    · rw [hs]
      refine ⟨hc, ?_⟩
      cases hcached : st.cached with
      | none =>
        rw [show st.redis (redisKey S) = none by rw [hc.held, hcached]; rfl]
        exact ⟨.missed hk rfl, by simp [returns, afterMiss]⟩
      | some cached =>
        -- what is found is the text cached last
        obtain ⟨t, json⟩ := cached
        rw [show st.redis (redisKey S) = some json by rw [hc.held, hcached]; rfl]
        dsimp only
        rw [afterHit]
        cases hunpack : codec.unpack json with
        | none => exact ⟨pending_raise codec pack _ _, by simp [returns]⟩
        | some values =>
          refine ⟨pending_ret codec pack _ _ _, ?_⟩
          intro r hr
          rw [List.mem_singleton.1 hr]
          exact .inl ⟨t, json, hcached, hc.packed t json hcached, hunpack⟩
    · rw [hs]
      exact ⟨hc, .missed hk rfl, by simp [returns, afterMiss]⟩
  | missed hk h =>
    rw [h, afterMiss] at hq
    cases hq
    refine ⟨serve_query_cache D pack c st fate _ hc, ?_⟩
    dsimp only
    cases hrow : singleRow (serve D c st fate (.query (lookup S))).1 with
    | none => exact ⟨pending_raise codec pack _ _, by simp [returns]⟩
    | some found =>
      refine ⟨pending_ret codec pack _ _ _, ?_⟩
      cases found with
      | none => simp [returns]
      | some table =>
        intro r hr
        rw [List.mem_singleton.1 hr]
        exact .inr (serve_lookup D c st fate table hrow)

theorem act_inv (s : St S D.State) (i : ℕ) (fate : Fate) (h : Inv D codec pack s) : Inv D codec pack (act D s i fate) := by
  unfold act
  cases hi : s.clients[i]? with
  | none => exact h
  | some c =>
    cases hrest : c.rest with
    | ret d => simpa only [hrest] using h
    | raise => simpa only [hrest] using h
    | call q k =>
      have hp := h.clients c (List.mem_of_getElem? hi)
      obtain ⟨hcache, hpending, hreturned⟩ := serve_ok D codec pack c s.stores fate q k hp hrest h.cache
      simp only [hrest]
      refine ⟨hcache, ?_, ?_⟩
      · intro c' hc'
        rcases List.mem_or_eq_of_mem_set hc' with hc' | rfl
        · exact h.clients c' hc'
        · exact hpending
      · intro r hr
        rcases List.mem_append.1 hr with hr | hr
        · exact h.returned r hr
        · exact hreturned r hr

theorem step_inv (s : St S D.State) (o : Op S) (h : Inv D codec pack s) : Inv D codec pack (step D codec pack s o) := by
  cases o with
  | start kind item =>
    refine ⟨h.cache, ?_, h.returned⟩
    intro c hc
    rcases List.mem_append.1 hc with hc | hc
    · exact h.clients c hc
    · rw [List.mem_singleton.1 hc]
      exact .started rfl
  | act i fate => exact act_inv D codec pack s i fate h

theorem init_inv (db : D.State) : Inv D codec pack (init D db) :=
  ⟨⟨rfl, fun t json h => by cases h⟩, fun c hc => by simp [init] at hc, fun r hr => by simp [init] at hr⟩

/-- the table has the column values of the row in MySQL -/
def Current (S : Setting) (t : Table) (row : Option Row) : Prop :=
  ∃ r, row = some r ∧ ∀ c ∈ S.columns, get t c = get r.entries c

end Runs

/-- **A returned table was cached last, or is the row.** Along every interleaving of the three operations by any number
of clients, with calls failing anywhere: a table that `initialize` returns is what `unpack` makes of the text that was
cached last, or has the entries of the row that is in MySQL. So it has the column values of that row if the table
unpacked from the text cached last has them, and if nothing was ever cached. -/
theorem cached_or_current (S : Setting) (D : RowStore S) (codec : Codec) (pack : Table → Option Bytes) (db : D.State)
    (ops : List (Op S)) :
    ∀ r ∈ (run (step D codec pack) (init D db) ops).returned,
      CachedOrCurrent codec pack r ∧
        ((∀ t json table, r.cached = some (t, json) → codec.unpack json = some table → Current S table r.row) →
          Current S r.table r.row) := by
  have hinv := run_inv (step D codec pack) (Inv D codec pack) (step_inv D codec pack) (init D db) ops
    (init_inv D codec pack db)
  intro r hr
  have hright := hinv.returned r hr
  refine ⟨hright, ?_⟩
  intro hcached
  rcases hright with ⟨t, json, hw, -, htable⟩ | ⟨dbRow, hrow, hget⟩
  · exact hcached t json r.table hw htable
  · exact ⟨dbRow, hrow, fun c _ => hget c⟩

/-! ## A stale read -/

/-- the energy of user 7 -/
def energySetting : Setting where
  cls := loginResponseObject
  tableName := ascii "user_energy"
  columns := [ascii "user_id", ascii "energy"]
  keyValue _ := ascii "7"
  hasTable := rfl
  noColumnsKey := by decide

def energyOf (n : ℤ) : Instance energySetting where
  obj := ⟨loginResponseObject, [(ascii "columns", .list [ascii "user_id", ascii "energy"]),
    (ascii "user_id", .str (ascii "7")), (ascii "energy", .int n)]⟩
  ofClass := rfl
  keySet := by
    intro k hk
    rw [show k = ascii "user_id" by simpa [energySetting, loginResponseObject] using hk]
    rfl

def energyEntries (n : ℤ) : Row := ⟨[(ascii "user_id", .str (ascii "7")), (ascii "energy", .int n)], by simp [ascii]⟩

/-- a database with the row of user 7, for three statements on it and the two upserts of 10 and 20 -/
def energyStore : RowStore energySetting where
  State := Option ℤ
  query s sql :=
    if sql = lookup energySetting then (.rows ((s.map energyEntries).toList.map Row.entries), s)
    else if sql = showColumns energySetting then
      (.rows (energySetting.columns.map fun c => [(ascii "Field", .str c)]), s)
    else if sentSql (updateDB (energyOf 10).obj) = some sql then (.executed, some 10)
    else if sentSql (updateDB (energyOf 20).obj) = some sql then (.executed, some 20)
    else (.badresult, s)
  row s := s.map energyEntries
  lookup_rows s rs h := by
    rw [if_pos rfl] at h ⊢
    cases h
    rfl

/-- energy 10 is stored and cached, then 20 is stored, then the object is loaded -/
def staleRun : List (Op energySetting) :=
  [.start .updateDB (energyOf 10), .act 0 .done, .start .updateRedis (energyOf 10), .act 1 .done,
    .start .updateDB (energyOf 20), .act 2 .done, .start .initializeRedis (energyOf 0), .act 3 .done, .act 3 .done]

/-- **A cached row outlives an update of MySQL.** No call fails; `initialize` returns energy 10 while the row has 20. -/
theorem stale_read :
    (run (step energyStore rowCodec rowPacker.pack) (init energyStore none) staleRun).returned.map
        (fun r => (get r.table (ascii "energy"), r.row.bind fun row => get row.entries (ascii "energy"))) =
      [(some (.int 10), some (.int 20))] := by
  decide +kernel

/-- the table returned in that run is the one that was cached last -/
theorem cached_in_staleRun :
    ∃ r, r ∈ (run (step energyStore rowCodec rowPacker.pack) (init energyStore none) staleRun).returned ∧
      get r.table (ascii "energy") = some (.int 10) ∧ CachedOrCurrent rowCodec rowPacker.pack r := by
  have htables : (run (step energyStore rowCodec rowPacker.pack) (init energyStore none) staleRun).returned.map
      (fun r => get r.table (ascii "energy")) = [some (.int 10)] := by decide +kernel
  obtain ⟨r, hr, henergy⟩ := List.mem_map.1 (htables ▸ List.mem_singleton_self (some (Value.int 10)))
  exact ⟨r, hr, henergy, (cached_or_current energySetting energyStore rowCodec rowPacker.pack none staleRun r hr).1⟩

end OwliesServer.CacheCoherence
