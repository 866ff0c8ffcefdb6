/-
The object layer over MySQL (Script/DataTypes/object_base.lua): column discovery, the upsert `insertOnDuplicate` and
the lookup `loadByPrimaryKeys`, as procedures that call db_service.

- A `Class` is what the Lua subclasses fill in: table name, primary keys, sproto name. An `Obj` is an instance: its
  own entries, with `class` and `columns` among them.
- The statements are assembled by the loops of the source (`insertSql`, `selectSql`): every value goes between
  hand-written quotes, and the separators after the last value are cut off by position. Concatenating nil raises
  (`none`).
- `LoginRequestObject` and `loginResponseObject` are the two classes of the repository.
-/
import OwliesServer.Core.Proc
import OwliesServer.Core.SqlLexer
import OwliesServer.Data.LuaTable

namespace OwliesServer.ObjectBase

open OwliesServer.CChar OwliesServer.LuaTable

/-! ## Services -/

/-- requests to db_service and owlies_redis -/
inductive Request where
  | query (sql : Bytes)
  | redisGet (key : Bytes)
  | redisSet (key value : Bytes)
deriving DecidableEq, Repr

/-- what `pcall(skynet.call, "db_service", "lua", "query", sql)` gives -/
inductive DbReply where
  /-- the call failed: connection lost, or the driver raised -/
  | failed
  /-- MySQL rejected the statement: the driver returns a table with `badresult`, `err`, `errno` and `sqlstate` -/
  | badresult
  /-- executed, without a result set -/
  | executed
  /-- executed, with the rows of its result set -/
  | rows (rs : List Table)
deriving DecidableEq, Repr

/-- what `pcall(skynet.call, "owlies_redis", "lua", "get", key)` gives -/
inductive RedisReply where
  | failed
  | value (json : Option Bytes)
deriving DecidableEq, Repr

def Reply : Request → Type
  | .query _ => DbReply
  | .redisGet _ => RedisReply
  | .redisSet _ _ => Bool

abbrev Proc := OwliesServer.Proc Request Reply

def query (sql : Bytes) : Proc DbReply := OwliesServer.Proc.request (Request.query sql)

def redisGet (key : Bytes) : Proc RedisReply := OwliesServer.Proc.request (Request.redisGet key)

def redisSet (key value : Bytes) : Proc Bool := OwliesServer.Proc.request (Request.redisSet key value)

/-- MySQL behind db_service: what it answers to a statement, and the state it is in afterwards. Which statements it
executes and what they do to its tables is left open; a result that depends on it names what it assumes. -/
structure Database where
  State : Type
  query : State → Bytes → DbReply × State

/-! ## Classes and instances -/

structure Class where
  name : Bytes
  tableName : Option Bytes
  primaryKeys : List Bytes
  sprotoName : Bytes
deriving DecidableEq, Repr

structure Obj where
  cls : Class
  entries : Table
deriving DecidableEq, Repr

/-- `self[k]`; the methods of the class, which no statement can use, are left out -/
def Obj.index (self : Obj) (k : Bytes) : Option Value := get self.entries k

def Obj.set (self : Obj) (k : Bytes) (v : Value) : Obj := { self with entries := LuaTable.set self.entries k v }

/-- `self.columns`; anything but the list of column names makes the loops over it raise -/
def Obj.columns (self : Obj) : Option (List Bytes) :=
  match self.index (ascii "columns") with
  | some (.list l) => some l
  | _ => none

def LoginRequestObject : Class where
  name := ascii "LoginRequsetObject"
  tableName := some (ascii "user_login")
  primaryKeys := [ascii "user_id"]
  sprotoName := ascii "LoginRequest"

def loginResponseObject : Class where
  name := ascii "S2cObjectBase"
  tableName := some (ascii "user_energy")
  primaryKeys := [ascii "user_id"]
  sprotoName := ascii "LoginResponse"

/-- `allocate`: a fresh instance -/
def Class.allocate (cls : Class) : Obj := ⟨cls, [(ascii "class", .class cls.name)]⟩

/-! ## Statements -/

/-- `string.sub(s, 1, -(n+1))` -/
def cutTail (n : ℕ) (s : Bytes) : Bytes := s.take (s.length - n)

/-- the columns the upsert writes again: those that are no primary keys -/
def columnsToUpdate (columns primaryKeys : List Bytes) : List Bytes :=
  columns.filter fun v => !primaryKeys.any fun k => k = v

/-- the text `insertOnDuplicate` sends -/
def insertSql (tableName : Bytes) (columns primaryKeys : List Bytes) (self : Bytes → Option Value) : Option Bytes := do
  let sql := ascii "INSERT INTO " ++ tableName ++ ascii " VALUES ("
  let sql ← columns.foldlM (fun sql column => do
    let value ← concatArg (self column)
    some (sql ++ ascii "'" ++ value ++ ascii "',")) sql
  -- Remove last ','
  let sql := cutTail 1 sql ++ ascii ") ON DUPLICATE KEY UPDATE "
  let sql ← (columnsToUpdate columns primaryKeys).foldlM (fun sql column => do
    let value ← concatArg (self column)
    some (sql ++ column ++ ascii " = '" ++ value ++ ascii "', ")) sql
  -- Remove last ', '
  some (cutTail 2 sql ++ ascii ";")

/-- the text `loadByPrimaryKeys` sends; the loop index `i` counts from 1 -/
def selectSql (tableName : Bytes) (primaryKeys : List Bytes) (self : Bytes → Option Value) : Option Bytes := do
  let sql := ascii "SELECT * FROM " ++ tableName ++ ascii " WHERE "
  let count := primaryKeys.length
  let sql ← primaryKeys.zipIdx 1 |>.foldlM (fun sql key => do
    let value ← concatArg (self key.1)
    let sql := sql ++ key.1 ++ ascii " = '" ++ value ++ ascii "'"
    some (if 2 ≤ key.2 ∧ key.2 + 1 < count then sql ++ ascii "AND " else sql)) sql
  some (sql ++ ascii ";")

/-- a loop that appends one item of text for each element -/
theorem foldlM_append {β : Type} (step : Bytes → β → Option Bytes) (item : β → Bytes) (l : List β) (sql : Bytes)
    (h : ∀ sql, ∀ x ∈ l, step sql x = some (sql ++ item x)) : l.foldlM step sql = some (sql ++ l.flatMap item) := by
  induction l generalizing sql with
  | nil => simp
  | cons x l ih =>
    rw [List.foldlM_cons, h sql x List.mem_cons_self, List.flatMap_cons, ← List.append_assoc]
    exact ih _ fun sql y hy => h sql y (List.mem_cons_of_mem x hy)

/-! ## Operations -/

/-- the answer to SHOW COLUMNS as a list of names. A failed call leaves an error message, which has no `pairs`; the
entries of an error table or an OK table are no rows, and indexing them raises. -/
def fieldNames : DbReply → Option (List Bytes)
  | .rows rs => some (rs.filterMap fun v =>
      match get v (ascii "Field") with
      | some (.str s) => some s
      | _ => none)
  | _ => none

def getColumnNames (self : Obj) : Proc (List Bytes) := do
  let tableName ← OwliesServer.Proc.ofOption self.cls.tableName
  let columnNames ← query (ascii "SHOW COLUMNS FROM " ++ tableName ++ ascii ";")
  OwliesServer.Proc.ofOption (fieldNames columnNames)

/-- `ObjectBase:initialize` -/
def initializeColumns (self : Obj) : Proc Obj := do
  let columns ← getColumnNames self
  pure (self.set (ascii "columns") (.list columns))

/-- `ObjectBase:insertOnDuplicate`: nil without a table name, else whether the call came back -/
def insertOnDuplicate (self : Obj) : Proc (Option Bool) :=
  match self.cls.tableName with
  | none => pure none
  | some tableName => do
    let columns ← OwliesServer.Proc.ofOption self.columns
    let sql ← OwliesServer.Proc.ofOption (insertSql tableName columns self.cls.primaryKeys self.index)
    let reply ← query sql
    pure (some (reply ≠ .failed))

/-- `ObjectBase:updateDB` -/
def updateDB (self : Obj) : Proc (Option Bool) := insertOnDuplicate self

/-- `ObjectBase:loadByPrimaryKeys`: nil without a table name, else the reply (its first result is whether it failed) -/
def loadByPrimaryKeys (self : Obj) : Proc (Option DbReply) :=
  match self.cls.tableName with
  | none => pure none
  | some tableName => do
    let sql ← OwliesServer.Proc.ofOption (selectSql tableName self.cls.primaryKeys self.index)
    let reply ← query sql
    pure (some reply)

end OwliesServer.ObjectBase
