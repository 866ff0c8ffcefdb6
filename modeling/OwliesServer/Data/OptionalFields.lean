/-
Messages that leave out fields (c2s_object_base.lua): the object built from a decoded message has an entry for each
field the message carries and none for the others, and the upsert concatenates one value for each column of the table.

- `concatArg_c2sObject`: for the upsert, a column's value is the field of the message.
- `StoresCells`: the upsert that writes given cells, each as a literal that denotes its text, or as NULL.
- `optional_fields_iff`: the upsert is sent, and writes the carried values and NULL for the others, exactly if no column
  is left out or carried as something else than a string or a number, every string is verbatim, and there is something
  to assign. So no message that leaves out a column is tolerated.
-/
import OwliesServer.Data.LoginObjects
import OwliesServer.Data.StatementText

namespace OwliesServer.ObjectBase

open OwliesServer.CChar OwliesServer.LuaNumber OwliesServer.LuaTable OwliesServer.SqlLexer OwliesServer.Separated

/-! ## Objects from messages -/

/-- `new(sproto)` of a subclass of C2sObjectBase -/
def newC2sObject (cls : Class) (sproto : Table) : Proc Obj := do
  let self ← initializeColumns cls.allocate
  pure { self with entries := copyInto self.entries sproto }

theorem newLoginRequestObject_eq (sproto : Table) :
    newLoginRequestObject sproto = newC2sObject LoginRequestObject sproto := rfl

/-- the object for the reported columns and the message -/
def c2sObject (cls : Class) (columns : List Bytes) (sproto : Table) : Obj :=
  let self := cls.allocate.set (ascii "columns") (.list columns)
  { self with entries := copyInto self.entries sproto }

/-- what an object is asked for while it writes: a field of this name would take its place -/
def ownMembers : List Bytes :=
  [ascii "columns", ascii "getTableName", ascii "getPrimaryKeys", ascii "insertOnDuplicate"]

/-- a decoded message: each field once or not at all, and none in the place of the object's own members -/
structure Message where
  fields : Table
  nodup : (fields.map Prod.fst).Nodup
  foreign : ∀ name ∈ ownMembers, get fields name = none

/-- what a column is to hold for a field: its text, and NULL (`none`) if there is none. No column holds an array. -/
def cellOf : Option Value → Option Bytes
  | some (.str s) => some s
  | some (.int n) => some (ascii (toString n))
  | some (.float n) => some (floatText n)
  | some (.bool b) => some (ascii (if b then "1" else "0"))
  | _ => none

/-- how a cell is written in a statement -/
inductive CellText : Option Bytes → Bytes → Prop
  | null : CellText none (ascii "NULL")
  | literal (t d : Bytes) (h : Denotes t d) : CellText (some d) (quoted t)

/-- the upsert up to its keyword UPDATE, with the cells as they are written -/
def cellsHead (tableName : Bytes) (columns : List Bytes) (inserted : Bytes → Bytes) : Bytes :=
  ascii "INSERT INTO " ++ tableName ++ ascii " VALUES (" ++ (ascii ",").intercalate (columns.map inserted) ++
    ascii ") ON DUPLICATE KEY "

def assignment (assigned : Bytes → Bytes) (c : Bytes) : Bytes := c ++ ascii " = " ++ assigned c

/-- the text inserts the cells into the columns, and assigns them to those that are no keys. Without such columns, there
is nothing but separators behind the keyword. -/
def StoresCells (tableName : Bytes) (columns keys : List Bytes) (cell : Bytes → Option Bytes) (sql : Bytes) : Prop :=
  ∃ inserted assigned : Bytes → Bytes, (∀ c ∈ columns, CellText (cell c) (inserted c) ∧ CellText (cell c) (assigned c)) ∧
    (nonKeys columns keys ≠ [] → sql = cellsHead tableName columns inserted ++ ascii "UPDATE " ++
      (ascii ", ").intercalate ((nonKeys columns keys).map (assignment assigned)) ++ ascii ";") ∧
    (nonKeys columns keys = [] → ∃ separators : Bytes, (∀ b ∈ separators, b ∈ ascii " ,;") ∧
      sql = cellsHead tableName columns inserted ++ ascii "UPDATE" ++ separators)

/-- the object is built, and the upsert is sent, with the carried values for their columns and NULL for the others -/
def Tolerated (tableName : Bytes) (columns : List Bytes) (cls : Class) (msg : Message)
    (oracle : ℕ → (q : Request) → Reply q) (n : ℕ) : Prop :=
  ∃ o sql, (newC2sObject cls msg.fields).exec oracle n = some (o, n + 1) ∧
    sentSql (insertOnDuplicate o) = some sql ∧
    StoresCells tableName columns cls.primaryKeys (fun c => cellOf (get msg.fields c)) sql

/-- a field that can be written: a number, or a verbatim string -/
def Writable : Option Value → Prop
  | some (.str s) => Verbatim s
  | some (.int _) => True
  | some (.float _) => True
  | _ => False

instance : (x : Option Value) → Decidable (Writable x)
  | some (.str s) => decVerbatim s
  | some (.int _) => isTrue trivial
  | some (.float _) => isTrue trivial
  | none => isFalse id
  | some (.bool _) => isFalse id
  | some (.list _) => isFalse id
  | some (.class _) => isFalse id

/-! ## Fields and columns -/

theorem free_of_numeral (c : Char) (h : IntegerLike c ∨ c = '.' ∨ c = 'e' ∨ c = '+') :
    BitVec.ofNat 8 c.toNat ≠ quote ∧ BitVec.ofNat 8 c.toNat ≠ backslash := by
  rcases h with hlike | rfl | rfl | rfl
  · have hbyte := isIntegerByte_of_integerLike hlike
    refine ⟨?_, ?_⟩
    · intro hquote
      rw [hquote] at hbyte
      exact absurd hbyte (by decide)
    · intro hbackslash
      rw [hbackslash] at hbyte
      exact absurd hbyte (by decide)
  all_goals decide

theorem verbatim_of_numerals (s : String) (h : ∀ c ∈ s.toList, IntegerLike c ∨ c = '.' ∨ c = 'e' ∨ c = '+') :
    Verbatim (ascii s) := by
  apply verbatim_of_free
  intro b hb
  obtain ⟨c, hc, rfl⟩ := List.mem_map.1 hb
  exact free_of_numeral c (h c hc)

/-- an integer is written with decimal digits and a sign -/
theorem verbatim_toString (n : ℤ) : Verbatim (ascii (toString n)) :=
  verbatim_of_numerals _ fun c hc => .inl (integerLike_toString n c hc)

/-- a float also with a point and an exponent -/
theorem verbatim_floatText (n : ℤ) : Verbatim (floatText n) := by
  obtain ⟨lead, c, rest, htext, hlead, hc, hrest⟩ := floatText_split n
  rw [htext]
  apply verbatim_of_numerals
  intro x hx
  rw [String.toList_ofList, List.mem_append, List.mem_cons] at hx
  rcases hx with hx | rfl | hx
  · exact .inl (hlead x hx)
  · rcases hc with rfl | rfl
    · exact .inr (.inl rfl)
    · exact .inr (.inr (.inl rfl))
  · exact (hrest x hx).imp id .inr

theorem writable_iff (x : Option Value) : Writable x ↔ ∃ text, concatArg x = some text ∧ Verbatim text := by
  rcases x with _ | (s | n | n | b | l | name)
  case some.int => exact ⟨fun _ => ⟨_, rfl, verbatim_toString n⟩, fun _ => trivial⟩
  case some.float => exact ⟨fun _ => ⟨_, rfl, verbatim_floatText n⟩, fun _ => trivial⟩
  all_goals simp [Writable, concatArg]

theorem cellOf_eq {x : Option Value} {text : Bytes} (h : concatArg x = some text) : cellOf x = some text := by
  rcases x with _ | (s | n | n | b | l | name)
  all_goals simp_all [concatArg, cellOf]

section Construction

variable (cls : Class) (columns : List Bytes) (msg : Message)

theorem exec_newC2sObject (oracle : ℕ → (q : Request) → Reply q) (tableName : Bytes)
    (ht : cls.tableName = some tableName) (n : ℕ) (sproto : Table) :
    (newC2sObject cls sproto).exec oracle n =
      (columnsAt oracle n tableName).map fun columns => (c2sObject cls columns sproto, n + 1) := by
  rw [newC2sObject, Proc.exec_bind, exec_initializeColumns oracle cls.allocate tableName ht]
  cases columnsAt oracle n tableName <;> rfl

theorem index_c2sObject (c : Bytes) :
    (c2sObject cls columns msg.fields).index c =
      (get msg.fields c).or (get [(ascii "class", .class cls.name), (ascii "columns", .list columns)] c) :=
  get_copyInto_of_nodup _ msg.fields msg.nodup c

theorem columns_c2sObject : (c2sObject cls columns msg.fields).columns = some columns := by
  rw [Obj.columns, index_c2sObject, msg.foreign (ascii "columns") (by simp [ownMembers])]
  rfl

/-- **What is concatenated for a column** is the field of the message: what an object has of its own is no operand. -/
theorem concatArg_c2sObject (c : Bytes) :
    concatArg ((c2sObject cls columns msg.fields).index c) = concatArg (get msg.fields c) := by
  rw [index_c2sObject]
  cases hfield : get msg.fields c with
  | some x => rfl
  | none =>
    rw [Option.none_or, get_cons, get_cons]
    split_ifs <;> rfl

end Construction

/-! ## Texts with the same cells -/

/-- a cell is never shorter than its text between quotes, and one as long denotes it byte by byte -/
theorem length_cellText {d t : Bytes} (h : CellText (some d) t) :
    (quoted d).length ≤ t.length ∧ (t.length = (quoted d).length → Verbatim d) := by
  cases h with
  | literal t₀ _ h =>
    have hle := h.length_le
    simp only [quoted, List.length_append]
    refine ⟨by omega, fun he => ?_⟩
    -- a piece as long as what it denotes denotes itself, and nothing else
    have hself : Verbatim t₀ := hle.2 (by omega)
    have hone := (literal_complete h [] (by simp)).symm.trans (literal_complete (denotes_self t₀ hself) [] (by simp))
    obtain rfl : d = t₀ := by simpa using hone
    exact hself

/-! ## When a message is tolerated -/

section Tolerance

variable (tableName : Bytes) (columns : List Bytes) (cls : Class) (msg : Message)
  (ht : cls.tableName = some tableName)

/-- the text of the column's field, if it has one -/
def fieldText (msg : Message) (c : Bytes) : Bytes := (concatArg (get msg.fields c)).getD []

include ht in
/-- the upsert of the object built from the message -/
theorem sentSql_c2sObject :
    sentSql (insertOnDuplicate (c2sObject cls columns msg.fields)) =
      insertSql tableName columns cls.primaryKeys (c2sObject cls columns msg.fields).index :=
  sentSql_insert (c2sObject cls columns msg.fields) tableName columns ht (columns_c2sObject cls _ msg)

include ht in
/-- with a text for every column, the upsert of those texts is sent -/
theorem sentSql_fieldTexts (hc : columns ≠ []) (htext : ∀ c ∈ columns, concatArg (get msg.fields c) = some (fieldText msg c)) :
    sentSql (insertOnDuplicate (c2sObject cls columns msg.fields)) =
      some (upsertHead tableName columns (fieldText msg) ++
        assignments (fieldText msg) (nonKeys columns cls.primaryKeys) ++ ascii ";") := by
  rw [sentSql_c2sObject tableName columns cls msg ht]
  exact insertSql_text tableName columns cls.primaryKeys _ (fieldText msg) hc fun c h =>
    (concatArg_c2sObject cls columns msg c).trans (htext c h)

/-- no way to write the cells is shorter than the texts between quotes -/
theorem length_upsertHead_le (v inserted : Bytes → Bytes) (hc : columns ≠ [])
    (hcells : ∀ c ∈ columns, CellText (some (v c)) (inserted c)) :
    (upsertHead tableName columns v).length ≤ (cellsHead tableName columns inserted).length := by
  have hsum := List.sum_le_sum fun c h => (length_cellText (hcells c h)).1
  have hquoted := length_joined (ascii ",") (fun c => quoted (v c)) columns hc
  have hinserted := length_joined (ascii ",") inserted columns hc
  simp only [upsertHead, cellsHead, List.length_append]
  omega

/-- without something to assign, the keyword of the text sent is cut -/
theorem not_storesCells_cut (keys : List Bytes) (v : Bytes → Bytes) (hc : columns ≠ []) (hu : nonKeys columns keys = []) :
    ¬ StoresCells tableName columns keys (fun c => some (v c)) (upsertHead tableName columns v ++ ascii "UPDAT;") := by
  rintro ⟨inserted, assigned, hcells, -, hkeyword⟩
  obtain ⟨separators, -, heq⟩ := hkeyword hu
  have hhead := length_upsertHead_le tableName columns v inserted hc fun c h => (hcells c h).1
  have hlen := congrArg List.length heq
  have hcut : (ascii "UPDAT;").length = 6 := rfl
  have hword : (ascii "UPDATE").length = 6 := rfl
  simp only [List.length_append] at hlen
  rw [List.append_assoc] at heq
  have htail := (List.append_inj heq (by omega)).2
  have hprefix : ascii "UPDATE" <+: ascii "UPDAT;" := ⟨separators, htail.symm⟩
  exact absurd hprefix (by decide +kernel)

/-- texts sent as they are, which write cells that denote them, are verbatim -/
theorem verbatim_of_storesCells (keys : List Bytes) (v : Bytes → Bytes) (hc : columns ≠ []) (hu : nonKeys columns keys ≠ [])
    (h : StoresCells tableName columns keys (fun c => some (v c))
      (upsertText tableName columns (nonKeys columns keys) v)) : ∀ c ∈ columns, Verbatim (v c) := by
  obtain ⟨inserted, assigned, hcells, htext, -⟩ := h
  have hlen := congrArg List.length (htext hu)
  have hsub : ∀ c ∈ nonKeys columns keys, c ∈ columns := fun c h => List.mem_of_mem_filter h
  -- the two texts differ in their cells only
  have hins := length_joined (ascii ",") inserted columns hc
  have hins' := length_joined (ascii ",") (fun c => quoted (v c)) columns hc
  have hass := length_joined (ascii ", ") (assignment assigned) _ hu
  have hass' := length_joined (ascii ", ") (equality v) _ hu
  have hle : ∀ c ∈ columns, (quoted (v c)).length ≤ (inserted c).length := fun c h => (length_cellText (hcells c h).1).1
  have hle' : ∀ c ∈ nonKeys columns keys, (equality v c).length ≤ (assignment assigned c).length := by
    intro c h
    have hcell := (length_cellText (hcells c (hsub c h)).2).1
    simp only [equality, assignment, List.length_append]
    omega
  have hsum' := List.sum_le_sum hle'
  simp only [upsertText, upsertHead, cellsHead, List.length_append] at hlen
  have hsum : (columns.map fun c => (inserted c).length).sum ≤ (columns.map fun c => (quoted (v c)).length).sum := by
    omega
  intro c hmem
  exact (length_cellText (hcells c hmem).1).2 (eq_of_sum_le _ _ columns hle hsum c hmem)

include ht in
theorem writable_of_tolerated (oracle : ℕ → (q : Request) → Reply q) (n : ℕ) (hc : columns ≠ [])
    (hcolumns : columnsAt oracle n tableName = some columns) (h : Tolerated tableName columns cls msg oracle n) :
    (∀ c ∈ columns, Writable (get msg.fields c)) ∧ ∃ c ∈ columns, c ∉ cls.primaryKeys := by
  obtain ⟨o, sql, hnew, hsql, hcells⟩ := h
  rw [exec_newC2sObject cls oracle tableName ht, hcolumns] at hnew
  cases hnew
  -- the text was written down, so every column has a text
  have htext : ∀ c ∈ columns, concatArg (get msg.fields c) = some (fieldText msg c) := by
    intro c hmem
    have hsent := hsql
    rw [sentSql_c2sObject tableName columns cls msg ht] at hsent
    have hsome := (insertSql_isSome tableName columns cls.primaryKeys _).1 (by rw [hsent]; rfl) c hmem
    rw [concatArg_c2sObject] at hsome
    obtain ⟨text, htext⟩ := Option.isSome_iff_exists.1 hsome
    rw [fieldText, htext, Option.getD_some]
  rw [sentSql_fieldTexts tableName columns cls msg ht hc htext, Option.some.injEq] at hsql
  have hcell : ∀ c ∈ columns, cellOf (get msg.fields c) = some (fieldText msg c) := fun c h => cellOf_eq (htext c h)
  have hstores : StoresCells tableName columns cls.primaryKeys (fun c => some (fieldText msg c)) sql := by
    obtain ⟨inserted, assigned, hwritten, hrest⟩ := hcells
    refine ⟨inserted, assigned, fun c h => ?_, hrest⟩
    simpa only [hcell c h] using hwritten c h
  rw [← nonKeys_ne_nil_iff]
  by_cases hu : nonKeys columns cls.primaryKeys = []
  · rw [← hsql, hu, assignments_nil] at hstores
    exact absurd hstores (not_storesCells_cut tableName columns _ _ hc hu)
  · rw [← hsql, assignments_of_ne _ _ _ _ hu] at hstores
    have hverb := verbatim_of_storesCells tableName columns cls.primaryKeys (fieldText msg) hc hu hstores
    exact ⟨fun c h => (writable_iff _).2 ⟨_, htext c h, hverb c h⟩, hu⟩

include ht in
theorem tolerated_of_writable (oracle : ℕ → (q : Request) → Reply q) (n : ℕ) (hc : columns ≠ [])
    (hcolumns : columnsAt oracle n tableName = some columns) (hw : ∀ c ∈ columns, Writable (get msg.fields c))
    (hne : ∃ c ∈ columns, c ∉ cls.primaryKeys) : Tolerated tableName columns cls msg oracle n := by
  have htext : ∀ c ∈ columns, concatArg (get msg.fields c) = some (fieldText msg c) ∧ Verbatim (fieldText msg c) := by
    intro c hmem
    obtain ⟨text, htext, hverb⟩ := (writable_iff _).1 (hw c hmem)
    rw [fieldText, htext, Option.getD_some]
    exact ⟨rfl, hverb⟩
  have hu : nonKeys columns cls.primaryKeys ≠ [] := (nonKeys_ne_nil_iff _ _).2 hne
  have hsql := sentSql_fieldTexts tableName columns cls msg ht hc fun c h => (htext c h).1
  rw [assignments_of_ne _ _ _ _ hu] at hsql
  refine ⟨c2sObject cls columns msg.fields, _, ?_, hsql, fun c => quoted (fieldText msg c),
    fun c => quoted (fieldText msg c), ?_, fun _ => rfl, fun hnil => absurd hnil hu⟩
  · rw [exec_newC2sObject cls oracle tableName ht, hcolumns]
    rfl
  · intro c hmem
    have hcell : CellText (cellOf (get msg.fields c)) (quoted (fieldText msg c)) := by
      rw [cellOf_eq (htext c hmem).1]
      exact .literal _ _ (denotes_self _ (htext c hmem).2)
    exact ⟨hcell, hcell⟩

/-- **When a message is tolerated.** For every class with a table, every message and all replies of the services that
report columns of the table: exactly if each column is carried, as a number or as a verbatim string, and some column is
no primary key. -/
theorem optional_fields_iff (oracle : ℕ → (q : Request) → Reply q) (n : ℕ) (ht : cls.tableName = some tableName)
    (hc : columns ≠ []) (hcolumns : columnsAt oracle n tableName = some columns) :
    Tolerated tableName columns cls msg oracle n ↔
      (∀ c ∈ columns, Writable (get msg.fields c)) ∧ ∃ c ∈ columns, c ∉ cls.primaryKeys := by
  apply Iff.intro
  · intro h
    exact writable_of_tolerated tableName columns cls msg ht oracle n hc hcolumns h
  · intro h
    exact tolerated_of_writable tableName columns cls msg ht oracle n hc hcolumns h.1 h.2

end Tolerance

/-- the columns of the table of logins -/
def loginColumns : List Bytes :=
  [ascii "user_id", ascii "user_account", ascii "device_identifier", ascii "client_version", ascii "client_app_name"]

/-- services that report the columns of the table to every statement -/
def reportsColumns : ℕ → (q : Request) → Reply q
  | _, .query _ => DbReply.rows (loginColumns.map fun c => [(ascii "Field", .str c)])
  | _, .redisGet _ => RedisReply.failed
  | _, .redisSet _ _ => false

theorem columnsAt_reportsColumns : columnsAt reportsColumns 0 (ascii "user_login") = some loginColumns := by
  decide +kernel

/-- a LoginRequest that carries all columns, and the timestamp, which is none -/
def fullLogin : Message where
  fields := [(ascii "timestamp", .str (ascii "0")), (ascii "user_id", .str (ascii "7")),
    (ascii "user_account", .str (ascii "ann")), (ascii "device_identifier", .str (ascii "d")),
    (ascii "client_version", .str (ascii "1.0")), (ascii "client_app_name", .str (ascii "music"))]
  nodup := by decide +kernel
  foreign := by decide +kernel

theorem optional_fields_full :
    LoginRequestObject.tableName = some (ascii "user_login") ∧
      columnsAt reportsColumns 0 (ascii "user_login") = some loginColumns ∧
      Tolerated (ascii "user_login") loginColumns LoginRequestObject fullLogin reportsColumns 0 :=
  ⟨rfl, columnsAt_reportsColumns, (optional_fields_iff (ascii "user_login") loginColumns LoginRequestObject fullLogin
    reportsColumns 0 rfl (by decide) columnsAt_reportsColumns).2 ⟨by decide +kernel, ascii "user_account", by decide,
      by decide⟩⟩

/-- a LoginRequest that carries the primary key, and leaves out the account -/
def withoutAccount : Message where
  fields := [(ascii "user_id", .str (ascii "7")), (ascii "device_identifier", .str (ascii "d")),
    (ascii "client_version", .str (ascii "1.0")), (ascii "client_app_name", .str (ascii "music"))]
  nodup := by decide +kernel
  foreign := by decide +kernel

/-- **A login without an account name raises**: the object is built, and its upsert concatenates nil. -/
theorem missing_account_raises :
    (newLoginRequestObject withoutAccount.fields).exec reportsColumns 0 =
        some (c2sObject LoginRequestObject loginColumns withoutAccount.fields, 1) ∧
      (insertOnDuplicate (c2sObject LoginRequestObject loginColumns withoutAccount.fields)).exec reportsColumns 1 =
        none ∧
      ¬ Tolerated (ascii "user_login") loginColumns LoginRequestObject withoutAccount reportsColumns 0 := by
  refine ⟨?_, ?_, ?_⟩
  · rw [newLoginRequestObject_eq, exec_newC2sObject LoginRequestObject reportsColumns (ascii "user_login") rfl,
      columnsAt_reportsColumns]
    rfl
  · have hnone : insertSql (ascii "user_login") loginColumns [ascii "user_id"]
        (c2sObject LoginRequestObject loginColumns withoutAccount.fields).index = none := by decide +kernel
    rw [exec_insertOnDuplicate reportsColumns _ (ascii "user_login") rfl, columns_c2sObject, Option.bind_some]
    exact congrArg (Option.map _) hnone
  · intro h
    have hwritable := writable_of_tolerated (ascii "user_login") loginColumns LoginRequestObject withoutAccount rfl
      reportsColumns 0 (by decide) columnsAt_reportsColumns h
    exact absurd (hwritable.1 (ascii "user_account") (by decide)) (by decide +kernel)

end OwliesServer.ObjectBase
