/-
The texts of the two statements of object_base.lua, compared with the texts they stand for: lists joined by separators.

- `insertSql_text`, `selectSql_text`: the texts sent, for every table, column list and key list.
- `upsert_text_iff`: the upsert is the intended statement exactly if some column is no primary key. The last two bytes
  are cut off even if no assignment was written; then they belong to the keyword UPDATE.
-/
import OwliesServer.Core.Separated
import OwliesServer.Data.SqlStructure

namespace OwliesServer.ObjectBase

open OwliesServer.CChar OwliesServer.LuaTable OwliesServer.Separated

/-! ## The intended texts -/

/-- 'v' -/
def quoted (v : Bytes) : Bytes := ascii "'" ++ v ++ ascii "'"

/-- c = 'v' -/
def equality (v : Bytes → Bytes) (c : Bytes) : Bytes := c ++ ascii " = " ++ quoted (v c)

/-- the upsert up to its keyword UPDATE -/
def upsertHead (tableName : Bytes) (columns : List Bytes) (v : Bytes → Bytes) : Bytes :=
  ascii "INSERT INTO " ++ tableName ++ ascii " VALUES (" ++
    (ascii ",").intercalate (columns.map fun c => quoted (v c)) ++ ascii ") ON DUPLICATE KEY "

/-- the upsert, with the columns to assign -/
def upsertText (tableName : Bytes) (columns updates : List Bytes) (v : Bytes → Bytes) : Bytes :=
  upsertHead tableName columns v ++ ascii "UPDATE " ++ (ascii ", ").intercalate (updates.map (equality v)) ++ ascii ";"

/-- the columns that belong to no primary key -/
def nonKeys (columns primaryKeys : List Bytes) : List Bytes := columns.filter (· ∉ primaryKeys)

/-- the intended upsert: the full text if there is something to assign; else all its keywords, and behind them nothing
but separators -/
def Intended (tableName : Bytes) (columns primaryKeys : List Bytes) (v : Bytes → Bytes) (sql : Option Bytes) : Prop :=
  (nonKeys columns primaryKeys ≠ [] → sql = some (upsertText tableName columns (nonKeys columns primaryKeys) v)) ∧
    (nonKeys columns primaryKeys = [] → ∃ separators : Bytes, (∀ b ∈ separators, b ∈ ascii " ,;") ∧
      sql = some (upsertHead tableName columns v ++ ascii "UPDATE" ++ separators))

/-! ## The texts sent -/

theorem columnsToUpdate_eq (columns primaryKeys : List Bytes) :
    columnsToUpdate columns primaryKeys = nonKeys columns primaryKeys := by
  unfold columnsToUpdate nonKeys
  congr 1
  funext c
  have hmem : (∀ k ∈ primaryKeys, ¬ k = c) ↔ c ∉ primaryKeys :=
    ⟨fun h hc => h c hc rfl, fun h k hk he => h (he ▸ hk)⟩
  rw [Bool.eq_iff_iff]
  simpa using hmem

theorem cutTail_append (s sep : Bytes) : cutTail sep.length (s ++ sep) = s := by
  simp [cutTail]

/-- the values written one by one, without the last separator -/
theorem cutTail_flatMap {β : Type} (sql sep : Bytes) (item : β → Bytes) (l : List β) (h : l ≠ []) :
    cutTail sep.length (sql ++ l.flatMap fun x => item x ++ sep) = sql ++ sep.intercalate (l.map item) := by
  rw [flatMap_intercalate sep item l h, ← List.append_assoc, cutTail_append]

section Text

variable (tableName : Bytes) (columns primaryKeys : List Bytes) (self : Bytes → Option Value) (v : Bytes → Bytes)

/-- the assignments written one by one are cut by two bytes in any case: by ", ", or by the end of the keyword -/
def assignments (updates : List Bytes) : Bytes :=
  if updates = [] then ascii "UPDAT" else ascii "UPDATE " ++ (ascii ", ").intercalate (updates.map (equality v))

theorem cutTail_assignments (head : Bytes) (updates : List Bytes) :
    cutTail 2 (head ++ ascii "UPDATE " ++ updates.flatMap fun c => equality v c ++ ascii ", ") =
      head ++ assignments v updates := by
  by_cases h : updates = []
  · rw [assignments, if_pos h, h, List.flatMap_nil, List.append_nil]
    exact cutTail_append (head ++ ascii "UPDAT") (ascii "E ") ▸ by simp [ascii]
  · rw [assignments, if_neg h, ← List.append_assoc]
    exact cutTail_flatMap (head ++ ascii "UPDATE ") (ascii ", ") (equality v) updates h

/-- with something to assign, the text is the intended one -/
theorem assignments_of_ne (updates : List Bytes) (h : updates ≠ []) :
    upsertHead tableName columns v ++ assignments v updates ++ ascii ";" = upsertText tableName columns updates v := by
  rw [assignments, if_neg h, upsertText]
  simp only [List.append_assoc]

/-- without, the keyword has lost its last letter -/
theorem assignments_nil :
    upsertHead tableName columns v ++ assignments v [] ++ ascii ";" =
      upsertHead tableName columns v ++ ascii "UPDAT;" := by
  rw [assignments, if_pos rfl, List.append_assoc]
  rfl

/-- **The text of the upsert.** -/
theorem insertSql_text (hc : columns ≠ []) (hv : ∀ c ∈ columns, concatArg (self c) = some (v c)) :
    insertSql tableName columns primaryKeys self =
      some (upsertHead tableName columns v ++ assignments v (nonKeys columns primaryKeys) ++ ascii ";") := by
  have hvalues := foldlM_append (fun sql c => do
      let value ← concatArg (self c)
      some (sql ++ ascii "'" ++ value ++ ascii "',")) (fun c => quoted (v c) ++ ascii ",") columns
    (ascii "INSERT INTO " ++ tableName ++ ascii " VALUES (") fun sql c h => by
      simp [hv c h, quoted, ascii_quote, ascii_quote_comma]
  have hupdates := fun sql => foldlM_append (fun sql c => do
      let value ← concatArg (self c)
      some (sql ++ c ++ ascii " = '" ++ value ++ ascii "', ")) (fun c => equality v c ++ ascii ", ")
    (nonKeys columns primaryKeys) sql fun sql c h => by
      simp [hv c (List.mem_of_mem_filter h), equality, quoted, ascii_assign, ascii_quote, ascii_quote_comma_blank]
  have hcut1 : cutTail 1 (ascii "INSERT INTO " ++ tableName ++ ascii " VALUES (" ++
      columns.flatMap fun c => quoted (v c) ++ ascii ",") =
      ascii "INSERT INTO " ++ tableName ++ ascii " VALUES (" ++
        (ascii ",").intercalate (columns.map fun c => quoted (v c)) :=
    cutTail_flatMap _ (ascii ",") (fun c => quoted (v c)) columns hc
  have hcut2 := cutTail_assignments v (upsertHead tableName columns v) (nonKeys columns primaryKeys)
  have hkeywords : ascii ") ON DUPLICATE KEY UPDATE " = ascii ") ON DUPLICATE KEY " ++ ascii "UPDATE " := rfl
  simp only [insertSql, columnsToUpdate_eq, Option.bind_eq_bind] at hvalues hupdates ⊢
  rw [hvalues, Option.bind_some, hupdates, Option.bind_some, hcut1, hkeywords, ← List.append_assoc, ← upsertHead, hcut2]

/-- the conditions as the lookup writes them: AND behind the second up to the last but two -/
def whereClause : Bytes :=
  (primaryKeys.zipIdx 1).flatMap fun key =>
    equality v key.1 ++ if 2 ≤ key.2 ∧ key.2 + 1 < primaryKeys.length then ascii "AND " else []

/-- **The text of the lookup.** -/
theorem selectSql_text (hv : ∀ key ∈ primaryKeys, concatArg (self key) = some (v key)) :
    selectSql tableName primaryKeys self =
      some (ascii "SELECT * FROM " ++ tableName ++ ascii " WHERE " ++ whereClause primaryKeys v ++ ascii ";") := by
  have hkeys := foldlM_append (fun sql (key : Bytes × ℕ) => do
      let value ← concatArg (self key.1)
      let sql := sql ++ key.1 ++ ascii " = '" ++ value ++ ascii "'"
      some (if 2 ≤ key.2 ∧ key.2 + 1 < primaryKeys.length then sql ++ ascii "AND " else sql))
    (fun key => equality v key.1 ++ if 2 ≤ key.2 ∧ key.2 + 1 < primaryKeys.length then ascii "AND " else [])
    (primaryKeys.zipIdx 1) (ascii "SELECT * FROM " ++ tableName ++ ascii " WHERE ") fun sql key h => by
      rw [hv key.1 (List.fst_mem_of_mem_zipIdx h)]
      split_ifs <;> simp [equality, quoted, ascii_assign, ascii_quote]
  simp only [selectSql, Option.bind_eq_bind] at hkeys ⊢
  rw [hkeys, Option.bind_some, whereClause]

end Text

/-! ## When the upsert is the intended one -/

theorem nonKeys_ne_nil_iff (columns primaryKeys : List Bytes) :
    nonKeys columns primaryKeys ≠ [] ↔ ∃ c ∈ columns, c ∉ primaryKeys := by
  simp [nonKeys, List.filter_eq_nil_iff]

/-- **When the upsert is the intended statement.** For every table, non-empty column list and key list, and every object
that holds a string for each column: exactly if some column is no primary key. -/
theorem upsert_text_iff (o : Obj) (tableName : Bytes) (columns : List Bytes) (v : Bytes → Bytes)
    (ht : o.cls.tableName = some tableName) (hl : o.columns = some columns) (hc : columns ≠ [])
    (hv : ∀ c ∈ columns, o.index c = some (.str (v c))) :
    Intended tableName columns o.cls.primaryKeys v (sentSql (insertOnDuplicate o)) ↔
      ∃ c ∈ columns, c ∉ o.cls.primaryKeys := by
  rw [sentSql_insert o tableName columns ht hl, insertSql_text tableName columns _ o.index v hc
    fun c h => concatArg_str (hv c h),
    ← nonKeys_ne_nil_iff]
  apply Iff.intro
  · rintro ⟨-, hkeywords⟩ hnil
    obtain ⟨separators, -, heq⟩ := hkeywords hnil
    rw [hnil, Option.some.injEq, assignments_nil, List.append_assoc] at heq
    exact absurd (List.append_cancel_left heq) (by simp [ascii])
  · intro hne
    refine ⟨fun _ => ?_, fun hnil => absurd hnil hne⟩
    rw [assignments_of_ne tableName columns v _ hne]

/-- a login that carries its two columns -/
theorem upsert_text_login :
    (loginOf (ascii "ann")).columns = some [ascii "user_id", ascii "user_account"] ∧
      Intended (ascii "user_login") [ascii "user_id", ascii "user_account"] [ascii "user_id"] (loginValues (ascii "ann"))
        (sentSql (insertOnDuplicate (loginOf (ascii "ann")))) :=
  ⟨rfl, (upsert_text_iff (loginOf (ascii "ann")) (ascii "user_login") _ (loginValues (ascii "ann")) rfl rfl (by decide)
    (by decide)).2 ⟨ascii "user_account", by decide, by decide⟩⟩

/-- a table of key columns only: a friendship -/
def friendOf (user friend : Bytes) : Obj :=
  ⟨⟨ascii "friend", some (ascii "user_friend"), [ascii "user_id", ascii "friend_id"], ascii "friend"⟩,
    [(ascii "columns", .list [ascii "user_id", ascii "friend_id"]), (ascii "user_id", .str user),
      (ascii "friend_id", .str friend)]⟩

/-- **A table of key columns only loses the E of UPDATE.** -/
theorem upsert_keyword_cut :
    sentSql (insertOnDuplicate (friendOf (ascii "1") (ascii "2"))) =
        some (ascii "INSERT INTO user_friend VALUES ('1','2') ON DUPLICATE KEY UPDAT;") ∧
      ¬ Intended (ascii "user_friend") [ascii "user_id", ascii "friend_id"] [ascii "user_id", ascii "friend_id"]
        (fun c => if c = ascii "user_id" then ascii "1" else ascii "2")
        (sentSql (insertOnDuplicate (friendOf (ascii "1") (ascii "2")))) := by
  have hsent : sentSql (insertOnDuplicate (friendOf (ascii "1") (ascii "2"))) =
    some (ascii "INSERT INTO user_friend VALUES ('1','2') ON DUPLICATE KEY UPDAT;") := by decide +kernel
  refine ⟨hsent, ?_⟩
  rintro ⟨-, hkeywords⟩
  obtain ⟨separators, -, heq⟩ := hkeywords (by decide)
  rw [hsent, Option.some.injEq] at heq
  simp [upsertHead, quoted, ascii, List.intercalate] at heq

end OwliesServer.ObjectBase
