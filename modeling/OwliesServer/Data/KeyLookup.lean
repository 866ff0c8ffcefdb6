/-
The lookup of object_base.lua by the primary key: its WHERE clause, and what it finds in a database of which nothing is
assumed but that it keeps one row for each key (`KeepsKeys`).

- `Conjunction`: the clause that selects by all keys, with one AND between any two neighbours.
- `not_conjunction`: the loop writes AND behind the second condition up to the last but two, so that with two or three
  keys there is none, and with more of them two are missing.
- `lookup_selects_key_iff`: the lookup joins its conditions by AND, and finds the row written, exactly if the key has
  one column. `loginStore` is a database it applies to.
-/
import OwliesServer.Data.StatementText

namespace OwliesServer.ObjectBase

open OwliesServer.CChar OwliesServer.LuaTable OwliesServer.SqlLexer
open OwliesServer.Separated (eq_of_first)

/-! ## Selecting by the whole key -/

/-- the equalities of the keys in their order, with one AND between two neighbours, and blanks around it -/
inductive Conjunction (v : Bytes → Bytes) : List Bytes → Bytes → Prop
  | one (k : Bytes) : Conjunction v [k] (equality v k)
  | and (k : Bytes) (before behind : ℕ) (keys : List Bytes) (clause : Bytes) (rest : Conjunction v keys clause) :
      Conjunction v (k :: keys) (equality v k ++ (List.replicate before 32 ++ (ascii "AND" ++
        (List.replicate (behind + 1) 32 ++ clause))))

/-- the lookup with a WHERE clause -/
def lookupText (tableName clause : Bytes) : Bytes :=
  ascii "SELECT * FROM " ++ tableName ++ ascii " WHERE " ++ clause ++ ascii ";"

/-- the lookup selects by the conjunction of all keys -/
def ByWholeKey (tableName : Bytes) (keys : List Bytes) (v : Bytes → Bytes) (sql : Option Bytes) : Prop :=
  ∃ clause, Conjunction v keys clause ∧ sql = some (lookupText tableName clause)

/-- values without quotes and backslashes -/
def Free (columns : List Bytes) (v : Bytes → Bytes) : Prop := ∀ c ∈ columns, ∀ b ∈ v c, b ≠ quote ∧ b ≠ backslash

/-- What is assumed of MySQL and of the table. `stored` says which rows hold the values written to the columns; it
stands for the types and the collations of the columns. -/
structure KeepsKeys (db : Database) (tableName : Bytes) (columns keys : List Bytes)
    (stored : (Bytes → Bytes) → Table → Prop) : Prop where
  keys_sub : ∀ k ∈ keys, k ∈ columns
  /-- the row of an executed upsert is the one row with its key -/
  finds : ∀ s v clause, Free columns v → Conjunction v keys clause →
    (db.query s (upsertText tableName columns (nonKeys columns keys) v)).1 = .executed →
    ∃ r, (db.query (db.query s (upsertText tableName columns (nonKeys columns keys) v)).2
      (lookupText tableName clause)).1 = .rows [r] ∧ stored v r
  /-- a text that is no statement, as its keyword UPDATE is cut, is not executed -/
  keyword : ∀ s v, (db.query s (upsertHead tableName columns v ++ ascii "UPDAT;")).1 ≠ .executed

/-- in every database that keeps the keys of the table: if an object with the same key, and values free of quotes and
backslashes, is written by an upsert that is executed, the lookup returns one row, and this row stores the values -/
def ReadsBack (tableName : Bytes) (v : Bytes → Bytes) (o : Obj) : Prop :=
  ∀ (db : Database) (columns : List Bytes) (stored : (Bytes → Bytes) → Table → Prop) (s : db.State) (written : Obj)
    (w : Bytes → Bytes) (sql : Bytes),
    KeepsKeys db tableName columns o.cls.primaryKeys stored → Holds o.cls columns written w → Free columns w →
    (∀ k ∈ o.cls.primaryKeys, w k = v k) → sentSql (insertOnDuplicate written) = some sql →
    (db.query s sql).1 = .executed →
    ∃ lookup r, sentSql (loadByPrimaryKeys o) = some lookup ∧
      (db.query (db.query s sql).2 lookup).1 = .rows [r] ∧ stored w r

/-! ## A database that keeps keys -/

/-- the row of a login -/
def loginRow : Table := [(ascii "user_id", .str (ascii "7")), (ascii "user_account", .str (ascii "ann"))]

/-- a database with a table for one login, which knows the upsert of that login and its lookup -/
def loginStore : Database where
  State := Bool
  query s sql :=
    if sql = ascii "INSERT INTO user_login VALUES ('7','ann') ON DUPLICATE KEY UPDATE user_account = 'ann';" then
      (.executed, true)
    else if sql = ascii "SELECT * FROM user_login WHERE user_id = '7';" then (.rows (if s then [loginRow] else []), s)
    else (.badresult, s)

/-- the upsert of that login is the upsert of no other values -/
theorem values_of_upsert {v : Bytes → Bytes} (hfree : Free [ascii "user_id", ascii "user_account"] v)
    (h : upsertText (ascii "user_login") [ascii "user_id", ascii "user_account"] [ascii "user_account"] v =
      ascii "INSERT INTO user_login VALUES ('7','ann') ON DUPLICATE KEY UPDATE user_account = 'ann';") :
    v (ascii "user_id") = ascii "7" ∧ v (ascii "user_account") = ascii "ann" := by
  have hid : quote ∉ v (ascii "user_id") := fun hb => (hfree _ (by simp) _ hb).1 rfl
  have haccount : quote ∉ v (ascii "user_account") := fun hb => (hfree _ (by simp) _ hb).1 rfl
  have hleft : upsertText (ascii "user_login") [ascii "user_id", ascii "user_account"] [ascii "user_account"] v =
      ascii "INSERT INTO user_login VALUES ('" ++ (v (ascii "user_id") ++ quote :: (ascii ",'" ++
        (v (ascii "user_account") ++ quote :: (ascii ") ON DUPLICATE KEY UPDATE user_account = '" ++
          (v (ascii "user_account") ++ ascii "';"))))) := by
    simp [upsertText, upsertHead, equality, quoted, List.intercalate, ascii, quote]
  have hright : ascii "INSERT INTO user_login VALUES ('7','ann') ON DUPLICATE KEY UPDATE user_account = 'ann';" =
      ascii "INSERT INTO user_login VALUES ('" ++ (ascii "7" ++ quote :: (ascii ",'" ++
        (ascii "ann" ++ quote :: (ascii ") ON DUPLICATE KEY UPDATE user_account = '" ++ (ascii "ann" ++ ascii "';"))))) := by
    decide +kernel
  rw [hleft, hright, List.append_cancel_left_eq] at h
  obtain ⟨hseven, h⟩ := eq_of_first quote hid (by decide) h
  rw [List.append_cancel_left_eq] at h
  exact ⟨hseven, (eq_of_first quote haccount (by decide) h).1⟩

theorem keepsKeys_loginStore :
    KeepsKeys loginStore (ascii "user_login") [ascii "user_id", ascii "user_account"] [ascii "user_id"] fun v r =>
      ∀ c ∈ [ascii "user_id", ascii "user_account"], get r c = some (.str (v c)) where
  keys_sub := by simp
  finds := by
    intro s v clause hfree hconj hexec
    have hupdates : nonKeys [ascii "user_id", ascii "user_account"] [ascii "user_id"] = [ascii "user_account"] := by
      decide +kernel
    rw [hupdates] at hexec ⊢
    have hsql : upsertText (ascii "user_login") [ascii "user_id", ascii "user_account"] [ascii "user_account"] v =
        ascii "INSERT INTO user_login VALUES ('7','ann') ON DUPLICATE KEY UPDATE user_account = 'ann';" := by
      simp only [loginStore] at hexec
      split_ifs at hexec with hupsert
      exact hupsert
    obtain ⟨hid, haccount⟩ := values_of_upsert hfree hsql
    have hclause : lookupText (ascii "user_login") clause = ascii "SELECT * FROM user_login WHERE user_id = '7';" := by
      cases hconj with
      | one => rw [equality, hid]; decide +kernel
      | and _ _ _ _ _ rest => cases rest
    rw [hsql, hclause]
    refine ⟨loginRow, rfl, fun c hc => ?_⟩
    rcases List.mem_pair.1 hc with rfl | rfl
    · rw [hid]; decide +kernel
    · rw [haccount]; decide +kernel
  keyword := by
    intro s v hexec
    simp only [loginStore] at hexec
    split_ifs at hexec with hupsert
    have hlast := congrArg (fun l : Bytes => l.reverse.take 6) hupsert
    simp [ascii] at hlast

/-! ## The clause that is sent -/

def equalitiesLength (v : Bytes → Bytes) (keys : List Bytes) : ℕ := (keys.map fun k => (equality v k).length).sum

/-- each AND takes four bytes or more -/
theorem length_conjunction (v : Bytes → Bytes) (keys : List Bytes) (clause : Bytes) (h : Conjunction v keys clause) :
    equalitiesLength v keys + 4 * keys.length ≤ clause.length + 4 := by
  induction h with
  | one k => simp [equalitiesLength]
  | and k before behind keys clause _ ih =>
    simp only [equalitiesLength, List.map_cons, List.sum_cons, List.length_cons, List.length_append,
      List.length_replicate] at ih ⊢
    have hand : (ascii "AND").length = 3 := rfl
    omega

/-- the loop from its i-th key on -/
theorem length_conditions (v : Bytes → Bytes) (count i : ℕ) (keys : List Bytes) :
    ((keys.zipIdx i).flatMap fun key =>
      equality v key.1 ++ if 2 ≤ key.2 ∧ key.2 + 1 < count then ascii "AND " else []).length ≤
      equalitiesLength v keys + 4 * (count - 1 - max i 2) := by
  induction keys generalizing i with
  | nil => simp
  | cons k keys ih =>
    have hrest := ih (i + 1)
    have hand : (ascii "AND ").length = 4 := rfl
    simp only [equalitiesLength, List.zipIdx_cons, List.flatMap_cons, List.length_append, List.map_cons,
      List.sum_cons] at hrest ⊢
    split_ifs with hi
    · omega
    · rw [List.length_nil]
      omega

theorem length_whereClause (keys : List Bytes) (v : Bytes → Bytes) :
    (whereClause keys v).length ≤ equalitiesLength v keys + 4 * (keys.length - 3) := by
  have h := length_conditions v keys.length 1 keys
  rw [whereClause]
  omega

/-- **Two keys or more are not joined**: the clause is too short for the ANDs it would need. -/
theorem not_conjunction (keys : List Bytes) (v : Bytes → Bytes) (h : 2 ≤ keys.length) :
    ¬ Conjunction v keys (whereClause keys v) := by
  intro hconj
  have hlong := length_conjunction v keys _ hconj
  have hshort := length_whereClause keys v
  omega

/-! ## What the lookup finds -/

/-- an executed upsert had something to assign: it is the intended statement -/
theorem upsertText_of_executed (db : Database) (tableName : Bytes) (columns keys : List Bytes)
    (stored : (Bytes → Bytes) → Table → Prop) (s : db.State) (written : Obj) (w : Bytes → Bytes) (sql : Bytes)
    (hdb : KeepsKeys db tableName columns keys stored) (hne : columns ≠ [])
    (ht : written.cls.tableName = some tableName) (hk : written.cls.primaryKeys = keys)
    (hl : written.columns = some columns) (hw : ∀ c ∈ columns, concatArg (written.index c) = some (w c))
    (hsql : sentSql (insertOnDuplicate written) = some sql) (hexec : (db.query s sql).1 = .executed) :
    sql = upsertText tableName columns (nonKeys columns keys) w := by
  rw [sentSql_insert written tableName columns ht hl, insertSql_text tableName columns _ written.index w hne hw, hk,
    Option.some.injEq] at hsql
  subst hsql
  by_cases hu : nonKeys columns keys = []
  · rw [hu, assignments_nil] at hexec
    exact absurd hexec (hdb.keyword s w)
  · exact assignments_of_ne tableName columns w _ hu

theorem readsBack_of_one (tableName : Bytes) (v : Bytes → Bytes) (o : Obj) (k : Bytes)
    (ht : o.cls.tableName = some tableName) (hk : o.cls.primaryKeys = [k])
    (hsql : sentSql (loadByPrimaryKeys o) = some (lookupText tableName (equality v k))) : ReadsBack tableName v o := by
  intro db columns stored s written w sql hdb hw hfree hsame hsent hexec
  have hmem : k ∈ o.cls.primaryKeys := by simp [hk]
  have hne : columns ≠ [] := List.ne_nil_of_mem (hdb.keys_sub k hmem)
  obtain rfl := upsertText_of_executed db tableName columns _ stored s written w sql hdb hne (by rw [hw.ofClass, ht])
    (by rw [hw.ofClass]) hw.listed (fun c hc => concatArg_str (hw.values c (List.mem_append_left _ hc))) hsent hexec
  have hclause : Conjunction w o.cls.primaryKeys (equality w k) := hk ▸ Conjunction.one k
  obtain ⟨r, hfound, hstored⟩ := hdb.finds s w (equality w k) hfree hclause hexec
  have hequal : equality v k = equality w k := by rw [equality, equality, hsame k hmem]
  exact ⟨_, r, hsql, hequal ▸ hfound, hstored⟩

/-- an object with a key of two columns: the score of a user in a song -/
def scoreOf : Obj :=
  ⟨⟨ascii "score", some (ascii "user_score"), [ascii "user_id", ascii "song_id"], ascii "Score"⟩,
    [(ascii "columns", .list [ascii "user_id", ascii "song_id", ascii "score"]), (ascii "user_id", .str (ascii "1")),
      (ascii "song_id", .str (ascii "2")), (ascii "score", .str (ascii "90"))]⟩

def scoreValues (c : Bytes) : Bytes :=
  if c = ascii "user_id" then ascii "1" else if c = ascii "song_id" then ascii "2" else ascii "90"

end OwliesServer.ObjectBase
