/-
What the SQL texts of the object layer mean to MySQL. `insertStatement` and `selectStatement` are the statements with
parameters that `insertOnDuplicate` and `loadByPrimaryKeys` are for, built along the loops of the source; the texts
sent are these statements with the values written into them (`insertSql_eq`, `selectSql_eq`).

- `params_insertStatement`, `params_selectStatement`: which value goes where: all columns, then the columns that are
  no primary keys; all primary keys.
- `sql_structure_iff`: the texts of two objects have one structure, each literal denoting its value, for all values
  without single quotes and without backslashes outside the pairs `\%` and `\_`, exactly when MySQL reads the names in
  the text as closed; and then for no other values.
- `quoted_account_breaks_out`: an account name with a quote in it adds an assignment to the upsert.
-/
import OwliesServer.Core.Prepared
import OwliesServer.Data.ObjectBase

namespace OwliesServer.ObjectBase

open OwliesServer.CChar OwliesServer.LuaTable OwliesServer.SqlLexer

/-! ## The statements -/

def insertStatement (tableName : Bytes) (columns primaryKeys : List Bytes) : Prepared Bytes :=
  let values := columns.foldl (fun p column => (p.param column).append (ascii ","))
    (Prepared.lit (ascii "INSERT INTO " ++ tableName ++ ascii " VALUES ("))
  let updates := (columnsToUpdate columns primaryKeys).foldl
    (fun p column => ((p.append (column ++ ascii " = ")).param column).append (ascii ", "))
    ((values.cut 1).append (ascii ") ON DUPLICATE KEY UPDATE "))
  (updates.cut 2).append (ascii ";")

/-- the lookup extended by the i-th of `count` keys -/
def selectKey (count : ℕ) (p : Prepared Bytes) (key : Bytes × ℕ) : Prepared Bytes :=
  let p := (p.append (key.1 ++ ascii " = ")).param key.1
  if 2 ≤ key.2 ∧ key.2 + 1 < count then p.append (ascii "AND ") else p

def selectStatement (tableName : Bytes) (primaryKeys : List Bytes) : Prepared Bytes :=
  let keys := (primaryKeys.zipIdx 1).foldl (selectKey primaryKeys.length)
    (Prepared.lit (ascii "SELECT * FROM " ++ tableName ++ ascii " WHERE "))
  keys.append (ascii ";")

/-! ## The texts -/

theorem ascii_quote : ascii "'" = [quote] := rfl
theorem ascii_quote_comma : ascii "'," = quote :: ascii "," := rfl
theorem ascii_quote_comma_blank : ascii "', " = quote :: ascii ", " := rfl
theorem ascii_assign : ascii " = '" = ascii " = " ++ [quote] := rfl

/-- a statement under construction: text between the parameters, and at least n bytes of it behind the last -/
structure Building (n : ℕ) (p : Prepared Bytes) : Prop where
  parted : p.Parted
  room : n ≤ p.last.length

theorem building_lit (n : ℕ) (text : Bytes) (ht : Prepared.Solid text) (hn : n ≤ text.length) :
    Building n (Prepared.lit text) :=
  ⟨⟨by simp [Prepared.lit], ht⟩, hn⟩

/-- a parameter, and text behind it -/
theorem building_param (n k : ℕ) (p : Prepared Bytes) (column more : Bytes) (h : Building n p)
    (hm : Prepared.Solid more) (hk : k ≤ more.length) : Building k ((p.param column).append more) :=
  ⟨⟨Prepared.solid_param h.parted.pieces h.parted.last column, hm⟩, hk⟩

theorem building_append (n : ℕ) (p : Prepared Bytes) (more : Bytes) (h : Building n p) : Building n (p.append more) :=
  ⟨⟨h.parted.pieces, h.parted.last.append_left more⟩, h.room.trans (by simp [Prepared.append])⟩

theorem building_cut_append (n m k : ℕ) (p : Prepared Bytes) (more : Bytes) (h : Building n p)
    (hm : Prepared.Solid more) (hk : k ≤ more.length) : Building k ((p.cut m).append more) :=
  ⟨⟨h.parted.pieces, hm.append_right _⟩, by simp only [Prepared.append, List.length_append]; omega⟩

section Insert

variable (tableName : Bytes) (columns primaryKeys : List Bytes)

/-- the statement before the first and before the second cut -/
theorem building_insert :
    let values := columns.foldl (fun p column => (p.param column).append (ascii ","))
      (Prepared.lit (ascii "INSERT INTO " ++ tableName ++ ascii " VALUES ("))
    Building 1 values ∧ Building 2 ((columnsToUpdate columns primaryKeys).foldl
      (fun p column => ((p.append (column ++ ascii " = ")).param column).append (ascii ", "))
      ((values.cut 1).append (ascii ") ON DUPLICATE KEY UPDATE "))) := by
  intro values
  have hstart : Prepared.Solid (ascii "INSERT INTO " ++ tableName ++ ascii " VALUES (") :=
    Prepared.Solid.append_right (by decide +kernel) _
  have hvalues : Building 1 values :=
    List.foldlRecOn columns _ (building_lit 1 _ hstart (by simp [ascii])) fun p hp column _ =>
      building_param 1 1 p column _ hp (by decide +kernel) (by decide +kernel)
  refine ⟨hvalues, List.foldlRecOn _ _ ?_ fun p hp column _ =>
    building_param 2 2 _ column _ (building_append 2 p _ hp) (by decide +kernel) (by decide +kernel)⟩
  exact building_cut_append 1 1 2 values _ hvalues (by decide +kernel) (by decide +kernel)

theorem parted_insertStatement : (insertStatement tableName columns primaryKeys).Parted :=
  (building_cut_append 2 2 1 _ (ascii ";") (building_insert tableName columns primaryKeys).2 (by decide +kernel)
    (by decide +kernel)).parted

/-- all columns are written; on a duplicate key, those that are no primary keys -/
theorem params_insertStatement :
    (insertStatement tableName columns primaryKeys).params.map Prod.snd =
      columns ++ columnsToUpdate columns primaryKeys := by
  have hfold : ∀ (g : Prepared Bytes → Bytes → Prepared Bytes) (l : List Bytes) (p : Prepared Bytes),
      (∀ p c, (g p c).params.map Prod.snd = p.params.map Prod.snd ++ [c]) →
      (l.foldl g p).params.map Prod.snd = p.params.map Prod.snd ++ l := by
    intro g l p hg
    induction l generalizing p with
    | nil => simp
    | cons c l ih => rw [List.foldl_cons, ih, hg]; simp
  simp only [insertStatement, Prepared.append, Prepared.cut]
  rw [hfold _ _ _ fun p c => by simp [Prepared.param]]
  simp only
  rw [hfold _ _ _ fun p c => by simp [Prepared.param]]
  rfl

/-- **The text of the upsert** is its statement with the values written into it. -/
theorem insertSql_eq (self : Bytes → Option Value) (v : Bytes → Bytes)
    (hv : ∀ column ∈ columns, concatArg (self column) = some (v column)) :
    insertSql tableName columns primaryKeys self = some ((insertStatement tableName columns primaryKeys).text v) := by
  obtain ⟨hvalues, hupdates⟩ := building_insert tableName columns primaryKeys
  have hloop1 := Prepared.foldlM_text (fun sql column =>
      (concatArg (self column)).bind fun value => some (sql ++ ascii "'" ++ value ++ ascii "',"))
    (fun p column => (p.param column).append (ascii ",")) v columns
    (Prepared.lit (ascii "INSERT INTO " ++ tableName ++ ascii " VALUES ("))
    (fun p column hmem => by simp [hv column hmem, ascii_quote, ascii_quote_comma])
  have hloop2 := fun p => Prepared.foldlM_text (fun sql column =>
      (concatArg (self column)).bind fun value => some (sql ++ column ++ ascii " = '" ++ value ++ ascii "', "))
    (fun p column => ((p.append (column ++ ascii " = ")).param column).append (ascii ", ")) v
    (columnsToUpdate columns primaryKeys) p
    (fun p column hmem => by simp [hv column (List.mem_of_mem_filter hmem), ascii_assign, ascii_quote_comma_blank])
  simp only [insertSql, insertStatement, cutTail, Option.bind_eq_bind]
  rw [Prepared.text_lit] at hloop1
  rw [hloop1, Option.bind_some, ← Prepared.text_cut _ 1 v hvalues.room, ← Prepared.text_append,
    hloop2, Option.bind_some, ← Prepared.text_cut _ 2 v hupdates.room, Prepared.text_append]

end Insert

section Select

variable (tableName : Bytes) (primaryKeys : List Bytes)

theorem params_selectKey (count : ℕ) (p : Prepared Bytes) (key : Bytes × ℕ) :
    (selectKey count p key).params.map Prod.snd = p.params.map Prod.snd ++ [key.1] := by
  unfold selectKey
  split_ifs <;> simp [Prepared.append, Prepared.param]

theorem solid_selectKey (count : ℕ) (p : Prepared Bytes) (key : Bytes × ℕ) (hp : ∀ x ∈ p.params, Prepared.Solid x.1) :
    ∀ x ∈ (selectKey count p key).params, Prepared.Solid x.1 := by
  have hassign : Prepared.Solid (p.append (key.1 ++ ascii " = ")).last :=
    (Prepared.Solid.append_right (by decide +kernel) key.1).append_right p.last
  have hparam : ∀ x ∈ ((p.append (key.1 ++ ascii " = ")).param key.1).params, Prepared.Solid x.1 :=
    Prepared.solid_param (p := p.append (key.1 ++ ascii " = ")) hp hassign key.1
  unfold selectKey
  split_ifs
  · exact hparam
  · exact hparam

theorem parted_selectStatement : (selectStatement tableName primaryKeys).Parted := by
  refine ⟨?_, Prepared.Solid.append_right (by decide +kernel) _⟩
  exact List.foldlRecOn (motive := fun p : Prepared Bytes => ∀ x ∈ p.params, Prepared.Solid x.1) _ _
    (by simp [Prepared.lit]) fun p hp key _ => solid_selectKey _ p key hp

theorem params_selectStatement : (selectStatement tableName primaryKeys).params.map Prod.snd = primaryKeys := by
  have hfold : ∀ (count i : ℕ) (l : List Bytes) (p : Prepared Bytes),
      ((l.zipIdx i).foldl (selectKey count) p).params.map Prod.snd = p.params.map Prod.snd ++ l := by
    intro count i l p
    induction l generalizing p i with
    | nil => simp
    | cons key l ih => rw [List.zipIdx_cons, List.foldl_cons, ih, params_selectKey]; simp
  simp only [selectStatement, Prepared.append]
  rw [hfold]
  rfl

/-- **The text of the lookup** is its statement with the values written into it. -/
theorem selectSql_eq (self : Bytes → Option Value) (v : Bytes → Bytes)
    (hv : ∀ key ∈ primaryKeys, concatArg (self key) = some (v key)) :
    selectSql tableName primaryKeys self = some ((selectStatement tableName primaryKeys).text v) := by
  have hloop := Prepared.foldlM_text (fun sql key =>
      (concatArg (self key.1)).bind fun value =>
        some (if 2 ≤ key.2 ∧ key.2 + 1 < primaryKeys.length then
          sql ++ key.1 ++ ascii " = '" ++ value ++ ascii "'" ++ ascii "AND "
        else sql ++ key.1 ++ ascii " = '" ++ value ++ ascii "'"))
    (selectKey primaryKeys.length) v (primaryKeys.zipIdx 1)
    (Prepared.lit (ascii "SELECT * FROM " ++ tableName ++ ascii " WHERE "))
    (fun p key hmem => by
      rw [hv key.1 (List.fst_mem_of_mem_zipIdx hmem), selectKey]
      split_ifs <;> simp [ascii_assign, ascii_quote])
  rw [Prepared.text_lit] at hloop
  simp only [selectSql, selectStatement, Option.bind_eq_bind]
  rw [hloop, Option.bind_some, Prepared.text_append]

end Select

/-! ## Structure and data -/

/-- the text of the statement a procedure sends first -/
def sentSql {α : Type} : Proc α → Option Bytes
  | .call (.query sql) _ => some sql
  | _ => none

/-- an instance of a class: its columns and keys hold the strings `v` -/
structure Holds (cls : Class) (columns : List Bytes) (o : Obj) (v : Bytes → Bytes) : Prop where
  ofClass : o.cls = cls
  listed : o.columns = some columns
  values : ∀ c ∈ columns ++ cls.primaryKeys, o.index c = some (.str (v c))

/-- two texts that lex to the same tokens but for the contents of the string literals, with the literals of the first
denoting `vs` and those of the second `ws` -/
def SameStructure (sql₁ sql₂ : Option Bytes) (vs ws : List Bytes) : Prop :=
  ∃ a b s t, sql₁ = some a ∧ sql₂ = some b ∧ tokenize a = some s ∧ tokenize b = some t ∧
    s.map Token.shape = t.map Token.shape ∧ literals s = vs ∧ literals t = ws

section Statement

variable (p : Prepared Bytes) (names : List Bytes) (hn : p.params.map Prod.snd = names)

include hn in
theorem sameStructure_text_iff (v w : Bytes → Bytes) :
    SameStructure (some (p.text v)) (some (p.text w)) (names.map v) (names.map w) ↔
      ∃ s t, tokenize (p.text v) = some s ∧ tokenize (p.text w) = some t ∧ s.map Token.shape = t.map Token.shape ∧
        literals s = p.values v ∧ literals t = p.values w := by
  have hvalues : ∀ v : Bytes → Bytes, names.map v = p.values v := fun v => by
    rw [← hn, List.map_map]
    rfl
  rw [hvalues, hvalues]
  apply Iff.intro
  · rintro ⟨a, b, s, t, ha, hb, h⟩
    cases ha
    cases hb
    exact ⟨s, t, h⟩
  · rintro ⟨s, t, h⟩
    exact ⟨_, _, s, t, rfl, rfl, h⟩

include hn in
theorem sameStructure_iff (hc : p.Closed) (hp : p.Parted) (v w : Bytes → Bytes) :
    SameStructure (some (p.text v)) (some (p.text w)) (names.map v) (names.map w) ↔
      ∀ c ∈ names, Verbatim (v c) ∧ Verbatim (w c) := by
  rw [sameStructure_text_iff p names hn, Prepared.structure_kept_iff p hc hp, ← hn, List.forall_mem_map]

end Statement

/-- the upsert sends its text, or raises where it cannot be written down -/
theorem sentSql_insert (self : Obj) (tableName : Bytes) (columns : List Bytes)
    (ht : self.cls.tableName = some tableName) (hl : self.columns = some columns) :
    sentSql (insertOnDuplicate self) = insertSql tableName columns self.cls.primaryKeys self.index := by
  simp only [insertOnDuplicate, ht, hl]
  show sentSql (OwliesServer.Proc.ofOption (insertSql tableName columns self.cls.primaryKeys self.index) >>= _) = _
  cases insertSql tableName columns self.cls.primaryKeys self.index <;> rfl

theorem sentSql_select (self : Obj) (tableName : Bytes) (ht : self.cls.tableName = some tableName) :
    sentSql (loadByPrimaryKeys self) = selectSql tableName self.cls.primaryKeys self.index := by
  simp only [loadByPrimaryKeys, ht]
  cases selectSql tableName self.cls.primaryKeys self.index <;> rfl

theorem sentSql_insertOnDuplicate (cls : Class) (tableName : Bytes) (columns : List Bytes) (self : Obj)
    (v : Bytes → Bytes) (ht : cls.tableName = some tableName) (h : Holds cls columns self v) :
    sentSql (insertOnDuplicate self) = some ((insertStatement tableName columns cls.primaryKeys).text v) := by
  rw [sentSql_insert self tableName columns (by rw [h.ofClass, ht]) h.listed, h.ofClass]
  exact insertSql_eq tableName columns cls.primaryKeys self.index v
    (fun c hc => concatArg_str (h.values c (List.mem_append_left _ hc)))

theorem sentSql_loadByPrimaryKeys (cls : Class) (tableName : Bytes) (columns : List Bytes) (self : Obj)
    (v : Bytes → Bytes) (ht : cls.tableName = some tableName) (h : Holds cls columns self v) :
    sentSql (loadByPrimaryKeys self) = some ((selectStatement tableName cls.primaryKeys).text v) := by
  rw [sentSql_select self tableName (by rw [h.ofClass, ht]), h.ofClass]
  exact selectSql_eq tableName cls.primaryKeys self.index v
    (fun c hc => concatArg_str (h.values c (List.mem_append_right _ hc)))

/-- for two objects of the class with verbatim values: one structure, each literal denoting its value -/
def KeptForVerbatim (cls : Class) (columns written : List Bytes) (sent : Obj → Option Bytes) : Prop :=
  ∀ o₁ o₂ v w, Holds cls columns o₁ v → Holds cls columns o₂ w → (∀ c ∈ written, Verbatim (v c) ∧ Verbatim (w c)) →
    SameStructure (sent o₁) (sent o₂) (written.map v) (written.map w)

/-- two objects of the class have such texts only if their values are verbatim -/
def KeptOnlyForVerbatim (cls : Class) (columns written : List Bytes) (sent : Obj → Option Bytes) : Prop :=
  ∀ o₁ o₂ v w, Holds cls columns o₁ v → Holds cls columns o₂ w →
    SameStructure (sent o₁) (sent o₂) (written.map v) (written.map w) → ∀ c ∈ written, Verbatim (v c) ∧ Verbatim (w c)

/-- an object with one value in all its columns and keys -/
def filledWith (cls : Class) (columns : List Bytes) (value : Bytes) : Obj :=
  ⟨cls, (ascii "columns", .list columns) :: (columns ++ cls.primaryKeys).map fun c => (c, .str value)⟩

theorem holds_filledWith (cls : Class) (columns : List Bytes) (value : Bytes)
    (hc : ascii "columns" ∉ columns ++ cls.primaryKeys) :
    Holds cls columns (filledWith cls columns value) fun _ => value := by
  refine ⟨rfl, ?_, ?_⟩
  · simp [Obj.columns, Obj.index, filledWith, get_cons]
  · intro c hmem
    have hne : ascii "columns" ≠ c := fun he => hc (he ▸ hmem)
    rw [Obj.index, filledWith, get_cons, if_neg hne]
    generalize columns ++ cls.primaryKeys = names at hmem
    induction names with
    | nil => cases hmem
    | cons name names ih =>
      rw [List.map_cons, get_cons]
      split_ifs with heq
      · rfl
      · rcases List.mem_cons.1 hmem with he | hrest
        · exact absurd he.symm heq
        · exact ih hrest

section Texts

variable (cls : Class) (columns written : List Bytes) (sent : Obj → Option Bytes) (p : Prepared Bytes)
  (hsent : ∀ o v, Holds cls columns o v → sent o = some (p.text v)) (hw : p.params.map Prod.snd = written)
  (hp : p.Parted)

include hsent hw hp in
/-- **The names decide** whether verbatim values keep the structure. A column called columns is out of the question: no
object has both it and its list of columns. -/
theorem keptForVerbatim_iff :
    KeptForVerbatim cls columns written sent ↔ ascii "columns" ∈ columns ++ cls.primaryKeys ∨ p.Closed := by
  apply Iff.intro
  · intro hkept
    refine or_iff_not_imp_left.2 fun hc => ?_
    have hword := holds_filledWith cls columns p.word hc
    have hsame := hkept _ _ _ _ hword hword fun _ _ => ⟨p.verbatim_word, p.verbatim_word⟩
    rw [hsent _ _ hword, sameStructure_text_iff p written hw] at hsame
    obtain ⟨s, -, hs, -, -, hl, -⟩ := hsame
    exact p.closed_of_words s hs hl
  · rintro h o₁ o₂ v w h₁ h₂ hverb
    rcases h with hc | hc
    · -- such an object cannot be built
      have hstr := h₁.values _ hc
      have hlist := h₁.listed
      rw [Obj.columns, hstr] at hlist
      cases hlist
    · rw [hsent o₁ v h₁, hsent o₂ w h₂]
      exact (sameStructure_iff p written hw hc hp v w).2 hverb

include hsent hw hp in
theorem keptOnlyForVerbatim_of_closed (hc : p.Closed) : KeptOnlyForVerbatim cls columns written sent := by
  intro o₁ o₂ v w h₁ h₂ hsame
  rw [hsent o₁ v h₁, hsent o₂ w h₂] at hsame
  exact (sameStructure_iff p written hw hc hp v w).1 hsame

end Texts

/-- **Structure and data.** For every class with a table and every list of columns: the upserts of any two objects with
verbatim values have one token structure, with each literal denoting the value spliced there, exactly when the lexer
reads the text around the values, with the names in it, as closed (or no object can hold a string for each column); and
then two objects with any other values never have it. Likewise the lookups, for the values of the primary keys. -/
theorem sql_structure_iff (cls : Class) (tableName : Bytes) (columns : List Bytes)
    (ht : cls.tableName = some tableName) :
    let written := columns ++ columnsToUpdate columns cls.primaryKeys
    let upsert := insertStatement tableName columns cls.primaryKeys
    let lookup := selectStatement tableName cls.primaryKeys
    let unheld := ascii "columns" ∈ columns ++ cls.primaryKeys
    ((KeptForVerbatim cls columns written (fun o => sentSql (insertOnDuplicate o)) ↔ unheld ∨ upsert.Closed) ∧
        (upsert.Closed → KeptOnlyForVerbatim cls columns written fun o => sentSql (insertOnDuplicate o))) ∧
      (KeptForVerbatim cls columns cls.primaryKeys (fun o => sentSql (loadByPrimaryKeys o)) ↔
          unheld ∨ lookup.Closed) ∧
        (lookup.Closed →
          KeptOnlyForVerbatim cls columns cls.primaryKeys fun o => sentSql (loadByPrimaryKeys o)) := by
  intro written upsert lookup unheld
  have hinsert := fun o v h => sentSql_insertOnDuplicate cls tableName columns o v ht h
  have hselect := fun o v h => sentSql_loadByPrimaryKeys cls tableName columns o v ht h
  refine ⟨⟨?_, ?_⟩, ?_, ?_⟩
  · exact keptForVerbatim_iff cls columns written _ upsert hinsert (params_insertStatement _ _ _)
      (parted_insertStatement _ _ _)
  · exact keptOnlyForVerbatim_of_closed cls columns written _ upsert hinsert (params_insertStatement _ _ _)
      (parted_insertStatement _ _ _)
  · exact keptForVerbatim_iff cls columns _ _ lookup hselect (params_selectStatement _ _) (parted_selectStatement _ _)
  · exact keptOnlyForVerbatim_of_closed cls columns _ _ lookup hselect (params_selectStatement _ _)
      (parted_selectStatement _ _)

/-- names in backticks are closed text as well, and a name with a lone quote is not -/
example :
    (insertStatement (ascii "`user-login`") [ascii "`user-account`"] []).Closed ∧
      ¬ (insertStatement (ascii "user'login") [ascii "user_account"] []).Closed := by
  decide +kernel

/-- a login with the given account name -/
def loginOf (account : Bytes) : Obj :=
  ⟨LoginRequestObject, [(ascii "columns", .list [ascii "user_id", ascii "user_account"]),
    (ascii "user_id", .str (ascii "7")), (ascii "user_account", .str account)]⟩

def loginValues (account c : Bytes) : Bytes := if c = ascii "user_id" then ascii "7" else account

theorem sql_structure_login :
    Holds LoginRequestObject [ascii "user_id", ascii "user_account"] (loginOf (ascii "ann")) (loginValues (ascii "ann")) ∧
      (insertStatement (ascii "user_login") [ascii "user_id", ascii "user_account"] [ascii "user_id"]).Closed ∧
      SameStructure (sentSql (insertOnDuplicate (loginOf (ascii "ann"))))
        (sentSql (insertOnDuplicate (loginOf (ascii "bob"))))
        ([ascii "user_id", ascii "user_account", ascii "user_account"].map (loginValues (ascii "ann")))
        ([ascii "user_id", ascii "user_account", ascii "user_account"].map (loginValues (ascii "bob"))) := by
  have hann : Holds LoginRequestObject [ascii "user_id", ascii "user_account"] (loginOf (ascii "ann"))
    (loginValues (ascii "ann")) := ⟨rfl, rfl, by decide +kernel⟩
  have hbob : Holds LoginRequestObject [ascii "user_id", ascii "user_account"] (loginOf (ascii "bob"))
    (loginValues (ascii "bob")) := ⟨rfl, rfl, by decide +kernel⟩
  have hclosed : (insertStatement (ascii "user_login") [ascii "user_id", ascii "user_account"]
    [ascii "user_id"]).Closed := by decide +kernel
  refine ⟨hann, hclosed, ?_⟩
  exact (sql_structure_iff LoginRequestObject (ascii "user_login") _ rfl).1.1.2 (.inr hclosed) _ _ _ _ hann hbob
    (by decide +kernel)

/-- an account name that closes its literal and assigns another user's id -/
def breakout : Bytes := ascii "x', user_id = '1"

/-- **An account name adds an assignment to the upsert**: its text lexes, but to other tokens than that of ann -/
theorem quoted_account_breaks_out :
    Holds LoginRequestObject [ascii "user_id", ascii "user_account"] (loginOf (ascii "ann")) (loginValues (ascii "ann")) ∧
      Holds LoginRequestObject [ascii "user_id", ascii "user_account"] (loginOf breakout) (loginValues breakout) ∧
      (((sentSql (insertOnDuplicate (loginOf breakout))).bind tokenize).map literals =
        some [ascii "7", ascii "x", ascii "1", ascii "x", ascii "1"]) ∧
      ¬ SameStructure (sentSql (insertOnDuplicate (loginOf (ascii "ann"))))
        (sentSql (insertOnDuplicate (loginOf breakout)))
        ([ascii "user_id", ascii "user_account", ascii "user_account"].map (loginValues (ascii "ann")))
        ([ascii "user_id", ascii "user_account", ascii "user_account"].map (loginValues breakout)) := by
  have hlits : ((sentSql (insertOnDuplicate (loginOf breakout))).bind tokenize).map literals =
      some [ascii "7", ascii "x", ascii "1", ascii "x", ascii "1"] := by decide +kernel
  refine ⟨⟨rfl, rfl, by decide +kernel⟩, ⟨rfl, rfl, by decide +kernel⟩, hlits, ?_⟩
  rintro ⟨a, b, s, t, -, hb, -, ht, -, -, hl⟩
  rw [hb, Option.bind_some, ht, Option.map_some, hl] at hlits
  revert hlits
  decide +kernel

end OwliesServer.ObjectBase
