/-
What the callers of db_service learn about failures. The driver raises when the connection fails, but returns a table
with `badresult` when MySQL rejects a statement; `pcall` tells the two apart only by the raise, and `processApiCall`
does not look at the outcome of its upsert at all.

- `replied`: what the driver makes of the one statement that an operation sends.
- `failures_reported_iff`: the two operations report the outcome of their statement exactly if it was not rejected; a
  login that is answered has made its upsert exactly if MySQL executed it.
-/
import OwliesServer.Api.Handlers
import OwliesServer.Data.SqlStructure

namespace OwliesServer.Handlers

open OwliesServer.CChar OwliesServer.LuaTable OwliesServer.ObjectBase OwliesServer.Sessions OwliesServer.ServerPackage

/-! ## Outcomes -/

/-- the reply to the statement an operation sends first, if it gets that far -/
def replied {α : Type} (oracle : Oracle) (p : ObjectBase.Proc α) (n : ℕ) : Option DbReply :=
  (sentSql p).map (dbAt oracle n)

/-- MySQL executed the statement: with a result set or without -/
def IsExecuted (reply : Option DbReply) : Prop := reply = some .executed ∨ ∃ rs, reply = some (.rows rs)

/-- insertOnDuplicate returns true exactly if its statement was executed -/
def ReportsInsert (oracle : Oracle) (o : Obj) (n : ℕ) : Prop :=
  ((insertOnDuplicate o).exec oracle n).map Prod.fst = some (some true) ↔
    IsExecuted (replied oracle (insertOnDuplicate o) n)

/-- the first result of loadByPrimaryKeys is true exactly if the second is a list of rows -/
def ReportsLoad (oracle : Oracle) (o : Obj) (n : ℕ) : Prop :=
  ∀ r, ((loadByPrimaryKeys o).exec oracle n).map Prod.fst = some (some r) → (r ≠ .failed ↔ ∃ rs, r = .rows rs)

/-- the reply to the upsert of a login -/
def loginReply (oracle : Oracle) (sproto : Table) : Option DbReply :=
  (columnsAt oracle 0 (ascii "user_login")).bind fun columns =>
    replied oracle (insertOnDuplicate (loginObject columns sproto)) 1

/-- a login is answered with a package only if its upsert was executed -/
def ReportsLogin (codec : Codec) (oracle : Oracle) (m : SessionMap) (c : Call) : Prop :=
  ∀ p, outcome codec oracle m c = some (.package p) → IsExecuted (loginReply oracle c.sproto)

/-! ## The operations -/

theorem isExecuted_iff (r : DbReply) : IsExecuted (some r) ↔ r ≠ .failed ∧ r ≠ .badresult := by
  cases r <;> simp [IsExecuted]

theorem not_isExecuted_none : ¬ IsExecuted none := by simp [IsExecuted]

/-- the upsert answers whether the call came back -/
theorem exec_insert (oracle : Oracle) (o : Obj) (n : ℕ) (tableName : Bytes) (ht : o.cls.tableName = some tableName) :
    ((insertOnDuplicate o).exec oracle n).map Prod.fst =
      (replied oracle (insertOnDuplicate o) n).map fun r => some (decide (r ≠ .failed)) := by
  rw [exec_insertOnDuplicate oracle o tableName ht, replied]
  cases hl : o.columns with
  | none =>
    have hsent : sentSql (insertOnDuplicate o) = none := by
      simp only [insertOnDuplicate, ht, hl]
      rfl
    rw [hsent]
    rfl
  | some columns =>
    rw [sentSql_insert o tableName columns ht hl, Option.bind_some]
    cases insertSql tableName columns o.cls.primaryKeys o.index <;> rfl

/-- the lookup answers what it got -/
theorem exec_load (oracle : Oracle) (o : Obj) (n : ℕ) (tableName : Bytes) (ht : o.cls.tableName = some tableName) :
    ((loadByPrimaryKeys o).exec oracle n).map Prod.fst = (replied oracle (loadByPrimaryKeys o) n).map some := by
  rw [replied, sentSql_select o tableName ht]
  simp only [loadByPrimaryKeys, ht, Proc.exec_bind, Proc.exec_ofOption]
  cases selectSql tableName o.cls.primaryKeys o.index <;> rfl

theorem reportsInsert_iff (oracle : Oracle) (o : Obj) (n : ℕ) :
    ReportsInsert oracle o n ↔ replied oracle (insertOnDuplicate o) n ≠ some .badresult := by
  cases ht : o.cls.tableName with
  | none =>
    -- nothing is sent, and nil is returned
    have hnil : insertOnDuplicate o = .ret none := by
      simp only [insertOnDuplicate, ht]
      rfl
    simp [ReportsInsert, hnil, replied, sentSql, not_isExecuted_none]
  | some tableName =>
    rw [ReportsInsert, exec_insert oracle o n tableName ht]
    cases replied oracle (insertOnDuplicate o) n with
    | none => simp [not_isExecuted_none]
    | some r =>
      rw [isExecuted_iff]
      cases r <;> simp

theorem reportsLoad_iff (oracle : Oracle) (o : Obj) (n : ℕ)
    (hset : replied oracle (loadByPrimaryKeys o) n ≠ some .executed) :
    ReportsLoad oracle o n ↔ replied oracle (loadByPrimaryKeys o) n ≠ some .badresult := by
  cases ht : o.cls.tableName with
  | none =>
    have hnil : loadByPrimaryKeys o = .ret none := by
      simp only [loadByPrimaryKeys, ht]
      rfl
    simp [ReportsLoad, hnil, replied, sentSql]
  | some tableName =>
    rw [ReportsLoad, exec_load oracle o n tableName ht]
    cases hr : replied oracle (loadByPrimaryKeys o) n with
    | none => simp
    | some r => cases r <;> simp_all

/-! ## The login -/

theorem reportsLogin_iff (codec : Codec) (oracle : Oracle) (m : SessionMap) (c : Call) (hc : c.IsLogin) :
    ReportsLogin codec oracle m c ↔ (LoginOk codec oracle c.sproto → IsExecuted (loginReply oracle c.sproto)) := by
  rw [ReportsLogin, outcome_login codec oracle m c hc]
  apply Iff.intro
  · intro h hok
    obtain ⟨p, hp⟩ := login_ok codec oracle c.sproto hok
    exact h p hp
  · intro h p hp
    exact h (login_returned codec oracle c.sproto _ hp)

/-- **When database failures are reported.** For all replies of the services: an upsert and a lookup report the outcome
of their statement exactly if MySQL did not reject it (an executed lookup has a result set); a login keeps to its upsert
exactly if the upsert is executed whenever the rest of the login goes through. -/
theorem failures_reported_iff (codec : Codec) (oracle : Oracle) :
    (∀ o n, ReportsInsert oracle o n ↔ replied oracle (insertOnDuplicate o) n ≠ some .badresult) ∧
      (∀ o n, replied oracle (loadByPrimaryKeys o) n ≠ some .executed →
        (ReportsLoad oracle o n ↔ replied oracle (loadByPrimaryKeys o) n ≠ some .badresult)) ∧
      ∀ m c, c.IsLogin → (ReportsLogin codec oracle m c ↔
        (LoginOk codec oracle c.sproto → IsExecuted (loginReply oracle c.sproto))) := by
  refine ⟨reportsInsert_iff oracle, reportsLoad_iff oracle, ?_⟩
  intro m c hc
  exact reportsLogin_iff codec oracle m c hc

/-- a new user's login makes its upsert, and says so -/
theorem failures_reported_newUser :
    firstLogin.IsLogin ∧ ReportsLogin lenient newUser noSessions firstLogin ∧
      ReportsInsert newUser (loginOf (ascii "ann")) 1 := by
  obtain ⟨hinsert, -, hlogin⟩ := failures_reported_iff lenient newUser
  refine ⟨⟨rfl, rfl⟩, (hlogin noSessions firstLogin ⟨rfl, rfl⟩).2 fun _ => .inl (by decide), (hinsert _ 1).2 (by decide)⟩

/-- the tables and the cache answer, but MySQL rejects the upsert -/
def rejecting : Oracle
  | 1, .query _ => DbReply.badresult
  | n, q => newUser n q

/-- **A rejected upsert counts as a success**: insertOnDuplicate returns true, a rejected lookup hands its error table on
as a result, and the login is answered with a package. -/
theorem rejected_upsert_succeeds :
    replied rejecting (insertOnDuplicate (loginOf (ascii "ann"))) 1 = some .badresult ∧
      ((insertOnDuplicate (loginOf (ascii "ann"))).exec rejecting 1).map Prod.fst = some (some true) ∧
      ¬ ReportsInsert rejecting (loginOf (ascii "ann")) 1 ∧ ¬ ReportsLoad rejecting (loginOf (ascii "ann")) 1 ∧
      loginReply rejecting firstLogin.sproto = some .badresult ∧
      outcome lenient rejecting noSessions firstLogin = some (.package (packMessage SprotoNames.LoginResponse 100 [])) ∧
      ¬ ReportsLogin lenient rejecting noSessions firstLogin := by
  have hreply : replied rejecting (insertOnDuplicate (loginOf (ascii "ann"))) 1 = some .badresult := by decide
  have hload : replied rejecting (loadByPrimaryKeys (loginOf (ascii "ann"))) 1 = some .badresult := by decide
  have hupsert : loginReply rejecting firstLogin.sproto = some .badresult := by decide
  have hanswer : outcome lenient rejecting noSessions firstLogin =
    some (.package (packMessage SprotoNames.LoginResponse 100 [])) := by decide
  refine ⟨hreply, by decide, fun h => (reportsInsert_iff rejecting _ 1).1 h hreply, fun h => ?_, hupsert, hanswer,
    fun h => ?_⟩
  · exact (reportsLoad_iff rejecting _ 1 (by rw [hload]; decide)).1 h hload
  · have hexecuted := h _ hanswer
    rw [hupsert, isExecuted_iff] at hexecuted
    exact hexecuted.2 rfl

end OwliesServer.Handlers
