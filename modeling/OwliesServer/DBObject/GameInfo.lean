/-
The user game info record: Src/DBObject/dbobjusergameinfolib.{h,c}.

A record is a C struct with three `char *` and two `int`; its setters and getters are called from Lua.
- A string setter stores the pointer that `luaL_checkstring` returns, into the Lua string itself. `State.strings` is what
  stands at these addresses. The record does not keep the string alive: Lua may collect it (`Op.collect`) or reuse its
  address for another string.
- The getter pushes the C string at the pointer, up to its first NUL.
- The two integer setters narrow the 64-bit argument to an `int` and check the narrowed value.
- The fields of a new record are not written (`none`).
- `luaL_checkudata` and `luaL_checkstring` never return NULL: the checks for it are left out.

`Latest` records, for each field, the argument of the latest setter call that did not raise.
`game_info_stores_iff`: in every state of a run the getters return these arguments, calls that raise change nothing and
level and exp are positive, exactly when every operation of the run is `Faithful`.
-/
import OwliesServer.Core.Machine
import OwliesServer.Wire.ClientFrame

namespace OwliesServer.GameInfo

open OwliesServer.CChar OwliesServer.Machine OwliesServer.ClientFrame

/-! ## Model -/

/-- a Lua value; `other` is one that is neither a string nor a number -/
inductive LuaVal where
  | str (s : Bytes)
  | int (n : BitVec 64)
  | other
deriving DecidableEq

inductive StrField where
  | userId
  | gameVersion
  | lastLoginTime
deriving DecidableEq

inductive IntField where
  | level
  | exp
deriving DecidableEq

/-- `struct userGameInfo` -/
structure UserGameInfo where
  userId : Option ℕ
  level : Option (BitVec 32)
  exp : Option (BitVec 32)
  gameVersion : Option ℕ
  lastLoginTime : Option ℕ
deriving DecidableEq

def UserGameInfo.str (i : UserGameInfo) : StrField → Option ℕ
  | .userId => i.userId
  | .gameVersion => i.gameVersion
  | .lastLoginTime => i.lastLoginTime

def UserGameInfo.int (i : UserGameInfo) : IntField → Option (BitVec 32)
  | .level => i.level
  | .exp => i.exp

def UserGameInfo.putStr (i : UserGameInfo) (p : ℕ) : StrField → UserGameInfo
  | .userId => { i with userId := some p }
  | .gameVersion => { i with gameVersion := some p }
  | .lastLoginTime => { i with lastLoginTime := some p }

def UserGameInfo.putInt (i : UserGameInfo) (v : BitVec 32) : IntField → UserGameInfo
  | .level => { i with level := some v }
  | .exp => { i with exp := some v }

structure State where
  info : UserGameInfo
  strings : ℕ → Option Bytes

/-- a C function called from Lua: it changes the state and may raise -/
abbrev Setter := ExceptT String (StateM State)

/-- `luaL_checkstring`: the address of the argument, which a number is first turned into a string for -/
def checkstring (p : ℕ) : LuaVal → Setter ℕ
  | .str s => do
    modify fun st => { st with strings := Function.update st.strings p (some s) }
    pure p
  | .int n => do
    modify fun st => { st with strings := Function.update st.strings p (some (ascii (toString n.toInt))) }
    pure p
  | .other => throw "string expected"

def setString (f : StrField) (p : ℕ) (arg : LuaVal) : Setter Unit := do
  let q ← checkstring p arg
  modify fun st => { st with info := st.info.putStr q f }

/-- `const int p = luaL_checkinteger(L, 2)`, the check of it and the store -/
def setInteger (f : IntField) (message : String) (arg : BitVec 64) : Setter Unit := do
  let p := arg.truncate 32
  if p.toInt ≤ 0 then
    throw message
  modify fun st => { st with info := st.info.putInt p f }

def setUserGameinfoUserId := setString .userId

def setUserGameinfoLevel := setInteger .level "Wrong Parameter: Level of UserAccount"

def setUserGameinfoExp := setInteger .exp "Wrong Parameter: Exp of UserAccount"

def setUserGameinfoGameVersion := setString .gameVersion

def setUserGameinfoLastLoginTime := setString .lastLoginTime

/-- `lua_pushstring` of a `char *` field; `none` where it points to no string -/
def getString (f : StrField) (st : State) : Option LuaVal := do
  let p ← st.info.str f
  let s ← st.strings p
  (cString (s ++ [0#8])).map .str

/-- `lua_pushinteger` of an `int` field -/
def getInteger (f : IntField) (st : State) : Option (BitVec 64) := (st.info.int f).map (·.signExtend 64)

/-! ## Runs -/

inductive Op where
  | setUserId (p : ℕ) (arg : LuaVal)
  | setLevel (arg : BitVec 64)
  | setExp (arg : BitVec 64)
  | setGameVersion (p : ℕ) (arg : LuaVal)
  | setLastLoginTime (p : ℕ) (arg : LuaVal)
  /-- Lua frees the string at an address -/
  | collect (p : ℕ)
deriving DecidableEq

def Op.exec : Op → Setter Unit
  | .setUserId p arg => setUserGameinfoUserId p arg
  | .setLevel arg => setUserGameinfoLevel arg
  | .setExp arg => setUserGameinfoExp arg
  | .setGameVersion p arg => setUserGameinfoGameVersion p arg
  | .setLastLoginTime p arg => setUserGameinfoLastLoginTime p arg
  | .collect p => modify fun st => { st with strings := Function.update st.strings p none }

/-- the arguments of the latest setter calls that did not raise -/
structure Latest where
  str : StrField → Option LuaVal
  int : IntField → Option (BitVec 64)

def Latest.record (l : Latest) : Op → Latest
  | .setUserId _ arg => { l with str := Function.update l.str .userId (some arg) }
  | .setLevel arg => { l with int := Function.update l.int .level (some arg) }
  | .setExp arg => { l with int := Function.update l.int .exp (some arg) }
  | .setGameVersion _ arg => { l with str := Function.update l.str .gameVersion (some arg) }
  | .setLastLoginTime _ arg => { l with str := Function.update l.str .lastLoginTime (some arg) }
  | .collect _ => l

structure Run where
  st : State
  latest : Latest

def step (r : Run) (o : Op) : Run :=
  match o.exec.run r.st with
  | (.ok _, st) => ⟨st, r.latest.record o⟩
  | (.error _, st) => ⟨st, r.latest⟩

/-- a new record, among any Lua strings -/
def start (strings : ℕ → Option Bytes) : Run :=
  ⟨⟨⟨none, none, none, none, none⟩, strings⟩, ⟨fun _ => none, fun _ => none⟩⟩

/-! ## Fields -/

@[simp] theorem str_putStr (i : UserGameInfo) (p : ℕ) (f g : StrField) :
    (i.putStr p f).str g = if g = f then some p else i.str g := by
  cases f <;> cases g <;> rfl

@[simp] theorem int_putStr (i : UserGameInfo) (p : ℕ) (f : StrField) (g : IntField) : (i.putStr p f).int g = i.int g := by
  cases f <;> cases g <;> rfl

@[simp] theorem int_putInt (i : UserGameInfo) (v : BitVec 32) (f g : IntField) :
    (i.putInt v f).int g = if g = f then some v else i.int g := by
  cases f <;> cases g <;> rfl

@[simp] theorem str_putInt (i : UserGameInfo) (v : BitVec 32) (f : IntField) (g : StrField) :
    (i.putInt v f).str g = i.str g := by
  cases f <;> cases g <;> rfl

/-! ## One setter call -/

/-- a string setter's call on any of the three fields -/
def strStep (r : Run) (f : StrField) (p : ℕ) (arg : LuaVal) : Run :=
  match (setString f p arg).run r.st with
  | (.ok _, st) => ⟨st, { r.latest with str := Function.update r.latest.str f (some arg) }⟩
  | (.error _, st) => ⟨st, r.latest⟩

/-- an integer setter's call on either of the two fields -/
def intStep (r : Run) (f : IntField) (message : String) (arg : BitVec 64) : Run :=
  match (setInteger f message arg).run r.st with
  | (.ok _, st) => ⟨st, { r.latest with int := Function.update r.latest.int f (some arg) }⟩
  | (.error _, st) => ⟨st, r.latest⟩

theorem run_setString_str (f : StrField) (p : ℕ) (s : Bytes) (st : State) :
    (setString f p (.str s)).run st =
      (.ok (), ⟨st.info.putStr p f, Function.update st.strings p (some s)⟩) := rfl

theorem run_setString_int (f : StrField) (p : ℕ) (n : BitVec 64) (st : State) :
    (setString f p (.int n)).run st =
      (.ok (), ⟨st.info.putStr p f, Function.update st.strings p (some (ascii (toString n.toInt)))⟩) := rfl

theorem run_setInteger (f : IntField) (message : String) (arg : BitVec 64) (st : State) :
    (setInteger f message arg).run st =
      if (arg.truncate 32).toInt ≤ 0 then (.error message, st)
      else (.ok (), { st with info := st.info.putInt (arg.truncate 32) f }) := by
  unfold setInteger
  split_ifs with h
  · simp only [h, if_true]
    rfl
  · simp only [h, if_false]
    rfl

/-- an integer argument keeps its value or makes the call raise -/
def FaithfulInt (arg : BitVec 64) : Prop := (arg.truncate 32).toInt ≤ 0 ∨ 0 < arg.toInt ∧ arg.toInt < 2 ^ 31

theorem signExtend_truncate_iff (arg : BitVec 64) (h : 0 < (arg.truncate 32).toInt) :
    (arg.truncate 32).signExtend 64 = arg ↔ 0 < arg.toInt ∧ arg.toInt < 2 ^ 31 := by
  have hext : ((arg.truncate 32).signExtend 64).toInt = (arg.truncate 32).toInt :=
    BitVec.toInt_signExtend_of_le (by omega)
  rw [← BitVec.toInt_inj, hext]
  rw [BitVec.truncate_eq_setWidth, BitVec.toInt_eq_toNat_cond, BitVec.toNat_setWidth] at h ⊢
  rw [BitVec.toInt_eq_toNat_cond]
  have := arg.isLt
  split_ifs at h ⊢ <;> omega

theorem cString_terminated_iff (s : Bytes) : cString (s ++ [0#8]) = some s ↔ 0#8 ∉ s := by
  apply Iff.intro
  · intro h hmem
    obtain ⟨t, rest, rfl, ht⟩ := List.eq_append_cons_of_mem hmem
    rw [List.append_assoc, cString_append t _ ht] at h
    have hlen := congrArg (Option.map List.length) h
    simp [cString] at hlen
  · intro h
    rw [cString_append_iff s _ h]
    rfl

/-! ## The last-write law -/

/-- every getter returns the argument of its field's latest setter call that did not raise -/
def LastWrite (r : Run) : Prop :=
  (∀ f v, r.latest.str f = some v → getString f r.st = some v) ∧
    ∀ f n, r.latest.int f = some n → getInteger f r.st = some n

/-- the fields that are written are those that have a latest argument -/
def Tracked (r : Run) : Prop :=
  (∀ f, (r.st.info.str f).isSome = (r.latest.str f).isSome) ∧ ∀ f, (r.st.info.int f).isSome = (r.latest.int f).isSome

theorem exists_latest {r : Run} (h : Tracked r) {f : StrField} {p : ℕ} (hp : r.st.info.str f = some p) :
    ∃ arg, r.latest.str f = some arg := by
  have hsome : (r.latest.str f).isSome := by
    rw [← h.1 f, hp]
    rfl
  exact Option.isSome_iff_exists.1 hsome

/-- a string argument is one without a NUL, at an address where the record keeps no other string; or the call raises -/
def FaithfulStr (r : Run) (f : StrField) (p : ℕ) : LuaVal → Prop
  | .str s => 0#8 ∉ s ∧ ∀ g, g ≠ f → r.st.info.str g = some p → getString g r.st = some (.str s)
  | .int _ => False
  | .other => True

theorem lastWrite_intStep_iff (r : Run) (f : IntField) (message : String) (arg : BitVec 64) (h : LastWrite r) :
    LastWrite (intStep r f message arg) ↔ FaithfulInt arg := by
  unfold intStep
  rw [run_setInteger]
  by_cases hneg : (arg.truncate 32).toInt ≤ 0
  · simp only [hneg, if_true]
    exact iff_of_true h (Or.inl hneg)
  · simp only [hneg, if_false]
    have hext := signExtend_truncate_iff arg (by omega)
    apply Iff.intro
    · intro ⟨_, hint⟩
      have := hint f arg (by simp)
      simp only [getInteger, int_putInt, if_true, Option.map_some, Option.some.injEq] at this
      exact Or.inr (hext.1 this)
    · intro hfaith
      have hval := hext.2 (hfaith.resolve_left hneg)
      refine ⟨?_, ?_⟩
      · intro g v hv
        have := h.1 g v hv
        simpa [getString] using this
      · intro g n hn
        by_cases hg : g = f
        · subst hg
          obtain rfl : arg = n := by simpa using hn
          simp [getInteger, hval]
        · simp only [Function.update_of_ne hg] at hn
          have := h.2 g n hn
          simpa [getInteger, hg] using this

/-- storing a string at an address, seen through the getters -/
theorem getString_store (st : State) (f g : StrField) (p : ℕ) (s : Bytes) :
    getString g ⟨st.info.putStr p f, Function.update st.strings p (some s)⟩ =
      if g = f ∨ st.info.str g = some p then (cString (s ++ [0#8])).map .str else getString g st := by
  by_cases hg : g = f
  · simp [getString, hg]
  · cases hq : st.info.str g with
    | none => simp [getString, hg, hq]
    | some q =>
      by_cases hpq : q = p
      · subst hpq
        simp [getString, hg, hq]
      · simp [getString, hg, hq, hpq]

theorem lastWrite_strStep_iff (r : Run) (f : StrField) (p : ℕ) (arg : LuaVal) (ht : Tracked r) (h : LastWrite r) :
    LastWrite (strStep r f p arg) ↔ FaithfulStr r f p arg := by
  cases arg with
  | other => exact iff_of_true h trivial
  | int n =>
    -- what is stored is the number's text
    refine iff_of_false ?_ id
    intro ⟨hstr, _⟩
    have := hstr f (.int n) (by simp [strStep, run_setString_int])
    simp only [strStep, run_setString_int, getString_store, true_or, if_true] at this
    cases cString (ascii (toString n.toInt) ++ [0#8]) <;> simp at this
  | str s =>
    simp only [strStep, run_setString_str, FaithfulStr, ← cString_terminated_iff]
    apply Iff.intro
    · intro ⟨hstr, _⟩
      have hself := hstr f (.str s) (by simp)
      rw [getString_store, if_pos (Or.inl rfl)] at hself
      obtain ⟨t, htext, hts⟩ := Option.map_eq_some_iff.1 hself
      cases hts
      refine ⟨htext, ?_⟩
      intro g hg hp
      -- the field at the same address has a latest argument, which the new string must be
      obtain ⟨v, hv⟩ := exists_latest ht hp
      have hnew := hstr g v (by simp [Function.update_of_ne hg, hv])
      rw [getString_store, if_pos (Or.inr hp), htext] at hnew
      rw [h.1 g v hv, ← hnew]
      rfl
    · intro ⟨htext, hother⟩
      refine ⟨?_, ?_⟩
      · intro g v hv
        rw [getString_store]
        by_cases hg : g = f
        · subst hg
          obtain rfl : LuaVal.str s = v := by simpa using hv
          rw [if_pos (Or.inl rfl), htext]
          rfl
        · simp only [Function.update_of_ne hg] at hv
          by_cases hp : r.st.info.str g = some p
          · rw [if_pos (Or.inr hp), htext, ← h.1 g v hv, hother g hg hp]
            rfl
          · rw [if_neg (by simp [hg, hp])]
            exact h.1 g v hv
      · intro g n hn
        have := h.2 g n hn
        simpa [getInteger] using this

theorem lastWrite_collect_iff (r : Run) (p : ℕ) (ht : Tracked r) (h : LastWrite r) :
    LastWrite (step r (.collect p)) ↔ ∀ g, r.st.info.str g ≠ some p := by
  have hget : ∀ g, getString g ⟨r.st.info, Function.update r.st.strings p none⟩ =
      if r.st.info.str g = some p then none else getString g r.st := by
    intro g
    cases hq : r.st.info.str g with
    | none => simp [getString, hq]
    | some q =>
      by_cases hpq : q = p
      · simp [getString, hq, hpq]
      · simp [getString, hq, hpq]
  apply Iff.intro
  · intro ⟨hstr, _⟩ g hg
    obtain ⟨v, hv⟩ := exists_latest ht hg
    have := hstr g v hv
    rw [show (step r (.collect p)).st = ⟨r.st.info, Function.update r.st.strings p none⟩ from rfl, hget, if_pos hg] at this
    cases this
  · intro hfree
    refine ⟨?_, h.2⟩
    intro g v hv
    rw [show (step r (.collect p)).st = ⟨r.st.info, Function.update r.st.strings p none⟩ from rfl, hget,
      if_neg (hfree g)]
    exact h.1 g v hv

/-! ## Every run -/

/-- the operation keeps the law: the argument survives being stored, and no stored string is freed -/
def Faithful (r : Run) : Op → Prop
  | .setUserId p arg => FaithfulStr r .userId p arg
  | .setLevel arg => FaithfulInt arg
  | .setExp arg => FaithfulInt arg
  | .setGameVersion p arg => FaithfulStr r .gameVersion p arg
  | .setLastLoginTime p arg => FaithfulStr r .lastLoginTime p arg
  | .collect p => ∀ g, r.st.info.str g ≠ some p

theorem lastWrite_step_iff (r : Run) (o : Op) (ht : Tracked r) (h : LastWrite r) :
    LastWrite (step r o) ↔ Faithful r o := by
  cases o with
  | setUserId p arg => exact lastWrite_strStep_iff r .userId p arg ht h
  | setLevel arg => exact lastWrite_intStep_iff r .level _ arg h
  | setExp arg => exact lastWrite_intStep_iff r .exp _ arg h
  | setGameVersion p arg => exact lastWrite_strStep_iff r .gameVersion p arg ht h
  | setLastLoginTime p arg => exact lastWrite_strStep_iff r .lastLoginTime p arg ht h
  | collect p => exact lastWrite_collect_iff r p ht h

/-- a call that raises has not changed anything: each check stands before the store -/
theorem unchanged_of_error (o : Op) (st : State) (e : String) (h : (o.exec.run st).1 = .error e) :
    (o.exec.run st).2 = st := by
  have hstr : ∀ f p arg, ((setString f p arg).run st).1 = .error e → ((setString f p arg).run st).2 = st := by
    intro f p arg hrun
    cases arg with
    | str s => cases hrun
    | int n => cases hrun
    | other => rfl
  have hint : ∀ f message arg, ((setInteger f message arg).run st).1 = .error e →
      ((setInteger f message arg).run st).2 = st := by
    intro f message arg hrun
    rw [run_setInteger] at hrun ⊢
    split_ifs at hrun ⊢
    rfl
  cases o with
  | setUserId p arg => exact hstr .userId p arg h
  | setLevel arg => exact hint .level _ arg h
  | setExp arg => exact hint .exp _ arg h
  | setGameVersion p arg => exact hstr .gameVersion p arg h
  | setLastLoginTime p arg => exact hstr .lastLoginTime p arg h
  | collect p => cases h

/-- level and exp, once set, are positive -/
def Positive (r : Run) : Prop := ∀ f v, r.st.info.int f = some v → 0 < v.toInt

/-- what an operation can do to the record and to the latest arguments, whatever the argument -/
theorem step_inv (I : Run → Prop)
    (hstr : ∀ r f p arg s, I r →
      I ⟨⟨r.st.info.putStr p f, Function.update r.st.strings p (some s)⟩,
        { r.latest with str := Function.update r.latest.str f (some arg) }⟩)
    (hint : ∀ r f arg, 0 < (arg.truncate 32).toInt → I r →
      I ⟨{ r.st with info := r.st.info.putInt (arg.truncate 32) f },
        { r.latest with int := Function.update r.latest.int f (some arg) }⟩)
    (hcollect : ∀ r p, I r → I ⟨{ r.st with strings := Function.update r.st.strings p none }, r.latest⟩)
    (r : Run) (o : Op) (h : I r) : I (step r o) := by
  have hs : ∀ f p arg, I (strStep r f p arg) := by
    intro f p arg
    cases arg with
    | str s => exact hstr r f p _ s h
    | int n => exact hstr r f p _ _ h
    | other => exact h
  have hi : ∀ f message arg, I (intStep r f message arg) := by
    intro f message arg
    unfold intStep
    rw [run_setInteger]
    by_cases hneg : (arg.truncate 32).toInt ≤ 0
    · simpa only [hneg, if_true] using h
    · simpa only [hneg, if_false] using hint r f arg (by omega) h
  cases o with
  | setUserId p arg => exact hs .userId p arg
  | setLevel arg => exact hi .level _ arg
  | setExp arg => exact hi .exp _ arg
  | setGameVersion p arg => exact hs .gameVersion p arg
  | setLastLoginTime p arg => exact hs .lastLoginTime p arg
  | collect p => exact hcollect r p h

theorem tracked_step (r : Run) (o : Op) (h : Tracked r) : Tracked (step r o) := by
  refine step_inv Tracked ?_ ?_ (fun r p h => h) r o h
  · intro r f p arg s h
    refine ⟨?_, ?_⟩
    · intro g
      by_cases hg : g = f
      · simp [hg]
      · simpa [hg] using h.1 g
    · intro g
      simpa using h.2 g
  · intro r f arg _ h
    refine ⟨?_, ?_⟩
    · intro g
      simpa using h.1 g
    · intro g
      by_cases hg : g = f
      · simp [hg]
      · simpa [hg] using h.2 g

theorem positive_step (r : Run) (o : Op) (h : Positive r) : Positive (step r o) := by
  refine step_inv Positive ?_ ?_ (fun r p h => h) r o h
  · intro r f p arg s h g v hv
    exact h g v (by simpa using hv)
  · intro r f arg hpos h g v hv
    simp only [int_putInt] at hv
    split_ifs at hv
    · cases hv
      exact hpos
    · exact h g v hv

/-- the record stores what it was given -/
def Stores (r : Run) : Prop :=
  LastWrite r ∧ Positive r ∧ ∀ (o : Op) (e : String), (o.exec.run r.st).1 = .error e → (o.exec.run r.st).2 = r.st

/-- **The record stores what it was given exactly in the runs of faithful operations.** A level or exp argument outside
the positive range of an `int` must be one whose low 32 bits make the call raise; a string argument must be a string
without NULs; and Lua must not free a string, or put another in its place, while the record points to it. -/
theorem game_info_stores_iff (strings : ℕ → Option Bytes) (ops : List Op) :
    HoldsAlong step Stores (start strings) ops ↔ Guarded step Faithful (start strings) ops := by
  have htracked : Tracked (start strings) := ⟨fun f => by cases f <;> rfl, fun f => by cases f <;> rfl⟩
  have hpos : Positive (start strings) := by
    intro f v hv
    cases f <;> cases hv
  have hlast : LastWrite (start strings) := ⟨fun f v hv => (nomatch hv), fun f n hn => (nomatch hn)⟩
  refine holds_along_iff step Faithful Tracked Stores ?_ (start strings) ops htracked
    ⟨hlast, hpos, fun o e he => unchanged_of_error o _ e he⟩
  intro r o ht hs
  refine ⟨tracked_step r o ht, ?_⟩
  rw [← lastWrite_step_iff r o ht hs.1]
  exact ⟨fun h => h.1, fun h => ⟨h, positive_step r o hs.2.1, fun o' e he => unchanged_of_error o' _ e he⟩⟩

/-- a level of 2³² + 1 becomes level 1, a string is cut at its NUL, and a collected string is gone -/
theorem level_narrowed_string_cut :
    getInteger .level (run step (start fun _ => none) [.setLevel 0x100000001#64]).st = some 1#64 ∧
    getString .userId (run step (start fun _ => none) [.setUserId 0 (.str [97#8, 0#8, 98#8])]).st = some (.str [97#8]) ∧
    getString .userId (run step (start fun _ => none) [.setUserId 0 (.str [97#8]), .collect 0]).st = none := by
  decide +kernel

end OwliesServer.GameInfo
