/-
Lua values as trees, and the tables among them. A table is the list of its values at 1, ..., n and the pairs with other
keys; `setPair` and `getPair` are assignment and lookup among the pairs, with nil for what is absent. Doubles and pointers
are their 64 bits.

- `normKey`: a double with an integer value is the key of that integer.
- `Key n`, `Distinct`: the pairs of a table with n values in its list have distinct keys that are not nil, not NaN and none
  of 1, ..., n.
-/
import OwliesServer.Core.CChar

namespace OwliesServer.Lua

open OwliesServer.CChar

inductive Value where
  | nil
  | boolean (b : Bool)
  | integer (v : BitVec 64)
  | real (bits : BitVec 64)
  | userdata (p : BitVec 64)
  | string (s : Bytes)
  | table (array : List Value) (hash : List (Value × Value))
  /-- a function, a thread or a full userdata -/
  | other (typename : Bytes)

/-! ## Tables -/

def Value.isNil : Value → Bool
  | .nil => true
  | _ => false

/-- exponent field of a double -/
def exponent (bits : BitVec 64) : ℕ := bits.toNat / 2 ^ 52 % 2 ^ 11

def isNaN (bits : BitVec 64) : Bool := exponent bits == 2047 && bits.toNat % 2 ^ 52 != 0

/-- `luaV_tointeger`: the integer with the value of a double, if there is one -/
def realToInteger (bits : BitVec 64) : Option (BitVec 64) :=
  let e := exponent bits
  -- the value is m * 2 ^ (e - 1075), with e = 1 for the subnormal numbers
  let m := if e = 0 then bits.toNat % 2 ^ 52 else 2 ^ 52 + bits.toNat % 2 ^ 52
  let down := 2 ^ (1075 - max e 1)
  if e = 2047 ∨ m % down ≠ 0 then none
  else
    let z : ℤ := (if bits.msb then -1 else 1) * (m / down * 2 ^ (e - 1075) : ℕ)
    if -2 ^ 63 ≤ z ∧ z < 2 ^ 63 then some (BitVec.ofInt 64 z) else none

/-- the key a table has for a value: doubles with an integer value become integers -/
def normKey : Value → Value
  | .real bits => match realToInteger bits with
    | some v => .integer v
    | none => .real bits
  | k => k

/-- equality of keys; a table that was just built is equal to no other -/
def rawEqual : Value → Value → Bool
  | .boolean a, .boolean b => a == b
  | .integer a, .integer b => a == b
  | .real a, .real b => a == b
  | .userdata a, .userdata b => a == b
  | .string a, .string b => a == b
  | _, _ => false

def setPair (k v : Value) : List (Value × Value) → List (Value × Value)
  | [] => if v.isNil then [] else [(k, v)]
  | p :: hash =>
    if rawEqual p.1 k then (if v.isNil then hash else (k, v) :: hash) else p :: setPair k v hash

def getPair (k : Value) : List (Value × Value) → Value
  | [] => .nil
  | p :: hash => if rawEqual p.1 k then p.2 else getPair k hash

/-- an index of the array part -/
def inArray (n : ℕ) : Value → Bool
  | .integer i => 0 < i.toInt && i.toInt ≤ n
  | _ => false

def Value.index : Value → ℕ
  | .integer i => i.toInt.toNat - 1
  | _ => 0

def Value.isNaN : Value → Bool
  | .real bits => Lua.isNaN bits
  | _ => false

/-- a key of the pairs of a table with `n` values in its array part -/
structure Key (n : ℕ) (k : Value) : Prop where
  ne_nil : k.isNil = false
  norm : normKey k = k
  ne_nan : k.isNaN = false
  outside : inArray n k = false

def Distinct (hash : List (Value × Value)) : Prop := hash.Pairwise fun p q => rawEqual p.1 q.1 = false

/-! ## Lemmas -/

theorem normKey_normKey (k : Value) : normKey (normKey k) = normKey k := by
  cases k with
  | real bits => cases h : realToInteger bits <;> simp [normKey, h]
  | _ => rfl

theorem isNil_normKey (k : Value) : (normKey k).isNil = k.isNil := by
  cases k with
  | real bits => cases h : realToInteger bits <;> simp [normKey, h, Value.isNil]
  | _ => rfl

theorem mem_setPair {k v : Value} {hash : List (Value × Value)} {p : Value × Value} (h : p ∈ setPair k v hash) :
    p ∈ hash ∨ (p = (k, v) ∧ v.isNil = false) := by
  induction hash with
  | nil => cases hv : v.isNil <;> simp_all [setPair]
  | cons q hash ih =>
    rw [setPair] at h
    split_ifs at h with heq hv
    · exact .inl (List.mem_cons_of_mem _ h)
    · rcases List.mem_cons.1 h with rfl | h
      · exact .inr ⟨rfl, by simpa using hv⟩
      · exact .inl (List.mem_cons_of_mem _ h)
    · rcases List.mem_cons.1 h with rfl | h
      · exact .inl List.mem_cons_self
      · exact (ih h).imp_left (List.mem_cons_of_mem _)

theorem rawEqual_eq {a b : Value} (h : rawEqual a b = true) : a = b := by
  cases a <;> cases b <;> simp_all [rawEqual]

theorem distinct_setPair {k v : Value} {hash : List (Value × Value)} (h : Distinct hash) :
    Distinct (setPair k v hash) := by
  induction hash with
  | nil => cases hv : v.isNil <;> simp [setPair, hv, Distinct]
  | cons q hash ih =>
    obtain ⟨hq, hhash⟩ := List.pairwise_cons.1 h
    rw [setPair]
    split_ifs with heq hv
    · exact hhash
    · obtain rfl := rawEqual_eq heq
      exact List.pairwise_cons.2 ⟨hq, hhash⟩
    · refine List.pairwise_cons.2 ⟨?_, ih hhash⟩
      intro p hp
      rcases mem_setPair hp with hp | ⟨rfl, -⟩
      · exact hq p hp
      · simpa using heq

/-- a new key is put behind the others -/
theorem setPair_new {k v : Value} {hash : List (Value × Value)} (hv : v.isNil = false)
    (hk : ∀ p ∈ hash, rawEqual p.1 k = false) : setPair k v hash = hash ++ [(k, v)] := by
  induction hash with
  | nil => simp [setPair, hv]
  | cons p hash ih =>
    obtain ⟨hp, hhash⟩ := List.forall_mem_cons.1 hk
    simp [setPair, hp, ih hhash]

end OwliesServer.Lua
