/-
The Lua values and tables the server's object layer works with: decoded sproto messages, MySQL rows and the instances
built from them. A table is an association list; `set` keeps one entry for each key, `get` answers `none` for nil.
-/
import OwliesServer.Data.LuaNumber

namespace OwliesServer.LuaTable

open OwliesServer.CChar OwliesServer.LuaNumber

inductive Value where
  | str (s : Bytes)
  | int (n : ℤ)
  /-- a float with an integral value, as the cache gives an integer back -/
  | float (n : ℤ)
  | bool (b : Bool)
  /-- the `columns` entry of an instance -/
  | list (l : List Bytes)
  /-- the `class` entry middleclass puts into every instance -/
  | class (name : Bytes)
deriving DecidableEq, Repr

abbrev Table := List (Bytes × Value)

def get (t : Table) (k : Bytes) : Option Value := (t.find? (fun e => e.1 = k)).map Prod.snd

def set (t : Table) (k : Bytes) (v : Value) : Table := t.filter (fun e => e.1 ≠ k) ++ [(k, v)]

/-- `for i,v in pairs(src) do t[i] = v end` -/
def copyInto (t src : Table) : Table := src.foldl (fun t e => set t e.1 e.2) t

/-- an operand of `..`: strings and numbers concatenate, everything else (nil included) raises -/
def concatArg : Option Value → Option Bytes
  | some (.str s) => some s
  | some (.int n) => some (ascii (toString n))
  | some (.float n) => some (floatText n)
  | _ => none

theorem concatArg_str {x : Option Value} {s : Bytes} (h : x = some (.str s)) : concatArg x = some s := by
  rw [h]
  rfl

theorem get_set_self (t : Table) (k : Bytes) (v : Value) : get (set t k v) k = some v := by
  have : (t.filter (fun e => e.1 ≠ k)).find? (fun e => e.1 = k) = none := by
    rw [List.find?_eq_none]
    intro e he
    simpa using (List.mem_filter.1 he).2
  simp only [get, set, List.find?_append, this]; simp

theorem get_set_ne (t : Table) (k k' : Bytes) (v : Value) (h : k' ≠ k) : get (set t k v) k' = get t k' := by
  have hne : ¬ k = k' := fun e => h e.symm
  have hf : (t.filter (fun e => e.1 ≠ k)).find? (fun e => e.1 = k') = t.find? (fun e => e.1 = k') := by
    induction t with
    | nil => rfl
    | cons e t ih =>
      by_cases hk : e.1 = k'
      · rw [List.filter_cons_of_pos (by simp [hk, h])]; simp [hk]
      · by_cases hk2 : e.1 = k
        · rw [List.filter_cons_of_neg (by simp [hk2]), ih, List.find?_cons_of_neg (by simpa using hk)]
        · rw [List.filter_cons_of_pos (by simp [hk2]), List.find?_cons_of_neg (by simpa using hk), ih,
            List.find?_cons_of_neg (by simpa using hk)]
  simp only [get, set, List.find?_append, hf]
  cases t.find? (fun e => e.1 = k') <;> simp [hne]

theorem get_cons (e : Bytes × Value) (t : Table) (k : Bytes) :
    get (e :: t) k = if e.1 = k then some e.2 else get t k := by
  by_cases h : e.1 = k <;> simp [get, h]

theorem get_filter (p : Bytes → Bool) (t : Table) (k : Bytes) :
    get (t.filter fun e => p e.1) k = if p k then get t k else none := by
  induction t with
  | nil => simp [get]
  | cons e t ih =>
    by_cases hk : e.1 = k
    · subst hk
      by_cases hp : p e.1 = true
      · simp [hp, get_cons]
      · simp [hp, ih]
    · by_cases hp : p e.1 = true
      · simp [hp, get_cons, hk, ih]
      · simp [hp, get_cons, hk, ih]

theorem get_eq_some_of_mem (t : Table) (hn : (t.map Prod.fst).Nodup) (k : Bytes) (v : Value) (h : (k, v) ∈ t) :
    get t k = some v := by
  induction t with
  | nil => simp at h
  | cons e t ih =>
    obtain ⟨hnot, hnodup⟩ := List.nodup_cons.1 hn
    rw [get_cons]
    rcases List.mem_cons.1 h with rfl | hmem
    · rw [if_pos rfl]
    · have hne : e.1 ≠ k := fun he => hnot (he ▸ List.mem_map_of_mem hmem)
      rw [if_neg hne, ih hnodup hmem]

theorem mem_of_get_eq_some {t : Table} {k : Bytes} {v : Value} (h : get t k = some v) : (k, v) ∈ t := by
  obtain ⟨e, hfind, rfl⟩ := Option.map_eq_some_iff.1 h
  have hk : e.1 = k := by simpa using List.find?_some hfind
  rw [← hk]
  exact List.mem_of_find?_eq_some hfind

theorem nodup_set (t : Table) (hn : (t.map Prod.fst).Nodup) (k : Bytes) (v : Value) :
    ((set t k v).map Prod.fst).Nodup := by
  rw [set, List.map_append, List.nodup_append]
  refine ⟨hn.sublist (List.filter_sublist.map _), by simp, ?_⟩
  intro a ha b hb hab
  obtain ⟨e, he, rfl⟩ := List.mem_map.1 ha
  have hne : e.1 ≠ k := by simpa using (List.mem_filter.1 he).2
  exact hne (hab.trans (by simpa using hb))

theorem nodup_copyInto (t src : Table) (hn : (t.map Prod.fst).Nodup) : ((copyInto t src).map Prod.fst).Nodup := by
  induction src generalizing t with
  | nil => exact hn
  | cons e src ih => exact ih _ (nodup_set t hn e.1 e.2)

theorem get_reverse (t : Table) (hn : (t.map Prod.fst).Nodup) (k : Bytes) : get t.reverse k = get t k := by
  have hn' : (t.reverse.map Prod.fst).Nodup := by rwa [List.map_reverse, List.nodup_reverse]
  by_cases h : ∃ v, (k, v) ∈ t
  · obtain ⟨v, hv⟩ := h
    rw [get_eq_some_of_mem t hn k v hv, get_eq_some_of_mem _ hn' k v (List.mem_reverse.2 hv)]
  · have hnone : ∀ s : Table, (∀ e ∈ s, e ∈ t) → get s k = none := by
      intro s hs
      rw [get, Option.map_eq_none_iff, List.find?_eq_none]
      intro e he hk
      exact h ⟨e.2, by simpa [← of_decide_eq_true hk] using hs e he⟩
    rw [hnone _ fun e he => List.mem_reverse.1 he, hnone t fun e he => he]

/-- the last entry of the source wins, then what was there -/
theorem get_copyInto (t src : Table) (k : Bytes) : get (copyInto t src) k = (get src.reverse k).or (get t k) := by
  induction src using List.reverseRecOn with
  | nil => simp [copyInto, get]
  | append_singleton src e ih =>
    rw [List.reverse_append, List.reverse_singleton, List.singleton_append, get_cons, copyInto, List.foldl_append]
    change get (set (copyInto t src) e.1 e.2) k = _
    by_cases h : e.1 = k
    · rw [if_pos h, ← h, get_set_self, Option.some_or]
    · rw [if_neg h, get_set_ne _ _ _ _ (fun he => h he.symm), ih]

/-- a copied table answers first, then what was there -/
theorem get_copyInto_of_nodup (t src : Table) (hn : (src.map Prod.fst).Nodup) (k : Bytes) :
    get (copyInto t src) k = (get src k).or (get t k) := by
  rw [get_copyInto, get_reverse src hn]

end OwliesServer.LuaTable
