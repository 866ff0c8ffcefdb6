/-
The user account record and its Redis value: Src/DBObject/dbobjuseraccountlib.{h,c}.

`getUserAccountRedisItemValue` counts the bytes it needs (72 and the lengths of the fields that are set), allocates a
block of that size and appends the labels and the fields to it with `strcat`.
- `block` is what the block held when it was allocated, `behind` the mapped memory behind it.
- The first `strcat` looks for the end of a string that nobody has written: whatever stands in the block before its
  first NUL stays in front of the value, and with no NUL in the block the search goes on behind it.

- `appended_flatten`, `length_itemText`: the appended strings are the documented text, and the count is its length,
  which leaves no room for the terminator.
- `item_value_outside_buffer`: so the terminator always lands behind the block. The text itself is right exactly when the
  block happened to begin with a NUL.
- `item_value_recoverable_iff`: the text gives the record back exactly when no label stands in a field next to its own
  place.
-/
import OwliesServer.Core.CString
import OwliesServer.Core.Labelled
import OwliesServer.Wire.ClientFrame

namespace OwliesServer.AccountValue

open OwliesServer.CChar OwliesServer.CString OwliesServer.Labelled OwliesServer.ClientFrame

/-! ## Model -/

/-- `struct userAccount`; a field is NULL or points to a C string -/
structure UserAccount where
  userId : Option CStr
  account : Option CStr
  device : Option CStr
  facebookAccount : Option CStr
  googlePlayAccount : Option CStr
  identifier : Option CStr
deriving DecidableEq

/-- what `strlen` adds for a field -/
def fieldLen : Option CStr → ℕ
  | none => 0
  | some s => s.bytes.length

/-- the block size that is allocated; the `int` it is counted in is exact for totals below 2³¹ -/
def redisItemValueLen (a : UserAccount) : ℕ :=
  72 + fieldLen a.userId + fieldLen a.account + fieldLen a.device + fieldLen a.facebookAccount +
    fieldLen a.googlePlayAccount + fieldLen a.identifier

/-- the append of a field, which a NULL field skips -/
def appendField : Option CStr → List Bytes
  | none => []
  | some s => [s.bytes]

/-- the arguments of the `strcat` calls, in order -/
def appended (a : UserAccount) : List Bytes :=
  [ascii "userid:"] ++ appendField a.userId ++ [ascii ",", ascii "account:"] ++ appendField a.account ++
    [ascii ",", ascii "device:"] ++ appendField a.device ++ [ascii ",", ascii "facebookaccount:"] ++
    appendField a.facebookAccount ++ [ascii ",", ascii "googleplayaccount:"] ++ appendField a.googlePlayAccount ++
    [ascii ",", ascii "identifier:"] ++ appendField a.identifier

/-- `get_user_account_redis_item_value`: the string it pushes and the offsets it has written in its block -/
def getUserAccountRedisItemValue (a : UserAccount) (block : Vector Byte (redisItemValueLen a)) (behind : Bytes) :
    Option (Bytes × List ℕ) := do
  let m ← strcatAll ⟨block.toList ++ behind, []⟩ (appended a)
  let value ← cString m.bytes
  some (value, m.writes)

/-! ## The documented text -/

/-- a field's text, empty for NULL -/
def fieldText : Option CStr → Bytes
  | none => []
  | some s => s.bytes

/-- field1_name:field1_value,…,fieldn_name:fieldn_value -/
def itemText (a : UserAccount) : Bytes :=
  ascii "userid:" ++ fieldText a.userId ++ ascii ",account:" ++ fieldText a.account ++ ascii ",device:" ++
    fieldText a.device ++ ascii ",facebookaccount:" ++ fieldText a.facebookAccount ++ ascii ",googleplayaccount:" ++
    fieldText a.googlePlayAccount ++ ascii ",identifier:" ++ fieldText a.identifier

@[simp] theorem flatten_appendField (f : Option CStr) : (appendField f).flatten = fieldText f := by
  cases f <;> simp [appendField, fieldText]

@[simp] theorem length_fieldText (f : Option CStr) : (fieldText f).length = fieldLen f := by
  cases f <;> rfl

theorem nul_notMem_fieldText (f : Option CStr) : 0#8 ∉ fieldText f := by
  cases f with
  | none => simp [fieldText]
  | some s => exact s.nul_free

theorem appended_flatten (a : UserAccount) : (appended a).flatten = itemText a := by
  simp [appended, itemText, ascii]

/-- the hand-counted 72 is the length of the labels and separators -/
theorem length_itemText (a : UserAccount) : (itemText a).length = redisItemValueLen a := by
  simp only [itemText, List.length_append, length_fieldText, redisItemValueLen]
  simp only [ascii, List.length_map, String.length_toList, show "userid:".length = 7 from rfl,
    show ",account:".length = 9 from rfl, show ",device:".length = 8 from rfl,
    show ",facebookaccount:".length = 17 from rfl, show ",googleplayaccount:".length = 19 from rfl,
    show ",identifier:".length = 12 from rfl]
  omega

theorem nul_notMem_itemText (a : UserAccount) : 0#8 ∉ itemText a := by
  simp only [itemText, List.mem_append, nul_notMem_fieldText, or_false]
  decide +kernel

theorem nul_notMem_appended (a : UserAccount) : ∀ x ∈ appended a, 0#8 ∉ x := by
  intro x hx hnul
  refine nul_notMem_itemText a ?_
  rw [← appended_flatten]
  exact List.mem_flatten.2 ⟨x, hx, hnul⟩

/-! ## The value in its block -/

variable (a : UserAccount) (block : Vector Byte (redisItemValueLen a)) (behind : Bytes)

/-- the call from a memory whose first NUL is known -/
theorem item_value_spec {s rest : Bytes} (hs : 0#8 ∉ s) (h : block.toList ++ behind = s ++ 0#8 :: rest) :
    (redisItemValueLen a ≤ rest.length → ∃ writes,
      getUserAccountRedisItemValue a block behind = some (s ++ itemText a, writes) ∧
      ∀ o, o ∈ writes ↔ s.length ≤ o ∧ o ≤ s.length + redisItemValueLen a) ∧
    (rest.length < redisItemValueLen a → getUserAccountRedisItemValue a block behind = none) := by
  obtain ⟨hfit, hfault⟩ := strcatAll_spec (appended a) (nul_notMem_appended a) ⟨block.toList ++ behind, []⟩ s rest hs h
  rw [appended_flatten, length_itemText] at hfit hfault
  refine ⟨?_, ?_⟩
  · intro hle
    obtain ⟨m, hm, hbytes, hwrites⟩ := hfit hle
    have htext : cString m.bytes = some (s ++ itemText a) := by
      rw [hbytes, cString_append_iff _ _ (by simp [hs, nul_notMem_itemText a])]
      rfl
    refine ⟨m.writes, by simp [getUserAccountRedisItemValue, hm, htext], ?_⟩
    intro o
    simpa [appended] using hwrites o
  · intro hlt
    simp [getUserAccountRedisItemValue, hfault hlt]

/-- what a call that returns has found, pushed and written -/
theorem item_value_cases {value : Bytes} {writes : List ℕ}
    (h : getUserAccountRedisItemValue a block behind = some (value, writes)) :
    ∃ s rest, block.toList ++ behind = s ++ 0#8 :: rest ∧ redisItemValueLen a ≤ rest.length ∧
      value = s ++ itemText a ∧ ∀ o, o ∈ writes ↔ s.length ≤ o ∧ o ≤ s.length + redisItemValueLen a := by
  by_cases hnul : 0#8 ∈ block.toList ++ behind
  · obtain ⟨s, rest, hs, hsplit⟩ := exists_split_of_mem hnul
    obtain ⟨hfit, hfault⟩ := item_value_spec a block behind hs hsplit
    by_cases hle : redisItemValueLen a ≤ rest.length
    · obtain ⟨writes', hcall, hwrites⟩ := hfit hle
      obtain ⟨rfl, rfl⟩ := Prod.mk.inj (Option.some.inj (h.symm.trans hcall))
      exact ⟨s, rest, hsplit, hle, rfl, hwrites⟩
    · rw [hfault (by omega)] at h
      cases h
  · -- the first append runs off the mapped memory
    have hlen : strlen ⟨block.toList ++ behind, []⟩ = none := strlen_eq_none hnul
    simp [getUserAccountRedisItemValue, strcatAll, appended, strcat, hlen] at h

/-- the call returns, and every offset it has written lies in the block -/
def WithinBuffer : Prop :=
  ∃ value writes, getUserAccountRedisItemValue a block behind = some (value, writes) ∧
    ∀ o ∈ writes, o < redisItemValueLen a

/-- the call returns the documented text -/
def Exact : Prop := ∃ writes, getUserAccountRedisItemValue a block behind = some (itemText a, writes)

theorem not_withinBuffer : ¬ WithinBuffer a block behind := by
  intro ⟨value, writes, hcall, hin⟩
  obtain ⟨s, rest, -, -, -, hwrites⟩ := item_value_cases a block behind hcall
  -- the last terminator
  have hlast : s.length + redisItemValueLen a ∈ writes := (hwrites _).2 ⟨by omega, le_refl _⟩
  have := hin _ hlast
  omega

theorem exact_iff : Exact a block behind ↔ block.toList.head? = some 0#8 ∧ behind ≠ [] := by
  have hblock : block.toList.length = redisItemValueLen a := by simp
  have hpos : 0 < redisItemValueLen a := by simp [redisItemValueLen]
  obtain ⟨b, bs, hb⟩ := List.exists_cons_of_length_pos (hblock ▸ hpos)
  rw [hb, List.length_cons] at hblock
  apply Iff.intro
  · intro ⟨writes, hcall⟩
    obtain ⟨s, rest, hsplit, hle, htext, -⟩ := item_value_cases a block behind hcall
    obtain rfl : s = [] := by simpa using htext
    rw [hb, List.nil_append, List.cons_append, List.cons.injEq] at hsplit
    obtain ⟨rfl, hrest⟩ := hsplit
    refine ⟨by simp [hb], ?_⟩
    intro hnil
    rw [hnil, List.append_nil] at hrest
    rw [← hrest] at hle
    omega
  · intro ⟨hhead, hbehind⟩
    rw [hb, List.head?_cons, Option.some.injEq] at hhead
    subst hhead
    have hsplit : block.toList ++ behind = [] ++ 0#8 :: (bs ++ behind) := by simp [hb]
    have hle : redisItemValueLen a ≤ (bs ++ behind).length := by
      have := List.length_pos_iff.2 hbehind
      rw [List.length_append]
      omega
    obtain ⟨writes, hcall, -⟩ := (item_value_spec a block behind (by simp) hsplit).1 hle
    exact ⟨writes, by simpa using hcall⟩

/-- **The value never stays within its buffer.** The terminator always goes behind the block; the text alone is the
documented one exactly when the block begins with a NUL (and there is memory behind it to take the terminator). -/
theorem item_value_outside_buffer :
    ¬ WithinBuffer a block behind ∧ (Exact a block behind ↔ block.toList.head? = some 0#8 ∧ behind ≠ []) :=
  ⟨not_withinBuffer a block behind, exact_iff a block behind⟩

/-- a record with no field set -/
def blank : UserAccount := ⟨none, none, none, none, none, none⟩

/-- in a zeroed block the terminator is the 73rd byte; in a block of As the text does not come first either -/
theorem blank_value_outside_buffer :
    redisItemValueLen blank = 72 ∧
      (∃ writes, getUserAccountRedisItemValue blank (Vector.replicate _ 0#8) [0x41#8] = some (itemText blank, writes) ∧
        72 ∈ writes) ∧
      ¬ Exact blank (Vector.replicate _ 0x41#8) (List.replicate 80 0#8) := by
  refine ⟨rfl, ⟨_, rfl, ?_⟩, ?_⟩
  · decide +kernel
  · rw [exact_iff]
    decide +kernel

/-! ## Recovering the record -/

/-- a record with all six fields set -/
structure FullAccount where
  userId : CStr
  account : CStr
  device : CStr
  facebookAccount : CStr
  googlePlayAccount : CStr
  identifier : CStr
deriving DecidableEq

def FullAccount.toUserAccount (r : FullAccount) : UserAccount :=
  ⟨some r.userId, some r.account, some r.device, some r.facebookAccount, some r.googlePlayAccount, some r.identifier⟩

/-- the labels as they separate the fields, each with the field behind it -/
def FullAccount.labelledFields (r : FullAccount) : List (Bytes × Bytes) :=
  [(ascii ",account:", r.account.bytes), (ascii ",device:", r.device.bytes),
    (ascii ",facebookaccount:", r.facebookAccount.bytes), (ascii ",googleplayaccount:", r.googlePlayAccount.bytes),
    (ascii ",identifier:", r.identifier.bytes)]

/-- a call of `get_user_account_redis_item_value` can return the value, in the documented format -/
def Produces (r : FullAccount) (value : Bytes) : Prop :=
  value = itemText r.toUserAccount ∧ ∃ block behind writes,
    getUserAccountRedisItemValue r.toUserAccount block behind = some (value, writes)

theorem produces_iff (r : FullAccount) (value : Bytes) : Produces r value ↔ value = itemText r.toUserAccount := by
  apply Iff.intro
  · intro h
    exact h.1
  · intro h
    subst h
    have hpos : 0 < redisItemValueLen r.toUserAccount := by simp [redisItemValueLen]
    have hhead : (Vector.replicate (redisItemValueLen r.toUserAccount) 0#8).toList.head? = some 0#8 := by
      simp [List.head?_replicate]
      omega
    obtain ⟨writes, hcall⟩ := (exact_iff r.toUserAccount (Vector.replicate _ 0#8) [0#8]).2 ⟨hhead, by simp⟩
    exact ⟨rfl, _, _, writes, hcall⟩

theorem itemText_eq_labelled (r : FullAccount) :
    itemText r.toUserAccount = ascii "userid:" ++ labelled r.userId.bytes r.labelledFields := by
  simp [itemText, FullAccount.toUserAccount, FullAccount.labelledFields, fieldText]

theorem marked_labels (r : FullAccount) : ∀ p ∈ r.labelledFields, Marked p.1 := by
  have hmark : ∀ l ∈ [ascii "account:", ascii "device:", ascii "facebookaccount:", ascii "googleplayaccount:",
      ascii "identifier:"], 44#8 ∉ l := by decide +kernel
  simp only [FullAccount.labelledFields, List.forall_mem_cons, List.not_mem_nil, false_imp_iff, forall_const, and_true]
    at hmark ⊢
  obtain ⟨h1, h2, h3, h4, h5⟩ := hmark
  exact ⟨⟨44#8, _, rfl, h1⟩, ⟨44#8, _, rfl, h2⟩, ⟨44#8, _, rfl, h3⟩, ⟨44#8, _, rfl, h4⟩, ⟨44#8, _, rfl, h5⟩⟩

/-- the record that a text's words make up -/
theorem exists_of_labelled (r : FullAccount) (f : Bytes) (qs : List (Bytes × Bytes))
    (hl : qs.map Prod.fst = r.labelledFields.map Prod.fst)
    (ht : labelled f qs = labelled r.userId.bytes r.labelledFields) :
    ∃ r' : FullAccount, r'.userId.bytes = f ∧ r'.labelledFields = qs := by
  -- a NUL in a word would be one of the record's own text
  have hnul : ∀ w ∈ f :: qs.map Prod.snd, 0#8 ∉ w := by
    intro w hw hmem
    apply nul_notMem_itemText r.toUserAccount
    rw [itemText_eq_labelled, ← ht]
    exact List.mem_append_right _ (mem_labelled hw hmem)
  rcases qs with _ | ⟨⟨l1, w1⟩, _ | ⟨⟨l2, w2⟩, _ | ⟨⟨l3, w3⟩, _ | ⟨⟨l4, w4⟩, _ | ⟨⟨l5, w5⟩, qs⟩⟩⟩⟩⟩ <;>
    simp only [FullAccount.labelledFields, List.map_cons, List.map_nil, List.cons.injEq, reduceCtorEq, and_false,
      List.map_eq_nil_iff] at hl
  obtain ⟨rfl, rfl, rfl, rfl, rfl, rfl⟩ := hl
  refine ⟨⟨⟨f, ?_⟩, ⟨w1, ?_⟩, ⟨w2, ?_⟩, ⟨w3, ?_⟩, ⟨w4, ?_⟩, ⟨w5, ?_⟩⟩, rfl, rfl⟩ <;>
    exact hnul _ (by simp)

theorem FullAccount.ext_labelled {r r' : FullAccount} (hu : r.userId.bytes = r'.userId.bytes)
    (hf : r.labelledFields = r'.labelledFields) : r = r' := by
  simp only [FullAccount.labelledFields, List.cons.injEq, Prod.mk.injEq, true_and, and_true] at hf
  obtain ⟨ha, hd, hfb, hg, hi⟩ := hf
  cases r
  cases r'
  simp only [FullAccount.mk.injEq]
  exact ⟨CStr.ext_bytes hu, CStr.ext_bytes ha, CStr.ext_bytes hd, CStr.ext_bytes hfb, CStr.ext_bytes hg,
    CStr.ext_bytes hi⟩

/-- **When a value gives its record back.** No other record has the same value exactly when no label (with the comma
before it) occurs in the field before its own place or in the field behind it. -/
theorem item_value_recoverable_iff (r : FullAccount) :
    (∀ r' value, Produces r value → Produces r' value → r' = r) ↔ Clean r.userId.bytes r.labelledFields := by
  apply Iff.intro
  · intro h
    by_contra hc
    obtain ⟨f, qs, hl, ht, hne⟩ := exists_other_of_not_clean r.labelledFields
      (fun p hp => by obtain ⟨c, t, he, -⟩ := marked_labels r p hp; simp [he]) r.userId.bytes hc
    obtain ⟨r', rfl, rfl⟩ := exists_of_labelled r f qs hl ht
    have hsame : itemText r'.toUserAccount = itemText r.toUserAccount := by
      rw [itemText_eq_labelled, itemText_eq_labelled, ht]
    obtain rfl := h r' _ ((produces_iff r _).2 rfl) ((produces_iff r' _).2 hsame.symm)
    exact hne ⟨rfl, rfl⟩
  · intro hc r' value hp hp'
    rw [produces_iff] at hp hp'
    have ht : labelled r.userId.bytes r.labelledFields = labelled r'.userId.bytes r'.labelledFields := by
      apply (List.append_right_inj (ascii "userid:")).1
      calc ascii "userid:" ++ labelled r.userId.bytes r.labelledFields
          = value := by rw [hp, itemText_eq_labelled]
        _ = ascii "userid:" ++ labelled r'.userId.bytes r'.labelledFields := by rw [hp', itemText_eq_labelled]
    obtain ⟨hu, hf⟩ := labelled_injective_of_clean r.labelledFields (marked_labels r) r.userId.bytes hc r'.userId.bytes
      r'.labelledFields rfl ht
    exact (FullAccount.ext_labelled hu hf).symm

/-- a C string literal -/
def cstr (s : String) : CStr := ⟨(ascii s).filter (· ≠ 0#8), by simp⟩

/-- two accounts, one named like the label that follows it, with one value -/
theorem two_records_one_value :
    ∃ r r' value, r ≠ r' ∧ Produces r value ∧ Produces r' value ∧
      r.account = cstr "a,device:b" ∧ r.device = cstr "c" ∧ r'.account = cstr "a" ∧ r'.device = cstr "b,device:c" := by
  refine ⟨⟨cstr "1", cstr "a,device:b", cstr "c", cstr "f", cstr "g", cstr "i"⟩,
    ⟨cstr "1", cstr "a", cstr "b,device:c", cstr "f", cstr "g", cstr "i"⟩, _, ?_, (produces_iff _ _).2 rfl,
    (produces_iff _ _).2 ?_, rfl, rfl, rfl, rfl⟩
  · decide +kernel
  · decide +kernel

end OwliesServer.AccountValue
