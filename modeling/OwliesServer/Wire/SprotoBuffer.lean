/-
The encoder's buffer (3rd/skynet/lualib-src/sproto: `lencode` keeps it from call to call, and makes it bigger when a message
does not fit).

- `encode_run`: for types without arrays of integers, what a message is encoded to does not depend on what was encoded
  before it, and nothing is written outside of the buffer.
- `encoded_round_trip`: under such types, a message that conforms to its type is encoded if it needs no more than the
  largest buffer, and decodes to what its type keeps of it.
- `integer_array_overflow_iff`: an array of integers is written outside of the buffer if many that fit into 32 bits are
  followed by one that does not, exactly when there is room for them with 4 bytes each and not with 8.
-/
import OwliesServer.Core.Room
import OwliesServer.Wire.SprotoRoundTrip

namespace OwliesServer.Sproto

open OwliesServer.CChar OwliesServer.Framing OwliesServer.Lua OwliesServer.Room

/-! ## More room makes no difference -/

/-- more room changes nothing but a -1, and nothing is written outside -/
abbrev Steady {α : Type} (f : ℕ → Except Stop α) : Prop := Settles (· = .negative) (· = .outside) f

/-- no arrays of integers -/
def Plain (st : SprotoType) : Prop := ∀ f ∈ st.fields, f.shape ≠ .array .integer

theorem plain_emptyType : Plain emptyType := by
  intro f hf
  cases hf

theorem steady_raise {α : Type} (e : Error) : Steady fun _ => (.error (.raise e) : Except Stop α) :=
  settles_const (by rintro _ ⟨⟩; exact nofun)

theorem steady_check {α : Type} {f : ℕ → Except Stop α} (b : ℕ) (hf : Steady fun n => f (n + b)) :
    Steady fun n => if n < b then .error .negative else f n := by
  apply settles_check
  · rfl
  · exact nofun
  · exact hf

/-- a write that the check before it has made room for -/
theorem steady_write {bytes : Bytes} {b : ℕ} (h : bytes.length ≤ b) : Steady fun n => writeBytes (n + b) bytes := by
  have hok : (fun n => writeBytes (n + b) bytes) = fun _ => .ok bytes :=
    funext fun n => writeBytes_of_le (Nat.le_add_left_of_le h)
  rw [hok]
  exact settles_ok _

theorem steady_fillSize (content : Bytes) : Steady fun n => fillSize (n + SIZEOF_LENGTH) content := by
  have hok : (fun n => fillSize (n + SIZEOF_LENGTH) content) = fun _ => .ok (le 4 content.length ++ content) :=
    funext fun n => fillSize_of_le (Nat.le_add_left _ n) content
  rw [hok]
  exact settles_ok _

/-- The records that are written, and those that may come, are no more than the header has room for. A record is left over
for each field without a value, and it is enough for the skip it causes. -/
structure RoomFor (maxn : ℕ) (w : Written) (expected : ℕ) (fields : List Field) : Prop where
  records : w.records.length + (if w.next < expected then 1 else 0) + maxnFrom expected fields ≤ maxn
  next_le : w.next ≤ expected
  tags : ∀ f ∈ fields, expected ≤ f.tag
  ascending : fields.Pairwise fun f g => f.tag < g.tag

theorem RoomFor.records_le {maxn : ℕ} {w : Written} {expected : ℕ} {fields : List Field}
    (h : RoomFor maxn w expected fields) : w.records.length ≤ maxn := by
  have := h.records
  omega

theorem roomFor_empty (st : SprotoType) : RoomFor st.maxn .empty 0 st.fields where
  records := Nat.le_of_eq (Nat.zero_add _)
  next_le := le_rfl
  tags := fun _ _ => Nat.zero_le _
  ascending := st.ascending

theorem RoomFor.skip {maxn : ℕ} {w : Written} {expected : ℕ} {f : Field} {fields : List Field}
    (h : RoomFor maxn w expected (f :: fields)) : RoomFor maxn w (f.tag + 1) fields := by
  obtain ⟨hlt, hasc⟩ := List.pairwise_cons.1 h.ascending
  have hrecords := h.records
  have hnext := h.next_le
  have htag := h.tags f List.mem_cons_self
  rw [maxnFrom] at hrecords
  refine ⟨?_, by omega, fun g hg => hlt g hg, hasc⟩
  split_ifs at hrecords ⊢ <;> omega

theorem RoomFor.add {maxn : ℕ} {w : Written} {expected : ℕ} {f : Field} {fields : List Field}
    (h : RoomFor maxn w expected (f :: fields)) (value : ℕ) (data : Bytes) :
    RoomFor maxn (w.add f.tag value data) (f.tag + 1) fields := by
  obtain ⟨hlt, hasc⟩ := List.pairwise_cons.1 h.ascending
  have hrecords := h.records
  have hnext := h.next_le
  have htag := h.tags f List.mem_cons_self
  rw [maxnFrom] at hrecords
  refine ⟨?_, le_rfl, fun g hg => hlt g hg, hasc⟩
  simp only [Written.add, List.length_append, List.length_singleton, lt_irrefl, if_false]
  split_ifs at hrecords ⊢ <;> simp only [List.length_nil, List.length_singleton] <;> omega

section Steady

variable {lua : Conversions} {call : Except Stop Unit} {sub : ℕ → Value → ℕ → Except Stop Bytes}

theorem steady_checkInteger (name : Bytes) (index : ℕ) (v : Value) : Steady fun _ => checkInteger lua name index v := by
  unfold checkInteger
  cases lua.toInteger v with
  | none => exact steady_raise _
  | some x => exact settles_ok _

theorem steady_checkBoolean (name : Bytes) (index : ℕ) (v : Value) : Steady fun _ => checkBoolean name index v := by
  cases v with
  | boolean b => exact settles_ok _
  | _ => exact steady_raise _

theorem steady_encodeInteger (v : BitVec 64) : Steady (encodeInteger v) := by
  have hshort : (le 4 4 ++ le 4 (low32 v)).length ≤ SIZEOF_LENGTH + 4 := by simp [SIZEOF_LENGTH]
  have hlong : (le 4 8 ++ le 8 v.toNat).length ≤ SIZEOF_LENGTH + 8 := by simp [SIZEOF_LENGTH]
  refine settles_ite (settles_ite (settles_ok _) (steady_check _ ?_)) (steady_check _ ?_)
  · exact settles_bind (steady_write hshort) fun _ => settles_ok _
  · exact settles_bind (steady_write hlong) fun _ => settles_ok _

theorem steady_encodeBooleanArray (name : Bytes) (elements : List Value) (index : ℕ) :
    Steady (encodeBooleanArray name elements index) := by
  induction elements generalizing index with
  | nil => exact settles_ok _
  | cons v elements ih =>
    exact settles_bind (steady_checkBoolean _ _ _) fun b => steady_check _ (settles_bind (steady_write le_rfl) fun _ =>
      settles_bind (settles_add_sub (ih _) 1) fun _ => settles_ok _)

variable (hcall : ∀ e, call = .error e → e ≠ .outside) (hsub : ∀ i v, Steady (sub i v))

include hsub in
theorem steady_encodeContent (k : Kind) (name : Bytes) (index : ℕ) (v : Value) :
    Steady (encodeContent lua sub k name index v) := by
  unfold encodeContent
  cases k with
  | struct i =>
    cases v with
    | table array hash => exact hsub i _
    | _ => exact steady_raise _
  | _ =>
    cases lua.toText v with
    | none => exact steady_raise _
    | some s => exact steady_check _ (steady_write le_rfl)

include hsub in
theorem steady_encodeObjectArray (k : Kind) (name : Bytes) (elements : List Value) (index : ℕ) :
    Steady (encodeObjectArray lua sub k name elements index) := by
  induction elements generalizing index with
  | nil => exact steady_check _ (settles_ok _)
  | cons v elements ih =>
    refine steady_check _ (settles_bind (settles_add_sub (steady_encodeContent hsub k name index v) _) fun content => ?_)
    refine settles_bind (steady_fillSize content) fun _ => ?_
    exact settles_bind (settles_add_sub (settles_sub (ih (index + 1)) content.length) _) fun _ => settles_ok _

include hcall

theorem steady_fetchArray (name : Bytes) (t : Value) : Steady fun _ => fetchArray call name t := by
  refine settles_bind (settles_const hcall) fun _ => ?_
  cases getField name t with
  | nil => exact settles_ok _
  | table array hash => exact settles_ok _
  | _ => exact steady_raise _

include hsub

theorem steady_encodeSingle (k : Kind) (name : Bytes) (t : Value) :
    Steady (encodeSingle lua call sub k name t) := by
  cases k with
  | integer =>
    exact settles_bind (settles_const hcall) fun _ => settles_ite (settles_ok _)
      (settles_bind (steady_checkInteger _ _ _) fun v => settles_bind (steady_encodeInteger v) fun _ => settles_ok _)
  | boolean =>
    exact settles_bind (settles_const hcall) fun _ => settles_ite (settles_ok _)
      (settles_bind (steady_checkBoolean _ _ _) fun _ => settles_ok _)
  | _ =>
    exact steady_check _ (settles_bind (settles_const hcall) fun _ => settles_ite (settles_ok _)
      (settles_bind (settles_add_sub (steady_encodeContent hsub _ _ _ _) _) fun content =>
        settles_bind (steady_fillSize content) fun _ => settles_ok _))

/-- strings and structs, behind the length of all -/
theorem steady_encodeObjects (k : Kind) (elements : Value → List Value) (name : Bytes) (t : Value) :
    Steady fun size => fetchArray call name t >>= fun
        | none => .ok none
        | some v => encodeObjectArray lua sub k name (elements v) 1 size >>= fun content =>
          fillSize (size + SIZEOF_LENGTH) content >>= fun data => .ok (some (0, data)) := by
  refine settles_bind (steady_fetchArray hcall name t) fun r => ?_
  cases r with
  | none => exact settles_ok _
  | some v =>
    exact settles_bind (steady_encodeObjectArray hsub _ _ _ _) fun content =>
      settles_bind (steady_fillSize content) fun _ => settles_ok _

theorem steady_encodeArray (k : Kind) (hk : k ≠ .integer) (elements : Value → List Value) (name : Bytes) (t : Value) :
    Steady (encodeArray lua call sub k elements name t) := by
  cases k with
  | integer => exact absurd rfl hk
  | boolean =>
    refine steady_check _ (settles_bind (steady_fetchArray hcall name t) fun r => ?_)
    cases r with
    | none => exact settles_ok _
    | some v =>
      exact settles_bind (settles_add_sub (steady_encodeBooleanArray _ _ _) _) fun content =>
        settles_bind (steady_fillSize content) fun _ => settles_ok _
  | _ =>
    apply steady_check
    simp only [Nat.add_sub_cancel]
    exact steady_check _ (settles_add (steady_encodeObjects hcall hsub _ elements name t) SIZEOF_LENGTH)

theorem steady_encodeField (f : Field) (hf : f.shape ≠ .array .integer) (t : Value) :
    Steady (encodeField lua call sub f t) := by
  unfold encodeField
  cases hs : f.shape with
  | single k => exact steady_encodeSingle hcall hsub k _ _
  | array k => exact steady_encodeArray hcall hsub k (fun hk => hf (by rw [hs, hk])) _ _ _
  | map i key => exact steady_encodeArray hcall hsub (.struct i) nofun _ _ _

theorem steady_encodeFields (t : Value) (fields : List Field) (hfields : ∀ f ∈ fields, f.shape ≠ .array .integer)
    (maxn : ℕ) (w : Written) (expected : ℕ) (hroom : RoomFor maxn w expected fields) :
    Steady fun size => encodeFields lua call sub t maxn size fields w := by
  induction fields generalizing w expected with
  | nil => exact settles_ok _
  | cons f fields ih =>
    obtain ⟨hf, hfields⟩ := List.forall_mem_cons.1 hfields
    refine settles_bind (settles_sub (steady_encodeField hcall hsub f hf t) _) fun r => ?_
    cases r with
    | none => exact ih hfields w _ hroom.skip
    | some x =>
      have hnext := hroom.add x.1 x.2
      refine settles_ite (settles_const (by rintro _ ⟨⟩; exact nofun)) ?_
      simp only [if_neg (Nat.not_lt.2 hnext.records_le)]
      exact ih hfields _ _ hnext

theorem steady_encodeType (st : SprotoType) (hst : Plain st) (t : Value) : Steady (encodeType lua call sub st t) :=
  steady_check _ (settles_bind (settles_add_sub (steady_encodeFields hcall hsub t st.fields hst _ _ _ (roomFor_empty st)) _)
    fun _ => settles_ok _)

end Steady

/-- **More room changes nothing but a -1**, and nothing is written outside. -/
theorem steady_sprotoEncode (lua : Conversions) {scheme : Scheme} (hscheme : ∀ st ∈ scheme, Plain st) (levels : ℕ)
    (st : SprotoType) (hst : Plain st) (t : Value) : Steady (sprotoEncode lua scheme levels st t) := by
  induction levels generalizing st t with
  | zero => exact steady_encodeType (by rintro _ ⟨⟩; exact nofun) (fun _ _ => steady_raise _) st hst t
  | succ levels ih =>
    have hcall : ∀ e, (.ok () : Except Stop Unit) = .error e → e ≠ .outside := nofun
    exact steady_encodeType hcall (fun i v => ih _ (scheme_type hscheme plain_emptyType i) v) st hst t

/-! ## The buffer from call to call -/

/-- the last size of the buffer that is not above ENCODE_MAXSIZE -/
def largestBuffer : ℕ := ENCODE_BUFFERSIZE * 2 ^ 12

/-- what a message is encoded to with the largest buffer -/
def encoded (lua : Conversions) (scheme : Scheme) (st : SprotoType) (t : Value) : Except Stop Bytes :=
  if isTable t then
    match sprotoEncode lua scheme ENCODE_DEEPLEVEL st t largestBuffer with
    | .error .negative => .error (.raise .tooLarge)
    | r => r
  else .error (.raise (.tableExpected (typename t)))

/-- messages one after another, with one buffer -/
def encodeRun (lua : Conversions) (scheme : Scheme) : List (SprotoType × Value) → ℕ → List (Except Stop Bytes)
  | [], _ => []
  | (st, t) :: messages, sz => (lencode lua scheme st t sz).1 :: encodeRun lua scheme messages (lencode lua scheme st t sz).2

/-- the sizes the buffer can have -/
def BufferSize (sz : ℕ) : Prop := ∃ j ≤ 12, sz = ENCODE_BUFFERSIZE * 2 ^ j

theorem bufferSize_first : BufferSize ENCODE_BUFFERSIZE := ⟨0, Nat.zero_le _, rfl⟩

theorem bufferSize_double {sz : ℕ} (h : BufferSize sz) (hmax : sz * 2 ≤ ENCODE_MAXSIZE) : BufferSize (sz * 2) := by
  obtain ⟨j, hj, rfl⟩ := h
  rcases Nat.eq_or_lt_of_le hj with rfl | hlt
  · exact absurd hmax (by decide)
  · exact ⟨j + 1, hlt, by rw [Nat.pow_succ, Nat.mul_assoc]⟩

theorem bufferSize_largest {sz : ℕ} (h : BufferSize sz) (hmax : ¬ sz * 2 ≤ ENCODE_MAXSIZE) : sz = largestBuffer := by
  obtain ⟨j, hj, rfl⟩ := h
  rcases Nat.eq_or_lt_of_le hj with rfl | hlt
  · rfl
  · have : 2 ^ j ≤ 2 ^ 11 := Nat.pow_le_pow_right (by decide) (Nat.le_of_lt_succ hlt)
    unfold ENCODE_BUFFERSIZE ENCODE_MAXSIZE at hmax
    omega

theorem BufferSize.le {sz : ℕ} (h : BufferSize sz) : 0 < sz ∧ sz ≤ largestBuffer := by
  obtain ⟨j, hj, rfl⟩ := h
  exact ⟨Nat.mul_pos (by decide) (Nat.pow_pos (by decide)), Nat.mul_le_mul_left _ (Nat.pow_le_pow_right (by decide) hj)⟩

section History

variable (lua : Conversions) {scheme : Scheme} (hscheme : ∀ st ∈ scheme, Plain st)
include hscheme

/-- the size of the buffer makes no difference, and the next size is one of the same -/
theorem encodeLoop_eq (st : SprotoType) (hst : Plain st) (t : Value) (ht : isTable t) (sz : ℕ) (hsz : BufferSize sz) :
    (encodeLoop lua scheme st t sz).1 = encoded lua scheme st t ∧ BufferSize (encodeLoop lua scheme st t sz).2 := by
  have hsteady := steady_sprotoEncode lua hscheme ENCODE_DEEPLEVEL st hst t
  fun_induction encodeLoop lua scheme st t sz with
  | case1 sz hneg h ih => exact ih (bufferSize_double hsz h.2)
  | case2 sz hneg h =>
    have hlargest := bufferSize_largest hsz fun hle => h ⟨hsz.le.1, hle⟩
    refine ⟨?_, hsz⟩
    rw [encoded, if_pos ht, ← hlargest, hneg]
  | case3 sz hfinal =>
    have hsame := hsteady.settled sz largestBuffer hsz.le.2 (by rintro e he rfl; exact hfinal he)
    refine ⟨?_, hsz⟩
    rw [encoded, if_pos ht, hsame]
    split
    · exact absurd ‹_› hfinal
    · rfl

theorem lencode_eq (st : SprotoType) (hst : Plain st) (t : Value) (sz : ℕ) (hsz : BufferSize sz) :
    (lencode lua scheme st t sz).1 = encoded lua scheme st t ∧ BufferSize (lencode lua scheme st t sz).2 := by
  unfold lencode
  by_cases ht : isTable t = true
  · rw [if_pos ht]
    exact encodeLoop_eq lua hscheme st hst t ht sz hsz
  · rw [if_neg ht, encoded, if_neg ht]
    exact ⟨rfl, hsz⟩

theorem encoded_ne_outside (st : SprotoType) (hst : Plain st) (t : Value) : encoded lua scheme st t ≠ .error .outside := by
  have hsound := (steady_sprotoEncode lua hscheme ENCODE_DEEPLEVEL st hst t).sound largestBuffer
  intro h
  unfold encoded at h
  split_ifs at h
  · split at h
    · cases h
    · exact hsound _ h rfl
  · cases h

theorem encodeRun_eq (messages : List (SprotoType × Value)) (hmessages : ∀ m ∈ messages, Plain m.1) (sz : ℕ)
    (hsz : BufferSize sz) :
    encodeRun lua scheme messages sz = messages.map fun m => encoded lua scheme m.1 m.2 := by
  induction messages generalizing sz with
  | nil => rfl
  | cons m messages ih =>
    obtain ⟨hm, hmessages⟩ := List.forall_mem_cons.1 hmessages
    obtain ⟨hsame, hnext⟩ := lencode_eq lua hscheme m.1 hm m.2 sz hsz
    rw [encodeRun, hsame, ih hmessages _ hnext, List.map_cons]

/-- **The history of the buffer makes no difference**, for types without arrays of integers. Each message of a run is
encoded as it would be with the largest buffer, and no message makes the encoder write outside of the buffer it has. -/
theorem encode_run (messages : List (SprotoType × Value)) (hmessages : ∀ m ∈ messages, Plain m.1) :
    encodeRun lua scheme messages ENCODE_BUFFERSIZE = messages.map (fun m => encoded lua scheme m.1 m.2) ∧
      ∀ r ∈ encodeRun lua scheme messages ENCODE_BUFFERSIZE, r ≠ .error .outside := by
  have heq := encodeRun_eq lua hscheme messages hmessages _ bufferSize_first
  refine ⟨heq, ?_⟩
  rw [heq]
  intro r hr
  obtain ⟨m, hm, rfl⟩ := List.mem_map.1 hr
  exact encoded_ne_outside lua hscheme m.1 (hmessages m hm) m.2

end History

def responseOf (userId : Bytes) (energy : BitVec 64) : Value :=
  .table [] [(.string (ascii "user_id"), .string userId), (.string (ascii "energy"), .integer energy)]

/-- the responses to two users, the first with an energy that does not fit into its record -/
def sampleMessages : List (SprotoType × Value) :=
  [(Schemes.loginResponse, responseOf (ascii "ann") 100000), (Schemes.loginResponse, responseOf (ascii "7") 100)]

theorem encode_run_sample :
    encodeRun plainLua Schemes.server2Client sampleMessages ENCODE_BUFFERSIZE =
        sampleMessages.map (fun m => encoded plainLua Schemes.server2Client m.1 m.2) ∧
      ∀ r ∈ encodeRun plainLua Schemes.server2Client sampleMessages ENCODE_BUFFERSIZE, r ≠ .error .outside := by
  have hplain : Plain Schemes.loginResponse := by unfold Plain; decide
  have hscheme : ∀ st ∈ Schemes.server2Client, Plain st := fun st h => List.mem_singleton.1 h ▸ hplain
  refine encode_run plainLua hscheme sampleMessages ?_
  intro m hm
  rcases List.mem_pair.1 hm with rfl | rfl
  · exact hplain
  · exact hplain

/-! ## Messages that are encoded -/

section Conforms

variable (lua : Conversions) (conforms : ℕ → Value → Prop) (need : ℕ → Value → ℕ)

/-- the value is of the kind, or is converted to it -/
def ConformsContent (k : Kind) (v : Value) : Prop :=
  match k with
  | .integer => (lua.toInteger v).isSome
  | .boolean => ∃ b, v = .boolean b
  | .string => (lua.toText v).isSome
  | .struct i => isTable v ∧ conforms i v

def ConformsField (f : Field) (v : Value) : Prop :=
  v.isNil ∨ match f.shape with
    | .single k => ConformsContent lua conforms k v
    | .array k => isTable v ∧ ∀ x ∈ items v, ConformsContent lua conforms k x
    | .map i _ => isTable v ∧ ∀ x ∈ values v, ConformsContent lua conforms (.struct i) x

/-- the bytes of a string or a struct -/
def needContent (k : Kind) (v : Value) : ℕ :=
  match k with
  | .struct i => need i v
  | _ => ((lua.toText v).getD []).length

/-- the bytes of an array of strings or structs, with room for one more length -/
def needObjects (k : Kind) (elements : List Value) : ℕ :=
  2 * SIZEOF_LENGTH + (elements.map fun v => SIZEOF_LENGTH + needContent lua need k v).sum

/-- the room a field needs for its data; strings, structs and arrays need some even without a value -/
def needField (f : Field) (v : Value) : ℕ :=
  match f.shape with
  | .single .integer => SIZEOF_LENGTH + 8
  | .single .boolean => 0
  | .single k => SIZEOF_LENGTH + needContent lua need k v
  | .array .boolean => SIZEOF_LENGTH + (items v).length
  | .array k => needObjects lua need k (items v)
  | .map i _ => needObjects lua need (.struct i) (values v)

end Conforms

/-- the fields that have a value have one of their kind, and the structs are no deeper than so many levels -/
def Conforms (lua : Conversions) (scheme : Scheme) : ℕ → SprotoType → Value → Prop
  | 0, st, _ => st.fields = []
  | levels + 1, st, t =>
    ∀ f ∈ st.fields, ConformsField lua (fun i v => Conforms lua scheme levels (scheme.type i) v) f (getField f.name t)

/-- the room a message needs -/
def need (lua : Conversions) (scheme : Scheme) : ℕ → SprotoType → Value → ℕ
  | 0, st, _ => 2 + st.maxn * 2
  | levels + 1, st, t => 2 + st.maxn * 2 +
    (st.fields.map fun f => needField lua (fun i v => need lua scheme levels (scheme.type i) v) f (getField f.name t)).sum

/-- the data of a field are no more than so many bytes -/
def Within (b : ℕ) : Option (ℕ × Bytes) → Prop
  | none => True
  | some x => x.2.length ≤ b

section Succeeds

variable {lua : Conversions} {enc : ℕ → Value → ℕ → Except Stop Bytes} {conforms : ℕ → Value → Prop}
  {need : ℕ → Value → ℕ}
  (hsub : ∀ i v length, conforms i v → need i v ≤ length → ∃ bytes, enc i v length = .ok bytes ∧ bytes.length ≤ need i v)

include hsub in
theorem encodeContent_of_conforms {k : Kind} (hk : k.IsObject) (name : Bytes) (index : ℕ) {v : Value} (length : ℕ)
    (hv : ConformsContent lua conforms k v) (hlength : needContent lua need k v ≤ length) :
    ∃ content, encodeContent lua enc k name index v length = .ok content ∧
      content.length ≤ needContent lua need k v := by
  cases k with
  | integer => exact absurd hk id
  | boolean => exact absurd hk id
  | string =>
    obtain ⟨s, hs⟩ := Option.isSome_iff_exists.1 hv
    simp only [needContent, hs, Option.getD_some] at hlength ⊢
    refine ⟨s, ?_, le_rfl⟩
    simp only [encodeContent, hs]
    rw [if_neg (Nat.not_lt.2 hlength), writeBytes_of_le hlength]
  | struct i =>
    obtain ⟨htable, hconf⟩ := hv
    cases v with
    | table array hash => exact hsub i _ length hconf hlength
    | _ => cases htable

include hsub in
theorem encodeObjectArray_of_conforms {k : Kind} (hk : k.IsObject) (name : Bytes) (elements : List Value) (index : ℕ)
    (size : ℕ) (hv : ∀ v ∈ elements, ConformsContent lua conforms k v)
    (hsize : SIZEOF_LENGTH + (elements.map fun v => SIZEOF_LENGTH + needContent lua need k v).sum ≤ size) :
    ∃ content, encodeObjectArray lua enc k name elements index size = .ok content ∧
      content.length ≤ (elements.map fun v => SIZEOF_LENGTH + needContent lua need k v).sum := by
  induction elements generalizing index size with
  | nil =>
    refine ⟨[], ?_, Nat.zero_le _⟩
    simp only [encodeObjectArray]
    rw [if_neg (by simpa using hsize)]
    rfl
  | cons v elements ih =>
    obtain ⟨hv, helements⟩ := List.forall_mem_cons.1 hv
    rw [List.map_cons, List.sum_cons] at hsize ⊢
    obtain ⟨content, hcontent, hlen⟩ := encodeContent_of_conforms hsub hk name index (size - SIZEOF_LENGTH) hv
      (by omega)
    obtain ⟨more, hmore, hlenmore⟩ := ih (index + 1) (size - SIZEOF_LENGTH - content.length) helements (by omega)
    refine ⟨le 4 content.length ++ content ++ more, ?_, ?_⟩
    · simp only [encodeObjectArray]
      rw [if_neg (by omega)]
      simp only [hcontent, fillSize_of_le (show SIZEOF_LENGTH ≤ size by omega), hmore, ok_bind]
      rfl
    · have : SIZEOF_LENGTH = 4 := rfl
      simp only [List.length_append, length_le]
      omega

theorem encodeBooleanArray_of_conforms (name : Bytes) (elements : List Value) (index : ℕ) (size : ℕ)
    (hv : ∀ v ∈ elements, ∃ b, v = Value.boolean b) (hsize : elements.length ≤ size) :
    ∃ content, encodeBooleanArray name elements index size = .ok content ∧ content.length = elements.length := by
  induction elements generalizing index size with
  | nil => exact ⟨[], rfl, rfl⟩
  | cons v elements ih =>
    obtain ⟨⟨b, rfl⟩, helements⟩ := List.forall_mem_cons.1 hv
    rw [List.length_cons] at hsize
    obtain ⟨more, hmore, hlen⟩ := ih (index + 1) (size - 1) helements (by omega)
    refine ⟨(if b then 1 else 0) :: more, ?_, by rw [List.length_cons, List.length_cons, hlen]⟩
    simp only [encodeBooleanArray, checkBoolean, ok_bind]
    rw [if_neg (by omega), writeBytes_of_le (by simp; omega), ok_bind, hmore]
    rfl

theorem encodeInteger_of_room (v : BitVec 64) {size : ℕ} (hsize : SIZEOF_LENGTH + 8 ≤ size) :
    ∃ x, encodeInteger v size = .ok x ∧ x.2.length ≤ SIZEOF_LENGTH + 8 := by
  have hfour : SIZEOF_LENGTH = 4 := rfl
  unfold encodeInteger
  by_cases hfits : fits32 v
  · rw [if_pos hfits]
    by_cases hlow : low32 v < 0x7fff
    · rw [if_pos hlow]
      exact ⟨_, rfl, Nat.zero_le _⟩
    · rw [if_neg hlow, if_neg (by omega), writeBytes_of_le (by simp; omega)]
      exact ⟨_, rfl, by simp [SIZEOF_LENGTH]⟩
  · rw [if_neg hfits, if_neg (by omega), writeBytes_of_le (by simp; omega)]
    exact ⟨_, rfl, by simp [SIZEOF_LENGTH]⟩

theorem encodeSingle_object {k : Kind} (hk : k.IsObject) (name : Bytes) (t : Value) {size : ℕ}
    (hsize : SIZEOF_LENGTH ≤ size) :
    encodeSingle lua (.ok ()) enc k name t size =
      if (getField name t).isNil then .ok none
      else encodeContent lua enc k name 0 (getField name t) (size - SIZEOF_LENGTH) >>= fun content =>
        .ok (some (0, le 4 content.length ++ content)) := by
  cases k with
  | integer => exact absurd hk id
  | boolean => exact absurd hk id
  | _ =>
    simp only [encodeSingle, fillSize_of_le hsize, ok_bind]
    exact if_neg (Nat.not_lt.2 hsize)

include hsub

theorem encodeObject_of_conforms {k : Kind} (hk : k.IsObject) (name : Bytes) {t : Value} {size : ℕ}
    (hv : (getField name t).isNil ∨ ConformsContent lua conforms k (getField name t))
    (hsize : SIZEOF_LENGTH + needContent lua need k (getField name t) ≤ size) :
    ∃ x, encodeSingle lua (.ok ()) enc k name t size = .ok x ∧
      Within (SIZEOF_LENGTH + needContent lua need k (getField name t)) x := by
  rw [encodeSingle_object hk name t (by omega)]
  by_cases hnil : (getField name t).isNil
  · rw [if_pos hnil]
    exact ⟨none, rfl, trivial⟩
  · obtain ⟨content, hcontent, hlen⟩ := encodeContent_of_conforms hsub hk name 0 (size - SIZEOF_LENGTH)
      (hv.resolve_left hnil) (by omega)
    rw [if_neg hnil, hcontent]
    refine ⟨_, rfl, ?_⟩
    simp only [Within, List.length_append, length_le]
    exact Nat.add_le_add_left hlen 4

theorem encodeSingle_of_conforms {k : Kind} {f : Field} (hshape : f.shape = .single k) {t : Value} {size : ℕ}
    (hv : ConformsField lua conforms f (getField f.name t)) (hsize : needField lua need f (getField f.name t) ≤ size) :
    ∃ x, encodeSingle lua (.ok ()) enc k f.name t size = .ok x ∧
      Within (needField lua need f (getField f.name t)) x := by
  simp only [ConformsField, needField, hshape] at hv hsize ⊢
  cases k with
  | integer =>
    by_cases hnil : (getField f.name t).isNil
    · exact ⟨none, if_pos hnil, trivial⟩
    · obtain ⟨v, hv⟩ := Option.isSome_iff_exists.1 (hv.resolve_left hnil)
      obtain ⟨x, hx, hlen⟩ := encodeInteger_of_room v hsize
      refine ⟨some x, ?_, hlen⟩
      simp only [encodeSingle, hnil, ok_bind, checkInteger, hv, hx]
      rfl
  | boolean =>
    by_cases hnil : (getField f.name t).isNil
    · exact ⟨none, if_pos hnil, trivial⟩
    · obtain ⟨b, hb⟩ := hv.resolve_left hnil
      refine ⟨some (((if b then 1 else 0) + 1) * 2, []), ?_, le_rfl⟩
      rw [hb] at hnil
      simp only [encodeSingle, hb, hnil, ok_bind, checkBoolean]
      rfl
  | string => exact encodeObject_of_conforms (k := .string) hsub trivial f.name hv hsize
  | struct i => exact encodeObject_of_conforms (k := .struct i) hsub trivial f.name hv hsize

omit hsub in
/-- what the first call back for an array gives -/
theorem fetchArray_of_conforms (name : Bytes) {t : Value} {P : Prop}
    (hv : (getField name t).isNil ∨ isTable (getField name t) ∧ P) :
    fetchArray (.ok ()) name t = .ok none ∨ P ∧ fetchArray (.ok ()) name t = .ok (some (getField name t)) := by
  unfold fetchArray
  rw [ok_bind]
  cases hfield : getField name t with
  | nil => exact .inl rfl
  | table array hash =>
    rw [hfield] at hv
    exact .inr ⟨(hv.resolve_left nofun).2, rfl⟩
  | _ =>
    rw [hfield] at hv
    rcases hv with h | ⟨h, -⟩
    · cases h
    · cases h

omit hsub in
theorem encodeArray_object {k : Kind} (hk : k.IsObject) (elements : Value → List Value) (name : Bytes) (t : Value)
    {size : ℕ} (hsize : 2 * SIZEOF_LENGTH ≤ size) :
    encodeArray lua (.ok ()) enc k elements name t size = fetchArray (.ok ()) name t >>= fun
      | none => .ok none
      | some v => encodeObjectArray lua enc k name (elements v) 1 (size - SIZEOF_LENGTH) >>= fun content =>
          .ok (some (0, le 4 content.length ++ content)) := by
  cases k with
  | integer => exact absurd hk id
  | boolean => exact absurd hk id
  | _ =>
    simp only [encodeArray, fillSize_of_le (show SIZEOF_LENGTH ≤ size by omega), ok_bind]
    exact (if_neg (by omega)).trans (if_neg (by omega))

theorem encodeObjects_of_conforms {k : Kind} (hk : k.IsObject) (elements : Value → List Value) (name : Bytes) {t : Value}
    {size : ℕ} (hv : (getField name t).isNil ∨
      isTable (getField name t) ∧ ∀ x ∈ elements (getField name t), ConformsContent lua conforms k x)
    (hsize : needObjects lua need k (elements (getField name t)) ≤ size) :
    ∃ x, encodeArray lua (.ok ()) enc k elements name t size = .ok x ∧
      Within (needObjects lua need k (elements (getField name t))) x := by
  unfold needObjects at hsize ⊢
  rw [encodeArray_object hk elements name t (by omega)]
  rcases fetchArray_of_conforms name hv with hfetch | ⟨helements, hfetch⟩
  · rw [hfetch]
    exact ⟨none, rfl, trivial⟩
  · obtain ⟨content, hcontent, hlen⟩ := encodeObjectArray_of_conforms hsub hk name (elements (getField name t)) 1
      (size - SIZEOF_LENGTH) helements (by omega)
    rw [hfetch, ok_bind]
    simp only [hcontent, ok_bind]
    refine ⟨_, rfl, ?_⟩
    have : SIZEOF_LENGTH = 4 := rfl
    simp only [Within, List.length_append, length_le]
    omega

theorem encodeArray_of_conforms {k : Kind} (hk : k ≠ .integer) {f : Field} (hshape : f.shape = .array k) {t : Value}
    {size : ℕ} (hv : ConformsField lua conforms f (getField f.name t))
    (hsize : needField lua need f (getField f.name t) ≤ size) :
    ∃ x, encodeArray lua (.ok ()) enc k items f.name t size = .ok x ∧
      Within (needField lua need f (getField f.name t)) x := by
  simp only [ConformsField, needField, hshape] at hv hsize ⊢
  cases k with
  | integer => exact absurd rfl hk
  | boolean =>
    simp only at hsize ⊢
    have hroom : ¬ size < SIZEOF_LENGTH := by omega
    simp only [encodeArray, hroom, if_false]
    rcases fetchArray_of_conforms f.name hv with hfetch | ⟨helements, hfetch⟩
    · rw [hfetch]
      exact ⟨none, rfl, trivial⟩
    · obtain ⟨content, hcontent, hlen⟩ := encodeBooleanArray_of_conforms f.name (items (getField f.name t)) 1
        (size - SIZEOF_LENGTH) helements (by omega)
      rw [hfetch, ok_bind]
      simp only [hcontent, fillSize_of_le (Nat.le_of_not_lt hroom), ok_bind]
      refine ⟨_, rfl, ?_⟩
      simp only [Within, List.length_append, length_le, hlen]
      exact le_rfl
  | string => exact encodeObjects_of_conforms (k := .string) hsub trivial items f.name hv hsize
  | struct i => exact encodeObjects_of_conforms (k := .struct i) hsub trivial items f.name hv hsize

theorem encodeField_of_conforms {f : Field} (hplain : f.shape ≠ .array .integer) {t : Value} (size : ℕ)
    (hv : ConformsField lua conforms f (getField f.name t)) (hsize : needField lua need f (getField f.name t) ≤ size) :
    ∃ x, encodeField lua (.ok ()) enc f t size = .ok x ∧ Within (needField lua need f (getField f.name t)) x := by
  unfold encodeField
  cases hshape : f.shape with
  | single k => exact encodeSingle_of_conforms hsub hshape hv hsize
  | array k => exact encodeArray_of_conforms hsub (fun hk => hplain (by rw [hshape, hk])) hshape hv hsize
  | map i key =>
    simp only [ConformsField, needField, hshape] at hv hsize ⊢
    exact encodeObjects_of_conforms (k := .struct i) hsub trivial values f.name hv hsize

theorem encodeFields_of_conforms {t : Value} (maxn size : ℕ) (fields : List Field)
    (hplain : ∀ f ∈ fields, f.shape ≠ .array .integer) (htag : ∀ f ∈ fields, f.tag < 0x7fff)
    (hv : ∀ f ∈ fields, ConformsField lua conforms f (getField f.name t)) (w : Written) (expected : ℕ)
    (hroom : RoomFor maxn w expected fields)
    (hsize : w.data.length + (fields.map fun f => needField lua need f (getField f.name t)).sum ≤ size) :
    ∃ w', encodeFields lua (.ok ()) enc t maxn size fields w = .ok w' ∧ w'.records.length ≤ maxn ∧
      w'.data.length ≤ w.data.length + (fields.map fun f => needField lua need f (getField f.name t)).sum := by
  induction fields generalizing w expected with
  | nil => exact ⟨w, rfl, hroom.records_le, le_rfl⟩
  | cons f fields ih =>
    obtain ⟨hf, hplain⟩ := List.forall_mem_cons.1 hplain
    obtain ⟨hft, htag⟩ := List.forall_mem_cons.1 htag
    obtain ⟨hfv, hv⟩ := List.forall_mem_cons.1 hv
    rw [List.map_cons, List.sum_cons] at hsize ⊢
    obtain ⟨x, hx, hwithin⟩ := encodeField_of_conforms hsub hf (size - w.data.length) hfv (by omega)
    rw [encodeFields, hx, ok_bind]
    cases x with
    | none =>
      obtain ⟨w', hw', hcount, hlen⟩ := ih hplain htag hv w _ hroom.skip (by omega)
      exact ⟨w', hw', hcount, by omega⟩
    | some y =>
      have hnext := hroom.add y.1 y.2
      have hdata : (w.add f.tag y.1 y.2).data.length = w.data.length + y.2.length := by simp [Written.add]
      simp only [Within] at hwithin
      obtain ⟨w', hw', hcount, hlen⟩ := ih hplain htag hv (w.add f.tag y.1 y.2) _ hnext (by omega)
      refine ⟨w', ?_, hcount, by omega⟩
      -- a tag is below 0x7fff, so the record that skips the tags before it is a word
      simp only
      rw [if_neg (by omega), if_neg (Nat.not_lt.2 hnext.records_le)]
      exact hw'

theorem encodeType_of_conforms {st : SprotoType} (hplain : Plain st) {t : Value} {size : ℕ}
    (hv : ∀ f ∈ st.fields, ConformsField lua conforms f (getField f.name t))
    (hsize : 2 + st.maxn * 2 + (st.fields.map fun f => needField lua need f (getField f.name t)).sum ≤ size) :
    ∃ bytes, encodeType lua (.ok ()) enc st t size = .ok bytes ∧
      bytes.length ≤ 2 + st.maxn * 2 + (st.fields.map fun f => needField lua need f (getField f.name t)).sum := by
  obtain ⟨w, hw, hcount, hlen⟩ := encodeFields_of_conforms hsub st.maxn (size - (2 + st.maxn * 2)) st.fields hplain
    st.tag_lt hv .empty 0 (roomFor_empty st) (by simp only [Written.empty, List.length_nil]; omega)
  have hwords : (w.records.flatMap (le 2)).length = w.records.length * 2 := length_flatMap_const (length_le 2) _
  unfold encodeType
  rw [if_neg (by omega), hw]
  refine ⟨_, rfl, ?_⟩
  simp only [Written.empty, List.length_nil, Nat.zero_add] at hlen
  simp only [List.length_append, length_le, hwords]
  omega

end Succeeds

theorem sprotoEncode_of_conforms {lua : Conversions} {scheme : Scheme} (hscheme : ∀ st ∈ scheme, Plain st) (levels : ℕ)
    (st : SprotoType) (hst : Plain st) (t : Value) (size : ℕ) (hv : Conforms lua scheme levels st t)
    (hsize : need lua scheme levels st t ≤ size) :
    ∃ bytes, sprotoEncode lua scheme levels st t size = .ok bytes ∧ bytes.length ≤ need lua scheme levels st t := by
  induction levels generalizing st t size with
  | zero =>
    have hfields : st.fields = [] := hv
    have hmaxn : st.maxn = 0 := by rw [SprotoType.maxn, hfields, maxnFrom]
    refine ⟨le 2 0, ?_, by rw [need, hmaxn, length_le]⟩
    rw [need] at hsize
    rw [sprotoEncode, encodeType, if_neg (Nat.not_lt.2 hsize), hfields]
    rfl
  | succ levels ih =>
    exact encodeType_of_conforms (fun i v length hconf hneed => ih _ (scheme_type hscheme plain_emptyType i) v length hconf hneed) hst hv
      hsize

theorem encodes_and_decodes {lua : Conversions} {scheme : Scheme} (hscheme : ∀ st ∈ scheme, Plain st) (st : SprotoType)
    (hst : Plain st) (t : Value) (ht : isTable t) (hv : Conforms lua scheme ENCODE_DEEPLEVEL st t)
    (hkeyed : Keyed lua scheme ENCODE_DEEPLEVEL st t)
    (hneed : need lua scheme ENCODE_DEEPLEVEL st t ≤ largestBuffer) :
    ∃ bytes, encoded lua scheme st t = .ok bytes ∧ bytes.length ≤ need lua scheme ENCODE_DEEPLEVEL st t ∧
      ∀ rest, (bytes ++ rest).length < 2 ^ 31 → ldecode scheme st (bytes ++ rest) =
        .ok (.table [] (kept lua scheme ENCODE_DEEPLEVEL st none t).hash, bytes.length) := by
  obtain ⟨bytes, hbytes, hlen⟩ := sprotoEncode_of_conforms hscheme ENCODE_DEEPLEVEL st hst t largestBuffer hv hneed
  obtain ⟨-, hdecode⟩ := sprotoEncode_ok lua scheme ENCODE_DEEPLEVEL st t largestBuffer (by decide) hkeyed bytes hbytes
  refine ⟨bytes, by rw [encoded, if_pos ht, hbytes], hlen, fun rest hrest => ?_⟩
  rw [ldecode_of_lt hrest, hdecode none rest, decoded]

/-- **A message that conforms to its type is encoded, whatever was encoded before it**, if the scheme has no arrays of
integers and the message needs no more than the largest buffer, and decodes to what its type keeps of it. -/
theorem encoded_round_trip {lua : Conversions} {scheme : Scheme} (hscheme : ∀ st ∈ scheme, Plain st) (st : SprotoType)
    (hst : Plain st) (t : Value) (ht : isTable t) (hv : Conforms lua scheme ENCODE_DEEPLEVEL st t)
    (hkeyed : Keyed lua scheme ENCODE_DEEPLEVEL st t)
    (hneed : need lua scheme ENCODE_DEEPLEVEL st t ≤ largestBuffer) (before : List (SprotoType × Value))
    (hbefore : ∀ m ∈ before, Plain m.1) :
    ∃ bytes, (encodeRun lua scheme (before ++ [(st, t)]) ENCODE_BUFFERSIZE).getLast? = some (.ok bytes) ∧
      ∀ rest, (bytes ++ rest).length < 2 ^ 31 → ldecode scheme st (bytes ++ rest) =
        .ok (.table [] (kept lua scheme ENCODE_DEEPLEVEL st none t).hash, bytes.length) := by
  obtain ⟨bytes, hbytes, -, hdecode⟩ := encodes_and_decodes hscheme st hst t ht hv hkeyed hneed
  refine ⟨bytes, ?_, hdecode⟩
  have hall : ∀ m ∈ before ++ [(st, t)], Plain m.1 := by
    intro m hm
    rcases List.mem_append.1 hm with hm | hm
    · exact hbefore m hm
    · obtain rfl := List.mem_singleton.1 hm
      exact hst
  rw [encodeRun_eq lua hscheme _ hall _ bufferSize_first, List.map_append, List.map_singleton, List.getLast?_append]
  simp [hbytes]

/-- behind the response to another user -/
theorem encoded_round_trip_sampleResponse :
    ∃ bytes, (encodeRun plainLua Schemes.server2Client
        ([(Schemes.loginResponse, responseOf (ascii "ann") 100000)] ++ [(Schemes.loginResponse, responseOf (ascii "7") 100)])
        ENCODE_BUFFERSIZE).getLast? = some (.ok bytes) ∧
      ldecode Schemes.server2Client Schemes.loginResponse (bytes ++ [1, 2]) =
        .ok (responseOf (ascii "7") 100, bytes.length) := by
  have hplain : Plain Schemes.loginResponse := by unfold Plain; decide
  have hscheme : ∀ st ∈ Schemes.server2Client, Plain st := fun st h => List.mem_singleton.1 h ▸ hplain
  have hconforms : Conforms plainLua Schemes.server2Client ENCODE_DEEPLEVEL Schemes.loginResponse
      (responseOf (ascii "7") 100) := by
    intro f hf
    rcases List.mem_pair.1 hf with rfl | rfl
    · exact .inr rfl
    · exact .inr rfl
  obtain ⟨bytes, hbytes, hdecode⟩ := encoded_round_trip hscheme Schemes.loginResponse hplain (responseOf (ascii "7") 100)
    rfl hconforms (keyed_of_no_maps _ (by decide) _ _ (by decide) _) (by decide +kernel)
    [(Schemes.loginResponse, responseOf (ascii "ann") 100000)] (fun m hm => List.mem_singleton.1 hm ▸ hplain)
  have hlen : (encodeRun plainLua Schemes.server2Client
      ([(Schemes.loginResponse, responseOf (ascii "ann") 100000)] ++ [(Schemes.loginResponse, responseOf (ascii "7") 100)])
      ENCODE_BUFFERSIZE).getLast?.map (fun r => r.toOption.map List.length) = some (some 11) := by decide +kernel
  rw [hbytes] at hlen
  have hlength : bytes.length = 11 := by simpa [Except.toOption] using hlen
  exact ⟨bytes, hbytes, hdecode [1, 2] (by simp [hlength])⟩

/-! ## Arrays of integers -/

/-- the integers of a run that 4 bytes are enough for, and one behind them that needs 8 -/
def Widens (lua : Conversions) (elements narrow : List Value) : Prop :=
  ∃ x rest, elements = narrow ++ x :: rest ∧ (∀ v ∈ narrow, ∃ y, lua.toInteger v = some y ∧ fits32 y) ∧
    ∃ y, lua.toInteger x = some y ∧ ¬ fits32 y

section Overflow

variable {lua : Conversions} {name : Bytes}

theorem widens_cons_narrow {v : Value} {y : BitVec 64} (hv : lua.toInteger v = some y) (hy : fits32 y)
    {elements narrow : List Value} :
    Widens lua (v :: elements) narrow ↔ ∃ narrow', narrow = v :: narrow' ∧ Widens lua elements narrow' := by
  apply Iff.intro
  · rintro ⟨x, rest, heq, hnarrow, z, hx, hz⟩
    cases narrow with
    | nil =>
      obtain ⟨rfl, -⟩ := List.cons.inj heq
      rw [hv] at hx
      cases hx
      exact absurd hy hz
    | cons u narrow =>
      obtain ⟨rfl, htail⟩ := List.cons.inj heq
      exact ⟨narrow, rfl, x, rest, htail, fun u hu => hnarrow u (List.mem_cons_of_mem _ hu), z, hx, hz⟩
  · rintro ⟨narrow', rfl, x, rest, rfl, hnarrow, hx⟩
    exact ⟨x, rest, rfl, List.forall_mem_cons.2 ⟨⟨y, hv, hy⟩, hnarrow⟩, hx⟩

theorem widens_cons_wide {v : Value} {y : BitVec 64} (hv : lua.toInteger v = some y) (hy : ¬ fits32 y)
    {elements narrow : List Value} : Widens lua (v :: elements) narrow ↔ narrow = [] := by
  apply Iff.intro
  · rintro ⟨x, rest, heq, hnarrow, -⟩
    cases narrow with
    | nil => rfl
    | cons u narrow =>
      obtain ⟨rfl, -⟩ := List.cons.inj heq
      obtain ⟨z, hz, hfits⟩ := hnarrow v List.mem_cons_self
      rw [hv] at hz
      cases hz
      exact absurd hfits hy
  · rintro rfl
    exact ⟨v, elements, rfl, nofun, y, hv, hy⟩

theorem not_widens_cons {v : Value} (hv : lua.toInteger v = none) {elements narrow : List Value} :
    ¬ Widens lua (v :: elements) narrow := by
  rintro ⟨x, rest, heq, hnarrow, y, hx, -⟩
  cases narrow with
  | nil =>
    obtain ⟨rfl, -⟩ := List.cons.inj heq
    rw [hv] at hx
    cases hx
  | cons u narrow =>
    obtain ⟨rfl, -⟩ := List.cons.inj heq
    obtain ⟨z, hz, -⟩ := hnarrow v List.mem_cons_self
    rw [hv] at hz
    cases hz

/-- once the integers are 8 bytes wide, every check is right -/
theorem encodeIntegerArray_wide (elements : List Value) (index : ℕ) (buffer : Bytes) (size : ℕ) :
    encodeIntegerArray lua name elements index true buffer size ≠ .error .outside := by
  induction elements generalizing index buffer size with
  | nil => exact nofun
  | cons v elements ih =>
    simp only [encodeIntegerArray, checkInteger]
    cases lua.toInteger v with
    | none => exact nofun
    | some y =>
      simp only [ok_bind, if_true]
      by_cases hroom : size < 8
      · rw [if_pos hroom]
        exact nofun
      · rw [if_neg hroom]
        by_cases hy : fits32 y
        · rw [if_pos hy, writeBytes_of_le (by simp; omega), ok_bind]
          exact ih _ _ _
        · rw [if_neg hy, writeBytes_of_le (by simp; omega), ok_bind]
          exact ih _ _ _

theorem encodeIntegerArray_outside_iff (lua : Conversions) (name : Bytes) (elements : List Value) (index : ℕ) (buffer : Bytes) (size : ℕ) :
    encodeIntegerArray lua name elements (index + 1) false buffer size = .error .outside ↔
      ∃ narrow, Widens lua elements narrow ∧ 4 * narrow.length + 8 ≤ size ∧ size < 8 * narrow.length + 4 * index := by
  induction elements generalizing index buffer size with
  | nil =>
    apply Iff.intro
    · exact nofun
    · rintro ⟨narrow, ⟨x, rest, heq, -⟩, -⟩
      cases narrow <;> cases heq
  | cons v elements ih =>
    simp only [encodeIntegerArray, checkInteger]
    cases hv : lua.toInteger v with
    | none =>
      apply Iff.intro
      · exact nofun
      · rintro ⟨narrow, hwidens, -⟩
        exact absurd hwidens (not_widens_cons hv)
    | some y =>
      simp only [ok_bind]
      by_cases hroom : size < 8
      · rw [if_pos hroom]
        apply Iff.intro
        · exact nofun
        · rintro ⟨narrow, -, hle, -⟩
          omega
      rw [if_neg hroom]
      by_cases hy : fits32 y
      · rw [if_pos hy, if_neg Bool.false_ne_true, writeBytes_of_le (by simp; omega), ok_bind, ih]
        apply Iff.intro
        · rintro ⟨narrow, hwidens, hle, hlt⟩
          refine ⟨v :: narrow, (widens_cons_narrow hv hy).2 ⟨narrow, rfl, hwidens⟩, ?_⟩
          rw [List.length_cons]
          omega
        · rintro ⟨narrow, hwidens, hle, hlt⟩
          obtain ⟨narrow', rfl, htail⟩ := (widens_cons_narrow hv hy).1 hwidens
          rw [List.length_cons] at hle hlt
          exact ⟨narrow', htail, by omega, by omega⟩
      · rw [if_neg hy, if_neg Bool.false_ne_true]
        simp only [widens_cons_wide hv hy, exists_eq_left, List.length_nil, Nat.add_sub_cancel]
        by_cases hout : size < index * 4
        · rw [if_pos hout]
          exact iff_of_true rfl (by omega)
        · rw [if_neg hout]
          refine iff_of_false ?_ (by omega)
          by_cases hlast : size - index * 4 < 8
          · rw [if_pos hlast]
            exact nofun
          · rw [if_neg hlast, writeBytes_of_le (by simp; omega), ok_bind]
            exact encodeIntegerArray_wide _ _ _ _

theorem encodeArray_integer {enc : ℕ → Value → ℕ → Except Stop Bytes} {t v : Value}
    (ht : fetchArray (.ok ()) name t = .ok (some v)) (room : ℕ) :
    encodeArray lua (.ok ()) enc .integer items name t (SIZEOF_LENGTH + 1 + room) = .error .outside ↔
      encodeIntegerArray lua name (items v) 1 false [] room = .error .outside := by
  have hroom : SIZEOF_LENGTH + 1 + room - SIZEOF_LENGTH - 1 = room := by omega
  simp only [encodeArray, fillSize_of_le (show SIZEOF_LENGTH ≤ SIZEOF_LENGTH + 1 + room by omega), ok_bind]
  rw [if_neg (by omega), if_neg (by omega), ht, ok_bind]
  simp only [hroom]
  exact bind_eq_error fun _ => ok_ne_error _ _

end Overflow

/-- **When an array of integers is written outside of the buffer**: exactly if some that fit into 32 bits stand before the
first that does not, and the room is enough for them with 4 bytes each and 8 more, but not with 8 bytes each. -/
theorem integer_array_overflow_iff (lua : Conversions) (scheme : Scheme) (levels : ℕ) (st : SprotoType) (name : Bytes)
    (tag : ℕ) (hst : st.fields = [⟨name, tag, .array .integer⟩]) (t : Value) (array : List Value)
    (hash : List (Value × Value)) (ht : getField name t = .table array hash) (size room : ℕ)
    (hroom : size = 2 + st.maxn * 2 + SIZEOF_LENGTH + 1 + room) :
    sprotoEncode lua scheme (levels + 1) st t size = .error .outside ↔
      ∃ narrow, Widens lua (items (.table array hash)) narrow ∧
        4 * narrow.length + 8 ≤ room ∧ room < 8 * narrow.length := by
  have hfetch : fetchArray (.ok ()) name t = .ok (some (.table array hash)) := by rw [fetchArray, ht]; rfl
  have hloop := encodeIntegerArray_outside_iff lua name (items (.table array hash)) 0 [] room
  simp only [Nat.zero_add, Nat.mul_zero, Nat.add_zero] at hloop
  have hleft : size - (2 + st.maxn * 2) - Written.empty.data.length = SIZEOF_LENGTH + 1 + room := by
    simp only [Written.empty, List.length_nil]
    omega
  have htag : tag < 0x7fff := st.tag_lt ⟨name, tag, .array .integer⟩ (by rw [hst]; exact List.mem_singleton_self _)
  rw [← hloop, ← encodeArray_integer hfetch room, sprotoEncode, encodeType, if_neg (by omega), hst, encodeFields,
    encodeField, hleft]
  refine (bind_eq_error fun w => ?_).trans (bind_eq_error fun x => ?_)
  · exact ok_ne_error _ _
  cases x with
  | none => exact ok_ne_error _ _
  | some y =>
    have hnext := RoomFor.add (f := ⟨name, tag, .array .integer⟩) (hst ▸ roomFor_empty st) y.1 y.2
    simp only
    rw [if_neg (by omega), if_neg (Nat.not_lt.2 hnext.records_le)]
    exact ok_ne_error _ _

/-- a type with one field, which is an array of integers -/
def counts : SprotoType where
  fields := [⟨ascii "counts", 0, .array .integer⟩]
  tag_lt := by decide
  ascending := by decide

/-- three integers that fit into 32 bits and one that does not, with 20 bytes behind the width -/
theorem integer_array_overflow_counts :
    sprotoEncode plainLua [counts] ENCODE_DEEPLEVEL counts
      (.table [] [(.string (ascii "counts"), .table [.integer 1, .integer 2, .integer 3, .integer 0x100000000] [])]) 29 =
      .error .outside := by
  refine (integer_array_overflow_iff plainLua [counts] 63 counts (ascii "counts") 0 rfl _ _ _ rfl 29 20 rfl).2
    ⟨[.integer 1, .integer 2, .integer 3], ⟨.integer 0x100000000, [], rfl, ?_, _, rfl, by decide⟩, by decide, by decide⟩
  intro v hv
  simp only [List.mem_cons, List.not_mem_nil, or_false] at hv
  rcases hv with rfl | rfl | rfl
  · exact ⟨_, rfl, by decide⟩
  · exact ⟨_, rfl, by decide⟩
  · exact ⟨_, rfl, by decide⟩

end OwliesServer.Sproto
