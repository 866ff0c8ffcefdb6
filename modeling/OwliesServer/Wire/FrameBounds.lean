/-
Where `unpackMessage` and `deserialize` read. The frame lies in memory, and C reads before and behind it: the offsets read
and the length read out of the header are those of the memory, whatever is there (`memoryAt`).

- `unpackMessage_of_reads`: as long as every offset read is inside the frame, this is `ClientFrame.unpackMessage`.
- `frames_in_bounds_iff`: the frames that are rejected or read inside their bounds whatever lies around them.
-/
import OwliesServer.Wire.ClientFrame
import OwliesServer.Wire.SprotoBounds

namespace OwliesServer.ClientFrame

open OwliesServer.CChar OwliesServer.Framing OwliesServer.Lua OwliesServer.Sproto OwliesServer.Schemes

/-! ## Model -/

/-- what the call finds in memory -/
structure Surroundings where
  /-- before and behind the frame, by the offset from the message pointer -/
  memory : ℤ → Byte
  /-- in the local array -/
  messageName : Vector Byte TYPE_STRING_MAX_LEN
  /-- above the local array, on the stack -/
  above : Bytes

/-- the memory at the message pointer, with the frame in it -/
def memoryAt (around : ℤ → Byte) (frame : Bytes) (i : ℤ) : Byte :=
  if 0 ≤ i then frame[i.toNat]?.getD (around i) else around i

section Memory

variable (mem : ℤ → Byte)

/-- `messageNameLen` -/
def nameLenAt : ℤ := (orBytes2 (mem 5) (mem 6)).toInt

/-- how often the copy loop runs -/
def copied : ℕ := (min (nameLenAt mem) TYPE_STRING_MAX_LEN).toNat

/-- the offsets `unpackMessage` reads, in order -/
def frameReads : List ℕ := List.range 7 ++ (List.range (copied mem)).map (7 + ·)

/-- the local array after the copy loop -/
def nameArray (messageName : Bytes) : Bytes :=
  (List.range (copied mem)).foldl (fun name i => name.set i (mem (7 + i))) messageName

def payloadAt (msg sz : ℤ) : Bytes := (List.range sz.toNat).map fun i : ℕ => mem (msg + i)

end Memory

/-- what `c2sSp:decode` does: it raises, or it reads past the end of what it was given, or it returns a table -/
inductive Verdict where
  | rejected
  | outside
  | accepted (obj : Value)

def verdict : Except Stop (Value × ℕ) → Verdict
  | .ok (v, _) => .accepted v
  | .error .outside => .outside
  | .error _ => .rejected

/-- `c2sSp:decode` of `sz` bytes at a pointer. An unknown type and a negative length are errors. -/
def c2sDecodeAt (mem : ℤ → Byte) (typename : Bytes) (msg sz : ℤ) : Verdict :=
  match c2sType typename with
  | none => .rejected
  | some st => if sz < 0 then .rejected else verdict (ldecode client2Server st (payloadAt mem msg sz))

/-- what `deserialize` did with a frame -/
structure Decoding where
  /-- the offsets read by `unpackMessage` -/
  reads : List ℕ
  /-- the offset of the payload, and its length, as handed to `c2sSp:decode` -/
  msg : ℤ
  sz : ℤ
  decode : Verdict

/-- `deserialize` on the memory at the message pointer. The name is pushed up to the next NUL on the stack: in the local
array, or above it. An unknown name is only logged; the decoder, and nothing else, can reject the message. -/
def deserializeAt (s : Surroundings) (frame : Bytes) : Decoding :=
  let mem := memoryAt s.memory frame
  let name := (nameArray mem s.messageName.toList ++ s.above).takeWhile (· ≠ 0#8)
  let msg := 7 + nameLenAt mem
  let sz := frame.length - 7 - nameLenAt mem
  ⟨frameReads mem, msg, sz, c2sDecodeAt mem name msg sz⟩

/-- everything read lies inside the frame, and the payload is the frame's end -/
structure InBounds (d : Decoding) (size : ℕ) : Prop where
  reads : ∀ i ∈ d.reads, i < size
  msg_nonneg : 0 ≤ d.msg
  msg_le : d.msg ≤ size
  sz_nonneg : 0 ≤ d.sz
  ends : d.msg + d.sz = size
  decoder : d.decode ≠ .outside

/-- the header is complete, and the length in it is not negative, or is from -7 to -1, or is -8 and the decoder rejects the
frame behind any byte as a message of any type -/
def ReadSafely (frame : Bytes) : Prop :=
  ∃ b5 b6, frame[5]? = some b5 ∧ frame[6]? = some b6 ∧
    (b5.toNat < 128 ∧ b6.toNat < 128 ∨ 249 ≤ b6.toNat ∨
      b6.toNat = 248 ∧ ∀ x, ∀ st ∈ client2Server, verdict (ldecode client2Server st (x :: frame)) = .rejected)

/-! ## The reads and the header -/

theorem mem_frameReads (mem : ℤ → Byte) (i : ℕ) : i ∈ frameReads mem ↔ i < 7 + copied mem := by
  simp only [frameReads, List.mem_append, List.mem_range, List.mem_map]
  apply Iff.intro
  · rintro (h | ⟨j, hj, rfl⟩) <;> omega
  · intro h
    by_cases h7 : i < 7
    · exact .inl h7
    · exact .inr ⟨i - 7, by omega, by omega⟩

/-- the reads stay inside the frame exactly if its header is complete and the copied part of the name is in it -/
theorem reads_lt_iff (mem : ℤ → Byte) (size : ℕ) : (∀ i ∈ frameReads mem, i < size) ↔ 7 + copied mem ≤ size := by
  apply Iff.intro
  · intro h
    have hlast := h (6 + copied mem) ((mem_frameReads mem _).2 (by omega))
    omega
  · intro h i hi
    have := (mem_frameReads mem i).1 hi
    omega

section MemoryAt

variable (around : ℤ → Byte) (frame : Bytes)

theorem memoryAt_natCast (i : ℕ) : memoryAt around frame i = frame[i]?.getD (around i) := by
  rw [memoryAt, if_pos (by omega), Int.toNat_natCast]

theorem memoryAt_of_lt (i : ℕ) (h : i < frame.length) : frame[i]? = some (memoryAt around frame i) := by
  rw [memoryAt_natCast, List.getElem?_eq_getElem h, Option.getD_some]

theorem memoryAt_of_ge (i : ℕ) (h : frame.length ≤ i) : memoryAt around frame i = around i := by
  rw [memoryAt_natCast, List.getElem?_eq_none h, Option.getD_none]

theorem memoryAt_of_neg (i : ℤ) (h : i < 0) : memoryAt around frame i = around i := if_neg (by omega)

/-- the frame, behind the byte before it -/
theorem payloadAt_cons : payloadAt (memoryAt around frame) (-1) (frame.length + 1) = around (-1) :: frame := by
  have hlen : ((frame.length : ℤ) + 1).toNat = frame.length + 1 := by omega
  rw [payloadAt, hlen, List.range_succ_eq_map, List.map_cons, List.map_map]
  refine congrArg₂ List.cons (memoryAt_of_neg around frame _ (by simp)) ?_
  refine List.ext_getElem (by simp) fun i hi hi' => ?_
  have hread := memoryAt_of_lt around frame i hi'
  rw [List.getElem?_eq_getElem hi', Option.some_inj] at hread
  rw [List.getElem_map, List.getElem_range, hread, Function.comp_apply]
  congr 1
  push_cast
  omega

/-- a payload that begins at least two bytes before the frame begins with them -/
theorem payloadAt_cons_cons {msg : ℤ} (hmsg : msg ≤ -2) (n : ℕ) : ∃ rest,
    payloadAt (memoryAt around frame) msg (n + 2) = around msg :: around (msg + 1) :: rest ∧ rest.length = n := by
  have hlen : ((n : ℤ) + 2).toNat = n + 2 := by omega
  have hrange : List.range (n + 2) = 0 :: 1 :: (List.range n).map (· + 2) := by
    rw [List.range_succ_eq_map, List.range_succ_eq_map, List.map_cons, List.map_map]
    rfl
  refine ⟨((List.range n).map (· + 2)).map fun i : ℕ => memoryAt around frame (msg + i), ?_, by simp⟩
  rw [payloadAt, hlen, hrange, List.map_cons, List.map_cons, Nat.cast_zero, add_zero, Nat.cast_one,
    memoryAt_of_neg around frame msg (by omega), memoryAt_of_neg around frame (msg + 1) (by omega)]

theorem nameLenAt_ge (mem : ℤ → Byte) : -2 ^ 15 ≤ nameLenAt mem := by
  have h5 := (mem 5).isLt
  have h6 := (mem 6).isLt
  rw [nameLenAt, toInt_orBytes2]
  split_ifs <;> omega

/-- a complete header alone determines the name length -/
theorem nameLenAt_memoryAt {b5 b6 : Byte} (h5 : frame[5]? = some b5) (h6 : frame[6]? = some b6) :
    nameLenAt (memoryAt around frame) =
      if 128 ≤ b6.toNat then (b6.toNat : ℤ) - 256
      else if 128 ≤ b5.toNat then (b5.toNat : ℤ) * 256 + b6.toNat - 2 ^ 16
      else (b5.toNat : ℤ) * 256 + b6.toNat := by
  have hm5 : memoryAt around frame 5 = b5 := (memoryAt_natCast around frame 5).trans (by rw [h5, Option.getD_some])
  have hm6 : memoryAt around frame 6 = b6 := (memoryAt_natCast around frame 6).trans (by rw [h6, Option.getD_some])
  rw [nameLenAt, hm5, hm6, toInt_orBytes2]

end MemoryAt

/-- **The model of the decoder agrees while the reads are in bounds.** -/
theorem unpackMessage_of_reads (messageName : Vector Byte TYPE_STRING_MAX_LEN) (frame : Bytes) (around : ℤ → Byte)
    (h : ∀ i ∈ frameReads (memoryAt around frame), i < frame.length) :
    (unpackMessage messageName frame).map (fun u => (u.messageName, u.messageNameLen, u.msg)) =
      (cString (nameArray (memoryAt around frame) messageName.toList)).map fun name =>
        (name, nameLenAt (memoryAt around frame), 7 + nameLenAt (memoryAt around frame)) := by
  have hread : ∀ i < 7 + copied (memoryAt around frame), frame[i]? = some (memoryAt around frame i) := by
    intro i hi
    exact memoryAt_of_lt around frame i (h i ((mem_frameReads _ i).2 hi))
  have hcopy : copyName frame (nameLenAt (memoryAt around frame)) messageName.toList =
      some (nameArray (memoryAt around frame) messageName.toList) := by
    have hloop : ∀ (l : List ℕ) (name : Bytes), (∀ i ∈ l, i < copied (memoryAt around frame)) →
        l.foldlM (fun name i => do
          let c ← frame[7 + i]?
          some (name.set i c)) name = some (l.foldl (fun name i => name.set i (memoryAt around frame (7 + i))) name) := by
      intro l
      induction l with
      | nil => exact fun _ _ => rfl
      | cons i l ih =>
        intro name hl
        obtain ⟨hi, hl⟩ := List.forall_mem_cons.1 hl
        rw [List.foldlM_cons, hread (7 + i) (by omega), List.foldl_cons]
        exact ih _ hl
    exact hloop _ _ fun i hi => List.mem_range.1 hi
  simp only [unpackMessage, hread 0 (by omega), hread 1 (by omega), hread 2 (by omega), hread 3 (by omega),
    hread 4 (by omega), hread 5 (by omega), hread 6 (by omega), Option.bind_eq_bind, Option.bind_some]
  change Option.map _ (Option.bind (copyName frame (nameLenAt (memoryAt around frame)) messageName.toList) _) = _
  rw [hcopy, Option.bind_some]
  cases cString (nameArray (memoryAt around frame) messageName.toList) <;> rfl

/-! ## The decoder -/

theorem verdict_ne_outside {x : Except Stop (Value × ℕ)} (h : x ≠ .error .outside) : verdict x ≠ .outside := by
  rcases x with e | ⟨v, n⟩
  · cases e with
    | outside => exact absurd rfl h
    | _ => simp [verdict]
  · simp [verdict]

theorem boxed_client2Server : ∀ st ∈ client2Server, Boxed st := by
  have hshape : ∀ st ∈ client2Server, ∀ f ∈ st.fields, f.shape ≠ .array .integer ∧ f.shape ≠ .array .boolean := by decide
  intro st hst f hf hnum
  obtain ⟨hint, hbool⟩ := hshape st hst f hf
  cases hs : f.shape with
  | array k =>
    rw [hs] at hnum
    cases k with
    | integer => exact hint hs
    | boolean => exact hbool hs
    | _ => exact hnum trivial
  | _ =>
    rw [hs] at hnum
    exact hnum

theorem mem_of_c2sType {name : Bytes} {st : SprotoType} (h : c2sType name = some st) : st ∈ client2Server := by
  obtain ⟨_, _, hsplit, -⟩ := List.lookup_eq_some_iff.1 h
  have hmem : (name, st) ∈ client2ServerNames.zip client2Server := by rw [hsplit]; simp
  exact (List.of_mem_zip hmem).2

/-- each type of the scheme is found under its name, which fits into the array with a NUL behind it -/
theorem c2sType_names {st : SprotoType} (h : st ∈ client2Server) :
    ∃ name, c2sType name = some st ∧ 0#8 ∉ name ∧ name.length < TYPE_STRING_MAX_LEN := by
  simp only [client2Server, List.mem_cons, List.not_mem_nil, or_false] at h
  rcases h with rfl | rfl | rfl | rfl
  · exact ⟨ascii "AddressBook", rfl, by decide, by decide⟩
  · exact ⟨ascii "LoginRequest", rfl, by decide, by decide⟩
  · exact ⟨ascii "Person", rfl, by decide, by decide⟩
  · exact ⟨ascii "Person.PhoneNumber", rfl, by decide, by decide⟩

/-- the decoder reads what it was given -/
theorem decode_ne_outside (s : Surroundings) (frame : Bytes) : (deserializeAt s frame).decode ≠ .outside := by
  change c2sDecodeAt _ _ _ _ ≠ _
  unfold c2sDecodeAt
  split
  · simp
  · rename_i st hst
    split_ifs with hneg
    · simp
    · apply verdict_ne_outside
      rw [ldecode, ne_eq, decoded_eq_outside]
      split_ifs
      · simp
      · exact sprotoDecode_ne_outside boxed_client2Server (boxed_client2Server st (mem_of_c2sType hst)) _

/-- two zero bytes are a message without records, of whatever type -/
theorem ldecode_zeros (st : SprotoType) (rest : Bytes) (h : rest.length + 2 < 2 ^ 31) :
    ldecode client2Server st (0 :: 0 :: rest) = .ok (.table [] [], 2) := by
  rw [ldecode_of_lt (by simpa using h)]
  change decoded (decodeType _ _ st none (le 2 ([] : List ℕ).length ++ ([] : List ℕ).flatMap (le 2) ++ [] ++ rest)) = _
  rw [decodeType_append [] nofun (by decide)]
  rfl

/-! ## Which frames are read inside their bounds -/

section Bounds

variable (s : Surroundings) (frame : Bytes)

theorem inBounds_iff_nameLen : InBounds (deserializeAt s frame) frame.length ↔
    7 ≤ frame.length ∧ -7 ≤ nameLenAt (memoryAt s.memory frame) ∧
      7 + nameLenAt (memoryAt s.memory frame) ≤ frame.length := by
  have hreads := reads_lt_iff (memoryAt s.memory frame) frame.length
  have hcopied : (copied (memoryAt s.memory frame) : ℤ) = max 0 (min (nameLenAt (memoryAt s.memory frame)) 255) := by
    rw [copied, TYPE_STRING_MAX_LEN]
    omega
  apply Iff.intro
  · intro h
    have hr := hreads.1 h.reads
    have h1 : 0 ≤ 7 + nameLenAt (memoryAt s.memory frame) := h.msg_nonneg
    have h2 : 7 + nameLenAt (memoryAt s.memory frame) ≤ frame.length := h.msg_le
    refine ⟨by omega, by omega, h2⟩
  · rintro ⟨h7, hlo, hhi⟩
    refine ⟨hreads.2 (by omega), ?_, hhi, ?_, ?_, decode_ne_outside s frame⟩
    all_goals simp only [deserializeAt]; omega

/-- a negative length copies nothing, and the name is the one the array held -/
theorem decode_of_neg {name : Bytes} {st : SprotoType} {len : ℤ} (hlen : nameLenAt (memoryAt s.memory frame) = len)
    (hneg : len ≤ -8) (hname : (s.messageName.toList ++ s.above).takeWhile (· ≠ 0#8) = name)
    (hst : c2sType name = some st) : (deserializeAt s frame).decode =
      verdict (ldecode client2Server st (payloadAt (memoryAt s.memory frame) (7 + len) (frame.length - 7 - len))) := by
  have hcopied : copied (memoryAt s.memory frame) = 0 := by
    rw [copied, hlen]
    omega
  have harray : nameArray (memoryAt s.memory frame) s.messageName.toList = s.messageName.toList := by
    rw [nameArray, hcopied, List.range_zero, List.foldl_nil]
  change c2sDecodeAt _ _ _ _ = _
  rw [harray, hname, c2sDecodeAt, hst, hlen]
  exact if_neg (by omega)

end Bounds

/-- an array that holds a name, and a NUL behind it -/
def holding (name : Bytes) : Vector Byte TYPE_STRING_MAX_LEN :=
  ⟨((name ++ List.replicate TYPE_STRING_MAX_LEN 0).take TYPE_STRING_MAX_LEN).toArray, by simp⟩

theorem takeWhile_holding {name : Bytes} (hnul : 0#8 ∉ name) (hlen : name.length < TYPE_STRING_MAX_LEN) :
    ((holding name).toList ++ [0]).takeWhile (· ≠ 0#8) = name := by
  obtain ⟨k, hk⟩ : ∃ k, TYPE_STRING_MAX_LEN - name.length = k + 1 := ⟨_, (Nat.succ_pred_eq_of_pos (by omega)).symm⟩
  have hlist : (holding name).toList = name ++ List.replicate (k + 1) 0 := by
    change (name ++ List.replicate TYPE_STRING_MAX_LEN 0).take TYPE_STRING_MAX_LEN = _
    rw [List.take_append, List.take_of_length_le (by omega), hk, List.take_replicate, Nat.min_eq_left (by omega)]
  rw [hlist, List.append_assoc, List.takeWhile_append_of_pos, List.replicate_succ]
  · simp
  · intro b hb
    simpa using fun h : b = 0#8 => hnul (h ▸ hb)

/-- what an earlier call left behind: a name in the array -/
def stale (name : Bytes) (memory : ℤ → Byte) : Surroundings := ⟨memory, holding name, [0]⟩

/-- with zeros before it and the name of a login request in the array, a frame whose payload begins two bytes before it or
earlier is accepted -/
theorem accepted_of_neg {frame : Bytes} (hsize : frame.length < 2 ^ 16) {memory : ℤ → Byte} (hzero : ∀ i < 0, memory i = 0)
    (hneg : nameLenAt (memoryAt memory frame) ≤ -9) :
    (deserializeAt (stale (ascii "LoginRequest") memory) frame).decode = .accepted (.table [] []) := by
  set len := nameLenAt (memoryAt memory frame) with hlen
  have hlo : -2 ^ 15 ≤ len := nameLenAt_ge _
  obtain ⟨n, hn⟩ : ∃ n : ℕ, frame.length - 7 - len = n + 2 := ⟨(frame.length - 7 - len - 2).toNat, by omega⟩
  obtain ⟨rest, hrest, hlength⟩ := payloadAt_cons_cons memory frame (show 7 + len ≤ -2 by omega) n
  rw [decode_of_neg (stale (ascii "LoginRequest") memory) frame hlen.symm (by omega)
    (takeWhile_holding (by decide) (by decide)) (show c2sType (ascii "LoginRequest") = some loginRequest from rfl), hn]
  change verdict (ldecode client2Server loginRequest (payloadAt (memoryAt memory frame) _ _)) = _
  rw [hrest, hzero _ (by omega), hzero _ (by omega), ldecode_zeros loginRequest rest (by omega)]
  rfl

/-- zeros, and a second length byte for a frame that ends before it -/
def shortHeader (i : ℤ) : Byte := if i = 6 then 0x80 else 0

theorem shortHeader_of_neg (i : ℤ) (hi : i < 0) : shortHeader i = 0 := if_neg (by omega)

theorem readSafely_of_forall {frame : Bytes} (hsize : frame.length < 2 ^ 16)
    (h : ∀ s : Surroundings, (deserializeAt s frame).decode = .rejected ∨ InBounds (deserializeAt s frame) frame.length) :
    ReadSafely frame := by
  -- what is accepted has to be in bounds
  have haccepted (hneg : nameLenAt (memoryAt shortHeader frame) ≤ -9) : False := by
    have hdecode := accepted_of_neg hsize shortHeader_of_neg hneg
    rcases h (stale (ascii "LoginRequest") shortHeader) with hrej | hin
    · rw [hdecode] at hrej
      cases hrej
    · have hlo := ((inBounds_iff_nameLen _ frame).1 hin).2.1
      change -7 ≤ nameLenAt (memoryAt shortHeader frame) at hlo
      omega
  have h7 : 7 ≤ frame.length := by
    by_contra hshort
    have h6 : memoryAt shortHeader frame 6 = 0x80 := memoryAt_of_ge shortHeader frame 6 (by omega)
    apply haccepted
    rw [nameLenAt, h6, toInt_orBytes2, if_pos (by decide)]
    decide
  obtain ⟨b5, h5⟩ : ∃ b, frame[5]? = some b := ⟨_, List.getElem?_eq_getElem (by omega)⟩
  obtain ⟨b6, h6⟩ : ∃ b, frame[6]? = some b := ⟨_, List.getElem?_eq_getElem (by omega)⟩
  have hb5 := b5.isLt
  have hlo : -8 ≤ nameLenAt (memoryAt shortHeader frame) := by
    by_contra hlt
    exact haccepted (by omega)
  rw [nameLenAt_memoryAt shortHeader frame h5 h6] at hlo
  refine ⟨b5, b6, h5, h6, ?_⟩
  by_cases h248 : b6.toNat = 248
  · refine .inr (.inr ⟨h248, fun x st hst => ?_⟩)
    obtain ⟨name, hname, hnul, hshort⟩ := c2sType_names hst
    have hlen : nameLenAt (memoryAt (fun _ => x) frame) = -8 := by
      rw [nameLenAt_memoryAt _ frame h5 h6, h248, if_pos (by decide)]
      rfl
    rcases h (stale name fun _ => x) with hrej | hin
    · rw [decode_of_neg (stale name fun _ => x) frame hlen (by omega) (takeWhile_holding hnul hshort) hname] at hrej
      have hsz : (frame.length : ℤ) - 7 - -8 = frame.length + 1 := by omega
      rw [hsz] at hrej
      change verdict (ldecode client2Server st (payloadAt (memoryAt (fun _ => x) frame) (-1) _)) = _ at hrej
      rwa [payloadAt_cons] at hrej
    · have hmin := ((inBounds_iff_nameLen _ frame).1 hin).2.1
      change -7 ≤ nameLenAt (memoryAt (fun _ => x) frame) at hmin
      omega
  · split_ifs at hlo <;> omega

theorem forall_of_readSafely {frame : Bytes} (h : ReadSafely frame) (s : Surroundings) :
    (deserializeAt s frame).decode = .rejected ∨ InBounds (deserializeAt s frame) frame.length := by
  obtain ⟨b5, b6, h5, h6, hb⟩ := h
  have h7 : 7 ≤ frame.length := (List.getElem?_eq_some_iff.1 h6).1
  have hb6 := b6.isLt
  have hlen := nameLenAt_memoryAt s.memory frame h5 h6
  rw [inBounds_iff_nameLen]
  rcases hb with ⟨hb5, hb6⟩ | hb6 | ⟨hb6, hrej⟩
  · rw [if_neg (by omega), if_neg (by omega)] at hlen
    by_cases hfits : 7 + nameLenAt (memoryAt s.memory frame) ≤ frame.length
    · exact .inr ⟨h7, by omega, hfits⟩
    · -- the name ends behind the frame, and the length of the payload is negative
      left
      change c2sDecodeAt _ _ _ _ = _
      unfold c2sDecodeAt
      split
      · rfl
      · exact if_pos (by omega)
  · rw [if_pos (by omega)] at hlen
    exact .inr ⟨h7, by omega, by omega⟩
  · left
    rw [if_pos (by omega), hb6] at hlen
    have hsz : (frame.length : ℤ) - 7 - nameLenAt (memoryAt s.memory frame) = frame.length + 1 := by omega
    have hmsg : 7 + nameLenAt (memoryAt s.memory frame) = -1 := by omega
    change c2sDecodeAt _ _ _ _ = _
    rw [hsz, hmsg]
    unfold c2sDecodeAt
    split
    · rfl
    · rename_i st hst
      rw [if_neg (by omega), payloadAt_cons]
      exact hrej _ st (mem_of_c2sType hst)

/-- **Which frames are rejected or read inside their bounds**, whatever lies around them in memory and on the stack. -/
theorem frames_in_bounds_iff (frame : Bytes) (hsize : frame.length < 2 ^ 16) :
    (∀ s : Surroundings, (deserializeAt s frame).decode = .rejected ∨ InBounds (deserializeAt s frame) frame.length) ↔
      ReadSafely frame :=
  ⟨readSafely_of_forall hsize, forall_of_readSafely⟩

/-- a login request without fields -/
def emptyRequest : Bytes := [0, 0, 0, 1, 1, 0, 12] ++ ascii "LoginRequest" ++ [0, 0]

theorem frames_in_bounds_iff_loginRequest : ReadSafely emptyRequest ∧
    ∀ s : Surroundings, (deserializeAt s emptyRequest).decode = .rejected ∨ InBounds (deserializeAt s emptyRequest) 21 := by
  have hsafe : ReadSafely emptyRequest := ⟨0, 12, rfl, rfl, .inl (by decide)⟩
  exact ⟨hsafe, (frames_in_bounds_iff emptyRequest (by decide)).2 hsafe⟩

/-- with the name of a login request left in the array and zeros before the frame: a second length byte of 0x80, for which
the payload begins 121 bytes before the frame, and a frame of four bytes, in front of such a byte. Both are accepted. -/
theorem frames_out_of_bounds :
    let s := stale (ascii "LoginRequest") shortHeader
    ((deserializeAt s [0, 0, 0, 1, 1, 0, 0x80]).decode = .accepted (.table [] []) ∧
      (deserializeAt s [0, 0, 0, 1, 1, 0, 0x80]).msg = -121 ∧ ¬ InBounds (deserializeAt s [0, 0, 0, 1, 1, 0, 0x80]) 7) ∧
    ((deserializeAt s [0, 0, 0, 1]).decode = .accepted (.table [] []) ∧ 6 ∈ (deserializeAt s [0, 0, 0, 1]).reads ∧
      ¬ InBounds (deserializeAt s [0, 0, 0, 1]) 4) := by
  refine ⟨⟨accepted_of_neg (by decide) shortHeader_of_neg (by decide), by decide, fun h => ?_⟩,
    accepted_of_neg (by decide) shortHeader_of_neg (by decide), by decide, fun h => ?_⟩
  · exact absurd h.msg_nonneg (by decide)
  · exact absurd h.msg_nonneg (by decide)

end OwliesServer.ClientFrame
