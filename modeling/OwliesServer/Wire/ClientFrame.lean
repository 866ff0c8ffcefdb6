/-
Decoding of client frames: `unpackMessage` (Src/LuaInterface/lua_connectionManager.c) and `deserialize`
(Script/Lualib/owlies_connection_manager.lua).

A client frame (`ClientFrame.bytes`) is the 4-byte big-endian session, the type byte, the 2-byte big-endian name
length, the message name and the sproto payload. `unpackMessage` reads the header through plain (signed) `char`s,
copies the name into an uninitialised local array and passes the array on as a C string.
- Reads of the frame at or past its end, and reads of the array past its end, are undefined in C; the model answers
  `none` for them.
- The previous content of the local array is an argument (`messageName`), since the C string that is pushed depends on
  it.

`decode_inverts_iff`: the decoder returns the fields of the frame, and hands the payload's length on, exactly when the
session is sign-clean, the name is shorter than 128 bytes and the array happens to hold a NUL right behind the name.
-/
import OwliesServer.Core.CChar

namespace OwliesServer.ClientFrame

open OwliesServer.CChar

/-! ## Model -/

def TYPE_STRING_MAX_LEN : ℕ := 255

/-- the five results `unpackMessage` pushes; `msg` is the offset of the returned pointer from the frame's start -/
structure Unpacked where
  session : ℤ
  messageType : ℤ
  messageName : Bytes
  messageNameLen : ℤ
  msg : ℤ
deriving DecidableEq, Repr

/-- the session field as `unpackMessage` computes it -/
def unpackSession (b0 b1 b2 b3 : Byte) : BitVec 32 := orBytes4 b0 b1 b2 b3

/-- the copy loop: `i` runs from 0 while `i < messageNameLen && i < TYPE_STRING_MAX_LEN` -/
def copyName (buf : Bytes) (messageNameLen : ℤ) (messageName : Bytes) : Option Bytes :=
  (List.range (min messageNameLen TYPE_STRING_MAX_LEN).toNat).foldlM
    (fun name i => do
      let c ← buf[7 + i]?
      some (name.set i c)) messageName

/-- `lua_pushstring` on a local array: the bytes before the first NUL, undefined if there is none in the array -/
def cString (a : Bytes) : Option Bytes := if 0#8 ∈ a then some (a.takeWhile (· ≠ 0#8)) else none

/-- `unpackMessage`; `messageName` is what the stack slot of the local array held before the call -/
def unpackMessage (messageName : Vector Byte TYPE_STRING_MAX_LEN) (buf : Bytes) : Option Unpacked := do
  let b0 ← buf[0]?
  let b1 ← buf[1]?
  let b2 ← buf[2]?
  let b3 ← buf[3]?
  let b4 ← buf[4]?
  let b5 ← buf[5]?
  let b6 ← buf[6]?
  let session := (unpackSession b0 b1 b2 b3).toInt
  let messageType := (promote b4).toInt
  let messageNameLen := (orBytes2 b5 b6).toInt
  let name ← copyName buf messageNameLen messageName.toList
  let pushed ← cString name
  some ⟨session, messageType, pushed, messageNameLen, 7 + messageNameLen⟩

/-- what `deserialize` hands to `c2sSp:decode`: the type name, the payload pointer and the payload length -/
def decodeArgs (u : Unpacked) (size : ℤ) : Bytes × ℤ × ℤ := (u.messageName, u.msg, size - 7 - u.messageNameLen)

/-- `deserialize`; `decode` is sproto's decoder, `none` where it raises (also for an unknown type name) -/
def deserialize {Obj : Type} (decode : Bytes × ℤ × ℤ → Option Obj) (messageName : Vector Byte TYPE_STRING_MAX_LEN)
    (message : Bytes) (size : ℤ) : Option (Obj × ℤ × ℤ × Bytes) := do
  let u ← unpackMessage messageName message
  let obj ← decode (decodeArgs u size)
  some (obj, u.session, u.messageType, u.messageName)

/-- the fields of a client frame -/
structure Frame where
  session : BitVec 32
  messageType : Byte
  messageName : Bytes
  payload : Bytes
deriving DecidableEq, Repr

/-- the client's frame format -/
def Frame.bytes (f : Frame) : Bytes :=
  be32 f.session ++ f.messageType :: be16 (BitVec.ofNat 16 f.messageName.length) ++ f.messageName ++ f.payload

/-! ## The copy loop and the pushed name -/

theorem copyName_range (buf messageName : Bytes) (n : ℕ) (hb : 7 + n ≤ buf.length) (hn : n ≤ messageName.length) :
    (List.range n).foldlM (fun name i => do
      let c ← buf[7 + i]?
      some (name.set i c)) messageName = some ((buf.drop 7).take n ++ messageName.drop n) := by
  induction n with
  | zero => simp
  | succ n ih =>
    have hc : 7 + n < buf.length := by omega
    rw [List.range_succ, List.foldlM_append, ih (by omega) (by omega)]
    have hget : buf[7 + n]? = some buf[7 + n] := List.getElem?_eq_getElem hc
    have htake : (buf.drop 7).take (n + 1) = (buf.drop 7).take n ++ [buf[7 + n]] := by
      rw [List.take_add_one, List.getElem?_drop, hget]; rfl
    have hlen : ((buf.drop 7).take n).length = n := by simp; omega
    have hdrop : messageName.drop n = messageName[n] :: messageName.drop (n + 1) :=
      List.drop_eq_getElem_cons (by omega)
    -- the loop body overwrites the first array element not yet copied
    simp only [Option.bind_eq_bind, Option.bind_some, List.foldlM_cons, List.foldlM_nil, hget, Option.pure_def,
      Option.some.injEq]
    rw [List.set_append_right _ _ (by omega), hlen, Nat.sub_self, hdrop, List.set_cons_zero, htake, List.append_assoc]
    rfl

theorem copyName_eq (buf messageName : Bytes) (len : ℕ) (hl : len ≤ TYPE_STRING_MAX_LEN) (hb : 7 + len ≤ buf.length)
    (hn : len ≤ messageName.length) :
    copyName buf len messageName = some ((buf.drop 7).take len ++ messageName.drop len) := by
  have : (min (len : ℤ) TYPE_STRING_MAX_LEN).toNat = len := by omega
  rw [copyName, this]
  exact copyName_range buf messageName len hb hn

theorem cString_append (name rest : Bytes) (hnul : 0#8 ∉ name) :
    cString (name ++ rest) = (cString rest).map (name ++ ·) := by
  have htw : (name ++ rest).takeWhile (· ≠ 0#8) = name ++ rest.takeWhile (· ≠ 0#8) := by
    rw [List.takeWhile_append_of_pos]
    intro b hb
    have : b ≠ 0#8 := fun h => hnul (h ▸ hb)
    simp [this]
  unfold cString
  rw [htw]
  simp only [List.mem_append, hnul, false_or]
  split_ifs <;> rfl

/-- the pushed string is the name alone exactly when a NUL stands right behind it -/
theorem cString_append_iff (name rest : Bytes) (hnul : 0#8 ∉ name) :
    cString (name ++ rest) = some name ↔ rest.head? = some 0#8 := by
  rw [cString_append name rest hnul]
  cases rest with
  | nil => simp [cString]
  | cons c rest =>
    by_cases hc : c = 0#8
    · simp [cString, hc]
    · simp [cString, hc]

/-! ## Decoding a frame -/

theorem frame_length (f : Frame) : f.bytes.length = 7 + f.messageName.length + f.payload.length := by
  simp [Frame.bytes, be32, be16]; omega

theorem frame_drop (f : Frame) : f.bytes.drop 7 = f.messageName ++ f.payload := by
  simp [Frame.bytes, be32, be16]

/-- the session `unpackMessage` returns for a frame -/
def Frame.unpackedSession (f : Frame) : BitVec 32 :=
  unpackSession ((f.session >>> 24).setWidth 8) ((f.session >>> 16).setWidth 8) ((f.session >>> 8).setWidth 8)
    (f.session.setWidth 8)

/-- the name length `unpackMessage` returns for a frame -/
def Frame.unpackedNameLen (f : Frame) : ℤ :=
  (orBytes2 ((BitVec.ofNat 16 f.messageName.length >>> 8).setWidth 8)
    ((BitVec.ofNat 16 f.messageName.length).setWidth 8)).toInt

/-- `unpackMessage` on a frame, with the header fields read -/
theorem unpackMessage_frame (messageName : Vector Byte TYPE_STRING_MAX_LEN) (f : Frame) :
    unpackMessage messageName f.bytes =
      ((copyName f.bytes f.unpackedNameLen messageName.toList).bind cString).map fun name =>
        ⟨f.unpackedSession.toInt, (promote f.messageType).toInt, name, f.unpackedNameLen, 7 + f.unpackedNameLen⟩ := by
  have h0 : f.bytes[0]? = some ((f.session >>> 24).setWidth 8) := by simp [Frame.bytes, be32]
  have h1 : f.bytes[1]? = some ((f.session >>> 16).setWidth 8) := by simp [Frame.bytes, be32]
  have h2 : f.bytes[2]? = some ((f.session >>> 8).setWidth 8) := by simp [Frame.bytes, be32]
  have h3 : f.bytes[3]? = some (f.session.setWidth 8) := by simp [Frame.bytes, be32]
  have h4 : f.bytes[4]? = some f.messageType := by simp [Frame.bytes, be32]
  have h5 : f.bytes[5]? = some ((BitVec.ofNat 16 f.messageName.length >>> 8).setWidth 8) := by
    simp [Frame.bytes, be32, be16]
  have h6 : f.bytes[6]? = some ((BitVec.ofNat 16 f.messageName.length).setWidth 8) := by
    simp [Frame.bytes, be32, be16]
  simp only [unpackMessage, h0, h1, h2, h3, h4, h5, h6, Option.bind_eq_bind, Option.bind_some]
  rw [← Frame.unpackedNameLen, ← Frame.unpackedSession]
  cases copyName f.bytes f.unpackedNameLen messageName.toList with
  | none => rfl
  | some name =>
    simp only [Option.bind_some]
    cases cString name <;> rfl

/-- whatever else the frame holds, the session returned is the signed read of its first four bytes -/
theorem unpackMessage_session (messageName : Vector Byte TYPE_STRING_MAX_LEN) (f : Frame) (u : Unpacked)
    (h : unpackMessage messageName f.bytes = some u) : u.session = f.unpackedSession.toInt := by
  rw [unpackMessage_frame] at h
  obtain ⟨name, -, rfl⟩ := Option.map_eq_some_iff.1 h
  rfl

/-- the name-length field, as decoded: lengths from 128 on come out negative -/
theorem unpackedNameLen_eq (f : Frame) (h : f.messageName.length ≤ 254) :
    f.unpackedNameLen = if 128 ≤ f.messageName.length then (f.messageName.length : ℤ) - 256
      else f.messageName.length := by
  have hn : (BitVec.ofNat 16 f.messageName.length).toNat = f.messageName.length := by
    rw [BitVec.toNat_ofNat]; omega
  rw [Frame.unpackedNameLen, toInt_orBytes2_be16, BitVec.toInt_eq_toNat_cond, hn]
  split_ifs <;> omega

/-- the frame decoded right: every field as sent, the pointer at the payload, and the payload's length handed to the
sproto decoder -/
def Inverted (messageName : Vector Byte TYPE_STRING_MAX_LEN) (f : Frame) : Prop :=
  ∃ u, unpackMessage messageName f.bytes = some u ∧ u.session = f.session.toInt ∧
    u.messageType = f.messageType.toNat ∧ u.messageName = f.messageName ∧ u.messageNameLen = f.messageName.length ∧
    u.msg = 7 + f.messageName.length ∧ (decodeArgs u f.bytes.length).2.2 = f.payload.length

/-- **When decoding inverts the frame format.** For every session, every type up to 127, every NUL-free name of at most
254 bytes, every payload and every previous content of the local array: the frame decodes to its own fields if and only
if the session is sign-clean, the name has at most 127 bytes, and the array holds a NUL at the index right behind it. -/
theorem decode_inverts_iff (messageName : Vector Byte TYPE_STRING_MAX_LEN) (f : Frame) (hty : f.messageType.toNat ≤ 127)
    (hnul : 0#8 ∉ f.messageName) (hlen : f.messageName.length ≤ 254) :
    Inverted messageName f ↔
      SignClean f.session ∧ f.messageName.length ≤ 127 ∧ messageName.toList[f.messageName.length]? = some 0#8 := by
  have hS : f.unpackedSession.toInt = f.session.toInt ↔ SignClean f.session := orBytes4_exact_iff f.session
  have hT : (promote f.messageType).toInt = f.messageType.toNat := by
    rw [toInt_promote, if_neg (by omega)]
  unfold Inverted
  rw [unpackMessage_frame messageName f, unpackedNameLen_eq f hlen, hT]
  by_cases h128 : 128 ≤ f.messageName.length
  · -- the length byte is promoted to a negative number, so no result carries the right length
    simp only [h128, if_true]
    refine iff_of_false ?_ (fun h => by omega)
    rintro ⟨u, hu, -, -, -, hul, -⟩
    obtain ⟨name, -, rfl⟩ := Option.map_eq_some_iff.1 hu
    simp only at hul; omega
  · have hbytes := frame_length f
    have hcopy : copyName f.bytes f.messageName.length messageName.toList =
        some (f.messageName ++ messageName.toList.drop f.messageName.length) := by
      have hmax : f.messageName.length ≤ TYPE_STRING_MAX_LEN := by simp only [TYPE_STRING_MAX_LEN]; omega
      rw [copyName_eq _ _ _ hmax (by omega) (by rw [Vector.length_toList]; exact hmax), frame_drop, List.take_left]
    have hname := cString_append_iff f.messageName (messageName.toList.drop f.messageName.length) hnul
    rw [List.head?_drop] at hname
    simp only [h128, if_false, hcopy, Option.bind_some]
    constructor
    · rintro ⟨u, hu, hus, -, hun, -⟩
      obtain ⟨name, hc, rfl⟩ := Option.map_eq_some_iff.1 hu
      simp only at hus hun
      subst hun
      exact ⟨hS.1 hus, by omega, hname.1 hc⟩
    · rintro ⟨hs, -, h0⟩
      refine ⟨_, Option.map_eq_some_iff.2 ⟨_, hname.2 h0, rfl⟩, hS.2 hs, rfl, rfl, rfl, rfl, ?_⟩
      simp only [decodeArgs]; omega

/-! ## Witnesses -/

/-- an array that still holds NULs from its first use -/
def cleanStack : Vector Byte TYPE_STRING_MAX_LEN := Vector.replicate TYPE_STRING_MAX_LEN 0

/-- session 1, type 1, the shortest name of the protocol and two payload bytes -/
def sampleFrame : Frame := ⟨1, 1, ascii "LoginRequest", [0, 0]⟩

theorem decode_inverts_sample : Inverted cleanStack sampleFrame :=
  (decode_inverts_iff cleanStack sampleFrame (by decide) (by decide) (by decide)).2
    ⟨by decide, by decide, by decide⟩

/-- **A clean stack does not save session 128**: its last byte is 0x80, and the decoder returns −128. -/
theorem decode_session_128 :
    (unpackMessage cleanStack (Frame.bytes ⟨128, 1, ascii "LoginRequest", [0, 0]⟩)).map Unpacked.session = some (-128) ∧
      ¬ Inverted cleanStack ⟨128, 1, ascii "LoginRequest", [0, 0]⟩ := by
  refine ⟨by decide, fun ⟨u, hu, hs, _⟩ => ?_⟩
  have h : (unpackMessage cleanStack (Frame.bytes ⟨128, 1, ascii "LoginRequest", [0, 0]⟩)).map Unpacked.session =
      some (-128) := by decide
  rw [hu] at h
  simp only [Option.map_some, Option.some.injEq] at h
  rw [h] at hs
  exact absurd hs (by decide)

end OwliesServer.ClientFrame
