/-
The bytes a client receives: one `send_package` after the other. Each package is length-prefixed on the socket, and has
inside it a session, a length-prefixed name and the payload (`ServerPackage`).

`readResponse` is the client's side of the format. `response_stream_decodes`: the stream of any list of responses that
fit into their length fields is written without an error and reads back to exactly these responses.
-/
import Mathlib.Data.List.TakeWhile
import OwliesServer.Core.Framing
import OwliesServer.Wire.ServerPackage

namespace OwliesServer.ServerPackage

open OwliesServer.CChar OwliesServer.Framing

/-! ## Model -/

/-- what a response carries -/
structure Fields where
  session : ℤ
  messageName : Bytes
  payload : Bytes
deriving DecidableEq, Repr

/-- a response whose session is an `int`, whose name is a C string, and whose package fits into a 2-byte length -/
structure Response extends Fields where
  session_lo : -2 ^ 31 ≤ session
  session_hi : session < 2 ^ 31
  name_nul_free : 0#8 ∉ messageName
  fits : 6 + messageName.length + payload.length ≤ 65535

/-- the package `serialize` gets from `packMessage` -/
def Response.package (r : Response) : Bytes := packMessage r.messageName (BitVec.ofInt 32 r.session) r.payload

/-- what `send_package` writes for the responses, one after the other; `none` if it raises for one of them -/
def writeResponses (rs : List Response) : Option Bytes :=
  (rs.mapM fun r => sendPackage r.package).map List.flatten

/-- the inside of a package: session, name length, name, and the rest as payload -/
def readPackage (package : Bytes) : Option Fields := do
  let (session, rest) ← readBe32 package
  let (messageNameSize, rest) ← readBe16 rest
  let (messageName, payload) ← readBytes messageNameSize rest
  some ⟨session, messageName, payload⟩

/-- one package off the socket: length, then as many bytes -/
def readResponse : Reader Fields := fun input => do
  let (size, rest) ← readBe16 input
  let (package, rest) ← readBytes size rest
  let fields ← readPackage package
  some (fields, rest)

/-! ## Writing and reading -/

/-- a name without a NUL is its own C string -/
theorem takeWhile_nul_free (name : Bytes) (h : 0#8 ∉ name) : name.takeWhile (· ≠ 0#8) = name := by
  rw [List.takeWhile_eq_self_iff]
  intro b hb
  have hne : b ≠ 0#8 := fun e => h (e ▸ hb)
  simpa using hne

theorem package_eq (r : Response) :
    r.package = be32 (BitVec.ofInt 32 r.session) ++ (be16 (BitVec.ofNat 16 r.messageName.length) ++
      (r.messageName ++ r.payload)) := by
  simp only [Response.package, packMessage, takeWhile_nul_free r.messageName r.name_nul_free, List.append_assoc]

theorem package_length (r : Response) : r.package.length = 6 + r.messageName.length + r.payload.length := by
  rw [package_eq]
  simp only [be32, be16, List.length_append, List.length_cons, List.length_nil]
  omega

theorem readPackage_package (r : Response) : readPackage r.package = some r.toFields := by
  have hfits := r.fits
  have hsession := reads_be32 r.session r.session_lo r.session_hi
  have hsize := reads_be16 r.messageName.length (by omega)
  have hname := reads_bytes r.messageName
  rw [package_eq, readPackage, hsession]
  simp only [Option.bind_eq_bind, Option.bind_some]
  rw [hsize]
  simp only [Option.bind_some]
  rw [hname]
  rfl

/-- what `send_package` writes for one response -/
def Response.bytes (r : Response) : Bytes := be16 (BitVec.ofNat 16 r.package.length) ++ r.package

theorem sendPackage_package (r : Response) : sendPackage r.package = some r.bytes := by
  have hfits := r.fits
  have hlen := package_length r
  rw [sendPackage, if_pos (by omega)]
  rfl

theorem writeResponses_eq (rs : List Response) : writeResponses rs = some (rs.flatMap Response.bytes) := by
  have hall : (rs.mapM fun r => sendPackage r.package) = some (rs.map Response.bytes) := by
    induction rs with
    | nil => rfl
    | cons r rs ih => simp [List.mapM_cons, sendPackage_package r, ih]
  rw [writeResponses, hall, Option.map_some, List.flatMap_def]

theorem readResponse_bytes (r : Response) : Reads readResponse r.bytes r.toFields := by
  intro rest
  have hfits := r.fits
  have hlen := package_length r
  have hsize := reads_be16 r.package.length (by omega)
  have hbody := reads_bytes r.package
  rw [Response.bytes, List.append_assoc, readResponse, hsize]
  simp only [Option.bind_eq_bind, Option.bind_some]
  rw [hbody]
  simp only [Option.bind_some, readPackage_package]

/-- **The response stream is uniquely decodable.** For every list of responses, `send_package` writes a stream, and
reading it package by package gives exactly these responses, with no byte left. -/
theorem response_stream_decodes (rs : List Response) :
    ∃ bytes, writeResponses rs = some bytes ∧ readStream readResponse bytes = some (rs.map Response.toFields) := by
  refine ⟨rs.flatMap Response.bytes, writeResponses_eq rs, ?_⟩
  apply readStream_flatMap
  · intro r _
    exact readResponse_bytes r
  · intro r _
    simp [Response.bytes, be16]

end OwliesServer.ServerPackage
