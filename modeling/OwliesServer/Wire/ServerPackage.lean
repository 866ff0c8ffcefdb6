/-
Packages to the client (Src/LuaInterface/lua_connectionManager.c `packMessage`, Script/Service/owlies_agent.lua
`send_package`): 4-byte session, 2-byte name length, name, payload; on the socket with a 2-byte length in front.
-/
import OwliesServer.Core.CChar

namespace OwliesServer.ServerPackage

open OwliesServer.CChar

/-- `packMessage`; the name is a C string, its length what `strlen` finds -/
def packMessage (messageName : Bytes) (session : BitVec 32) (buf : Bytes) : Bytes :=
  let name := messageName.takeWhile (· ≠ 0#8)
  be32 session ++ be16 (BitVec.ofNat 16 name.length) ++ name ++ buf

/-- what `send_package` writes: `string.pack(">s2", pack)`, which raises when the length does not fit -/
def sendPackage (pack : Bytes) : Option Bytes :=
  if pack.length < 2 ^ 16 then some (be16 (BitVec.ofNat 16 pack.length) ++ pack) else none

/-- the session in the header of a package, as the client reads it -/
def headerSession : Bytes → Option (BitVec 32)
  | a :: b :: c :: d :: _ => some (BitVec.ofNat 32 (a.toNat * 2 ^ 24 + b.toNat * 2 ^ 16 + c.toNat * 2 ^ 8 + d.toNat))
  | _ => none

theorem headerSession_packMessage (messageName : Bytes) (session : BitVec 32) (buf : Bytes) :
    headerSession (packMessage messageName session buf) = some session := by
  have hs := session.isLt
  simp only [packMessage, be32, List.cons_append, List.nil_append, headerSession, Option.some.injEq]
  apply BitVec.eq_of_toNat_eq
  simp only [BitVec.toNat_ofNat, BitVec.toNat_setWidth, BitVec.toNat_ushiftRight, Nat.shiftRight_eq_div_pow]
  omega

end OwliesServer.ServerPackage
