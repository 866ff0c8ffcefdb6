/-
The server's message types (content/Client2Server.sproto, content/Server2Client.sproto), with the tags of their fields. A
scheme's types are in the order of their names.
-/
import OwliesServer.Wire.Sproto

namespace OwliesServer.Schemes

open OwliesServer.CChar OwliesServer.Sproto

def addressBook : SprotoType where
  fields := [⟨ascii "person", 0, .array (.struct 2)⟩]
  tag_lt := by decide
  ascending := by decide

def loginRequest : SprotoType where
  fields := [⟨ascii "timestamp", 0, .single .string⟩, ⟨ascii "user_id", 1, .single .string⟩,
    ⟨ascii "user_account", 2, .single .string⟩, ⟨ascii "device_identifier", 3, .single .string⟩,
    ⟨ascii "client_version", 4, .single .string⟩, ⟨ascii "client_app_name", 5, .single .string⟩]
  tag_lt := by decide
  ascending := by decide

def person : SprotoType where
  fields := [⟨ascii "name", 0, .single .string⟩, ⟨ascii "id", 1, .single .integer⟩,
    ⟨ascii "email", 2, .single .string⟩, ⟨ascii "phone", 3, .array (.struct 3)⟩]
  tag_lt := by decide
  ascending := by decide

def phoneNumber : SprotoType where
  fields := [⟨ascii "number", 0, .single .string⟩, ⟨ascii "type", 1, .single .integer⟩]
  tag_lt := by decide
  ascending := by decide

def loginResponse : SprotoType where
  fields := [⟨ascii "user_id", 0, .single .string⟩, ⟨ascii "energy", 1, .single .integer⟩]
  tag_lt := by decide
  ascending := by decide

def client2Server : Scheme := [addressBook, loginRequest, person, phoneNumber]

def client2ServerNames : List Bytes :=
  [ascii "AddressBook", ascii "LoginRequest", ascii "Person", ascii "Person.PhoneNumber"]

/-- the type `c2sSp:querytype` finds -/
def c2sType (typename : Bytes) : Option SprotoType := (client2ServerNames.zip client2Server).lookup typename

def server2Client : Scheme := [loginResponse]

end OwliesServer.Schemes
