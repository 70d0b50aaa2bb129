import Vtxo.Leaf.Basic

/-!
# Bearer notes

A note is a value that anyone who knows its preimage can claim. It is written as a tag followed by the Base58
form of the preimage and the value.

  1. `Note.render` and `Note.parse`: notes as text.
-/

set_option autoImplicit false

namespace Vtxo

/-- A value and the preimage that claims it. -/
structure Note where
  preimage : Sized 32
  value : UInt32
deriving DecidableEq

namespace Note

/-- What every note begins with. -/
def tag : String := "arknote"

/-- The preimage, then the value with its most significant byte first. -/
def payload (note : Note) : Bytes :=
  note.preimage.val ++ Bytes.natBE 4 note.value.toNat

/-- The note with a payload of 36 bytes. -/
def ofPayload? (payload : Bytes) : Option Note :=
  if payload.length = 36 then
    (Sized.ofBytes? 32 (payload.take 32)).map fun preimage =>
      ⟨preimage, UInt32.ofNat (Bytes.toNatBE (payload.drop 32))⟩
  else none

def render (note : Note) : String :=
  tag ++ Base58.encode note.payload

/-- What follows the tag, if the text begins with it. -/
def afterTag? (text : List Char) : Option (List Char) :=
  if text.take tag.length = tag.toList then some (text.drop tag.length) else none

/-- Read a note. -/
def parse (text : String) : Except Error Note :=
  match afterTag? text.toList with
  | none => .error (.note .noTag)
  | some encoded =>
    match Base58.decode encoded with
    | .error fault => .error (.note (.base58 fault))
    | .ok payload =>
      match ofPayload? payload with
      | some note => .ok note
      | none => .error (.note (.length payload.length))

/-- The value as an amount. -/
def amount (note : Note) : Amount :=
  ⟨note.value.toUInt64⟩

/-- The lock that the preimage opens. -/
def lock (note : Note) : HashLock :=
  HashLock.sha256Of note.preimage.val

end Note

end Vtxo
