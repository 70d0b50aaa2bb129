import Vtxo.Bytes

/-!
# Text as UTF-8 bytes

Texts are encoded as UTF-8 before they are escaped, split or compared with a byte position. Reading bytes
as text either succeeds on all of them or reports the first place where they stop being UTF-8.

  1. `decode_encode`: the bytes of a text read back as that text.
-/

set_option autoImplicit false

namespace Vtxo.Utf8

/-- The first place where bytes stop being UTF-8. -/
inductive Fault where
  /-- The `length` bytes from `start` on begin no character. -/
  | invalid (length start : Nat)
  /-- The bytes end inside the character that begins at `start`. -/
  | incomplete (start : Nat)
deriving DecidableEq

/-- The bytes of a text. -/
def encode (text : String) : Bytes :=
  text.toByteArray.data.toList

/-! ## Where decoding fails -/

/-- Whether a byte continues a character. -/
def isContinuation (b : UInt8) : Bool :=
  0x80 ≤ b && b ≤ 0xbf

/-- How many bytes a character has that begins with `lead`, and the range its second byte lies in;
`none` if no character begins with `lead`. -/
def sequenceShape? (lead : UInt8) : Option (Nat × UInt8 × UInt8) :=
  if lead ≤ 0x7f then some (1, 0x80, 0xbf)
  else if lead < 0xc2 then none
  else if lead ≤ 0xdf then some (2, 0x80, 0xbf)
  else if lead = 0xe0 then some (3, 0xa0, 0xbf)
  else if lead = 0xed then some (3, 0x80, 0x9f)
  else if lead ≤ 0xef then some (3, 0x80, 0xbf)
  else if lead = 0xf0 then some (4, 0x90, 0xbf)
  else if lead ≤ 0xf3 then some (4, 0x80, 0xbf)
  else if lead = 0xf4 then some (4, 0x80, 0x8f)
  else none

/-- The fault in the character that begins with `lead` at `start`, or how many bytes it has. -/
def checkSequence (start : Nat) (lead : UInt8) (rest : Bytes) : Except Fault Nat :=
  match sequenceShape? lead with
  | none => .error (.invalid 1 start)
  | some (1, _, _) => .ok 1
  | some (length, low, high) =>
    match rest with
    | [] => .error (.incomplete start)
    | second :: others =>
      if ¬ (low ≤ second ∧ second ≤ high) then .error (.invalid 1 start)
      else
        let following := (others.take (length - 2)).takeWhile isContinuation
        if following.length = length - 2 then .ok length
        -- If the bytes ran out, more of them might have completed the character.
        else if following.length = others.length then .error (.incomplete start)
        else .error (.invalid (2 + following.length) start)

/-- The first fault in `bytes`, of which the first one is at position `start`; `fuel` bounds the number of
characters. -/
def firstFault (fuel start : Nat) (bytes : Bytes) : Option Fault :=
  match fuel, bytes with
  | 0, _ => none
  | _, [] => none
  | fuel + 1, lead :: rest =>
    match checkSequence start lead rest with
    | .error fault => some fault
    | .ok length => firstFault fuel (start + length) (rest.drop (length - 1))

/-! ## Decoding -/

/-- The text whose UTF-8 bytes are given. -/
def decode (bytes : Bytes) : Except Fault String :=
  match String.fromUTF8? ⟨bytes.toArray⟩ with
  | some text => .ok text
  | none => .error ((firstFault bytes.length 0 bytes).getD (.incomplete 0))

theorem decode_encode (text : String) : decode (encode text) = .ok text := by
  have hvalid : (⟨(encode text).toArray⟩ : ByteArray) = text.toByteArray := by simp [encode]
  have h : String.fromUTF8? ⟨(encode text).toArray⟩ = some text := by
    rw [hvalid, String.fromUTF8?, dif_pos text.isValidUTF8]
    rfl
  rw [decode, h]

end Vtxo.Utf8
