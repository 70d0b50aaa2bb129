import Vtxo.Bytes
import Vtxo.Text.Utf8

/-!
# Hexadecimal text

Bytes are shown as lower-case digit pairs. Reading accepts either case and says what is wrong with a text
it refuses: an odd number of bytes of text comes first, else the first byte that is no digit.

  1. `digitValue?_digit`: the digit written for a value is read as that value.
-/

set_option autoImplicit false

namespace Vtxo.Hex

/-- Why a text is not hexadecimal. -/
inductive Fault where
  | oddLength
  | badDigit (byte : UInt8) (position : Nat)
deriving DecidableEq

/-- The digit for a value below sixteen. -/
def digit (n : Nat) : Char :=
  if n < 10 then Char.ofNat (48 + n) else Char.ofNat (87 + n)

/-- The value of a digit given as an ASCII code, in either case. -/
def digitValue? (code : UInt8) : Option UInt8 :=
  if 48 ≤ code ∧ code ≤ 57 then some (code - 48)
  else if 97 ≤ code ∧ code ≤ 102 then some (code - 87)
  else if 65 ≤ code ∧ code ≤ 70 then some (code - 55)
  else none

/-- The digits of one byte. -/
def byteDigits (b : UInt8) : List Char :=
  [digit (b.toNat / 16), digit (b.toNat % 16)]

theorem digitValue?_digit :
    ∀ n ∈ List.range 16, digitValue? (UInt8.ofNat (digit n).toNat) = some (UInt8.ofNat n) := by
  decide

/-- Lower-case hexadecimal. -/
def encode (bytes : Bytes) : String :=
  String.ofList (bytes.flatMap byteDigits)

/-- Read digit pairs; `position` is where `codes` starts in the whole text. -/
def decodePairs (position : Nat) : Bytes → Except Fault Bytes
  | [] => .ok []
  | [_] => .error .oddLength
  | high :: low :: rest =>
    match digitValue? high, digitValue? low with
    | none, _ => .error (.badDigit high position)
    | some _, none => .error (.badDigit low (position + 1))
    | some h, some l => (decodePairs (position + 2) rest).map ((16 * h + l) :: ·)

/-- Read a hexadecimal text. -/
def decode (text : String) : Except Fault Bytes :=
  let codes := Utf8.encode text
  if codes.length % 2 = 1 then .error .oddLength else decodePairs 0 codes

/-- Read a hexadecimal text of exactly `n` bytes. -/
def decodeSized? (n : Nat) (text : String) : Option (Sized n) :=
  (decode text).toOption.bind (Sized.ofBytes? n)

end Vtxo.Hex
