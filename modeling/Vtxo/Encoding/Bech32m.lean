import Vtxo.Bytes
import Vtxo.Text.Utf8

/-!
# Bech32m

A text is a label, the separator `1`, and characters that carry five bits each, the last six of which are a
checksum over all that precedes them. The separator is the last `1`. Bits that fill no byte at the end of the
data are ignored on reading and zero on writing.

  1. `length_checksum`: the checksum has six characters.
-/

set_option autoImplicit false

namespace Vtxo.Bech32m

/-- Why a text cannot be read. -/
inductive Fault where
  /-- No separator, a bad label, or a character without a value after the separator. -/
  | shape
  /-- Too long, too short for a checksum, or a checksum that does not match. -/
  | checksum
deriving DecidableEq

/-- The characters in order of their value. -/
def alphabet : List Char :=
  "qpzry9x8gf2tvdw0s3jn54khce6mua7l".toList

/-- The value of a character. -/
def charValue? (c : Char) : Option Nat :=
  alphabet.findIdx? (· == c)

/-- The longest text. -/
def maxLength : Nat := 1023

/-- The longest label. -/
def maxLabelLength : Nat := 83

/-! ## Checksum -/

/-- The coefficients of the checksum's generator, one for each bit that is shifted out. -/
def generator : List Nat :=
  [0x3b6a57b2, 0x26508e6d, 0x1ea119fa, 0x3d4233dd, 0x2a1462b3]

/-- One step of the polynomial remainder. -/
def polymodStep (state value : Nat) : Nat :=
  let top := state >>> 25
  let shifted := (state % 0x2000000) * 32 ^^^ value
  (List.range 5).foldl (fun s i => if top.testBit i then s ^^^ generator.getD i 0 else s) shifted

/-- The remainder of a string of five-bit values. -/
def polymod (values : List Nat) : Nat :=
  values.foldl polymodStep 1

/-- What the remainder of a whole text must be. -/
def residue : Nat := 0x2bc830a3

/-- The label as values: the high bits, a zero, the low bits. -/
def labelValues (label : List Char) : List Nat :=
  label.map (fun c => c.toNat / 32) ++ 0 :: label.map (fun c => c.toNat % 32)

/-- The six values that complete a label and data. -/
def checksum (label : List Char) (data : List Nat) : List Nat :=
  let remainder := polymod (labelValues label ++ data ++ List.replicate 6 0) ^^^ residue
  (List.range 6).map fun i => remainder >>> (5 * (5 - i)) % 32

theorem length_checksum (label : List Char) (data : List Nat) : (checksum label data).length = 6 := by
  simp [checksum]

/-! ## Regrouping bits -/

/-- The low `width` bits of a number, the highest first. -/
def bits (width n : Nat) : List Bool :=
  (List.range width).map fun i => n.testBit (width - 1 - i)

/-- The number with the given bits, the highest first. -/
def ofBits (bs : List Bool) : Nat :=
  bs.foldl (fun n b => 2 * n + b.toNat) 0

/-- The numbers held in full groups of `width` bits; the bits that fill no group are dropped. -/
def groups (width : Nat) (bs : List Bool) : List Nat :=
  if _h : 0 < width ∧ width ≤ bs.length then
    ofBits (bs.take width) :: groups width (bs.drop width)
  else []
termination_by bs.length
decreasing_by
  rw [List.length_drop]
  omega

/-- Bytes as five-bit values, the last one filled up with zero bits. -/
def toFives (bytes : Bytes) : List Nat :=
  let bs := bytes.flatMap fun b => bits 8 b.toNat
  groups 5 (bs ++ List.replicate ((5 - bs.length % 5) % 5) false)

/-- The bytes held in five-bit values. -/
def ofFives (values : List Nat) : Bytes :=
  (groups 8 (values.flatMap (bits 5))).map UInt8.ofNat

/-! ## Texts -/

/-- The text of a label and bytes. -/
def encode (label : String) (bytes : Bytes) : String :=
  let data := toFives bytes
  let values := data ++ checksum label.toList data
  label ++ "1" ++ String.ofList (values.map fun v => alphabet.getD v 'q')

/-- The part before the last separator and the part after it. -/
def splitAtLast (separator : Char) (text : List Char) : Option (List Char × List Char) :=
  let after := (text.reverse.takeWhile (· != separator)).reverse
  if after.length = text.length then none
  else some (text.take (text.length - after.length - 1), after)

/-- Whether a label may stand before the separator. -/
def isLabel (label : List Char) : Bool :=
  !label.isEmpty && label.length ≤ maxLabelLength && label.all fun c => 33 ≤ c.toNat && c.toNat ≤ 126

/-- Read a text in lower case: its label and the bytes after it. -/
def decode (text : String) : Except Fault (String × Bytes) :=
  match splitAtLast '1' text.toList with
  | none => .error .shape
  | some (label, after) =>
    match after.mapM charValue? with
    | none => .error .shape
    | some values =>
      -- Characters come before the label and both before the checksum, which settles what is said of two faults.
      if ¬ isLabel label then .error .shape
      else if text.toList.length > maxLength ∨ values.length < 6 ∨
          polymod (labelValues label ++ values) ≠ residue then .error .checksum
      else .ok (String.ofList label, ofFives (values.take (values.length - 6)))

end Vtxo.Bech32m
