import Vtxo.Bytes

/-!
# Numbers in scripts

A script holds a number as little-endian bytes whose top bit is the sign. Zero is the empty string, and every
number has exactly one form, the shortest. Scripts compute with at most four bytes.

  1. `length_encode`: how long the form of a number is.
-/

set_option autoImplicit false

namespace Vtxo.ScriptNumber

/-- Why a byte string is no number. -/
inductive Fault where
  | tooLong
  | notShortest
deriving DecidableEq

/-- How many bytes the magnitude `m` and a sign bit take. -/
def width (m : Nat) : Nat :=
  if m = 0 then 0 else (m.log2 + 1) / 8 + 1

/-- The weight of the top bit of a number of `width` bytes. -/
def signWeight (width : Nat) : Nat :=
  1 <<< (8 * width - 1)

/-- The shortest form of a number. -/
def encode (n : Int) : Bytes :=
  let w := width n.natAbs
  Bytes.natLE w (if n < 0 then n.natAbs + signWeight w else n.natAbs)

theorem length_encode (n : Int) : (encode n).length = width n.natAbs := by
  simp [encode]

/-- Whether the last byte is needed: it carries a digit, or the byte before it would be taken for a sign. -/
def isShortest (bytes : Bytes) : Bool :=
  match bytes.reverse with
  | [] => true
  | last :: before =>
    last &&& 0x7f != 0 ||
      (match before with
        | [] => false
        | next :: _ => next &&& 0x80 != 0)

/-- The number a byte string stands for, in any form. -/
def value (bytes : Bytes) : Int :=
  let n := Bytes.toNatLE bytes
  let s := signWeight bytes.length
  if bytes ≠ [] ∧ s ≤ n then - Int.ofNat (n - s) else Int.ofNat n

/-- Read a number of at most four bytes in its shortest form. -/
def decode (bytes : Bytes) : Except Fault Int :=
  if bytes.length > 4 then .error .tooLong
  else if isShortest bytes then .ok (value bytes)
  else .error .notShortest

/-- The number, or nothing. -/
def decode? (bytes : Bytes) : Option Int :=
  (decode bytes).toOption

end Vtxo.ScriptNumber
