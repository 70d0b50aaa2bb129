import Vtxo.Hex

/-!
# Percent-escaping

Letters, digits and `- . _ ~` stand for themselves; every other byte of a text is written `%XX` with
upper-case digits. Reading is lenient: a percent sign that two hexadecimal digits do not follow stands for
itself, so every byte string can be unescaped.

  1. `unescape_escape`: escaping is undone by unescaping.
-/

set_option autoImplicit false

namespace Vtxo.Percent

/-- The codes that stand for themselves. -/
def isPlain (b : UInt8) : Bool :=
  (0x30 ≤ b && b ≤ 0x39) || (0x41 ≤ b && b ≤ 0x5a) || (0x61 ≤ b && b ≤ 0x7a)
    || b == 0x2d || b == 0x2e || b == 0x5f || b == 0x7e

/-- The ASCII code of the upper-case digit for a value below sixteen. -/
def upperDigit (n : UInt8) : UInt8 :=
  if n < 10 then 48 + n else 55 + n

/-- One byte escaped. -/
def escapeByte (b : UInt8) : Bytes :=
  if isPlain b then [b] else [0x25, upperDigit (b / 16), upperDigit (b % 16)]

/-- Every byte escaped. -/
def escape (bytes : Bytes) : Bytes :=
  bytes.flatMap escapeByte

/-- The value of the two digits that may follow a percent sign. -/
def pairValue? (high low : UInt8) : Option UInt8 :=
  match Hex.digitValue? high, Hex.digitValue? low with
  | some h, some l => some (16 * h + l)
  | _, _ => none

/-- Escapes replaced by the bytes they stand for. -/
def unescape : Bytes → Bytes
  | [] => []
  | b :: high :: low :: rest =>
    if b = 0x25 then
      match pairValue? high low with
      | some value => value :: unescape rest
      | none => b :: unescape (high :: low :: rest)
    else b :: unescape (high :: low :: rest)
  | b :: rest => b :: unescape rest

/-! ## Escaping is undone -/

theorem isPlain_not_percent {b : UInt8} (h : isPlain b = true) : b ≠ 0x25 := by
  rintro rfl
  exact absurd h (by decide)

theorem pairValue?_upperDigit :
    ∀ n ∈ List.range 256,
      pairValue? (upperDigit (UInt8.ofNat n / 16)) (upperDigit (UInt8.ofNat n % 16)) =
        some (UInt8.ofNat n) := by
  decide +kernel

theorem pairValue?_of_byte (b : UInt8) :
    pairValue? (upperDigit (b / 16)) (upperDigit (b % 16)) = some b := by
  have h := pairValue?_upperDigit b.toNat (List.mem_range.mpr b.toNat_lt)
  simpa using h

theorem unescape_cons_of_ne {b : UInt8} (h : b ≠ 0x25) (rest : Bytes) :
    unescape (b :: rest) = b :: unescape rest := by
  match rest with
  | [] => simp [unescape]
  | [_] => simp [unescape]
  | _ :: _ :: _ => rw [unescape, if_neg h]

theorem unescape_escapeByte (b : UInt8) (rest : Bytes) :
    unescape (escapeByte b ++ rest) = b :: unescape rest := by
  unfold escapeByte
  split
  · next h => exact unescape_cons_of_ne (isPlain_not_percent h) rest
  · simp [unescape, pairValue?_of_byte]

theorem unescape_escape (bytes : Bytes) : unescape (escape bytes) = bytes := by
  induction bytes with
  | nil => rfl
  | cons b rest ih =>
    show unescape (escapeByte b ++ escape rest) = b :: rest
    rw [unescape_escapeByte, ih]

end Vtxo.Percent
