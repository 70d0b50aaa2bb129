import Vtxo.Bytes

/-!
# Quoted characters

An error names an offending character between single quotes. Control characters, the quote, the backslash
and the two invisible Latin-1 characters are written as escapes.
-/

set_option autoImplicit false

namespace Vtxo.Quoted

/-- Lower-case hexadecimal without leading zeros. -/
def hexText (n : Nat) : String :=
  String.ofList (Nat.toDigits 16 n)

/-- Whether a code below 256 has no visible form. -/
def isInvisible (code : Nat) : Bool :=
  code < 32 || (127 ≤ code && code ≤ 160) || code == 173

/-- The character with the given Latin-1 code, in single quotes. -/
def latin1 (b : UInt8) : String :=
  let code := b.toNat
  let shown :=
    if code = 0 then "\\0"
    else if code = 9 then "\\t"
    else if code = 10 then "\\n"
    else if code = 13 then "\\r"
    else if code = 39 then "\\'"
    else if code = 92 then "\\\\"
    else if isInvisible code then "\\u\x7b" ++ hexText code ++ "\x7d"
    else String.singleton (Char.ofNat code)
  "'" ++ shown ++ "'"

end Vtxo.Quoted
