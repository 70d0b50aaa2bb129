import Vtxo.Error

/-!
# Script operations

A script is a list of operations: bare opcodes, numbers, keys and data. Numbers and data are written in one way,
the shortest, and a number from -1 to 16 is a single opcode.

  1. `ScriptOp.build`: the bytes of a list of operations.
-/

set_option autoImplicit false

namespace Vtxo

/-! ## Opcodes -/

namespace Opcode

def pushData1 : UInt8 := 0x4c
def pushData2 : UInt8 := 0x4d
def pushData4 : UInt8 := 0x4e
def minusOne : UInt8 := 0x4f
def one : UInt8 := 0x51
def sixteen : UInt8 := 0x60
def verify : UInt8 := 0x69
def returnData : UInt8 := 0x6a
def drop : UInt8 := 0x75
def equal : UInt8 := 0x87
def sha256 : UInt8 := 0xa8
def hash160 : UInt8 := 0xa9
def checkSig : UInt8 := 0xac
def checkSigVerify : UInt8 := 0xad
def checkLockTime : UInt8 := 0xb1
def checkSequence : UInt8 := 0xb2

end Opcode

/-- One operation of a script. -/
inductive ScriptOp where
  | op (code : UInt8)
  | int (value : Int)
  | key (key : XOnlyKey)
  | data (bytes : Bytes)
deriving DecidableEq

namespace ScriptOp

/-! ## Writing -/

/-- The opcode bytes that push `n` bytes: the length itself, or a marker and the length in one, two or four
bytes. -/
def pushHeader (n : Nat) : Bytes :=
  if n < 0x4c then [UInt8.ofNat n]
  else if n < 0x100 then Opcode.pushData1 :: Bytes.natLE 1 n
  else if n < 0x10000 then Opcode.pushData2 :: Bytes.natLE 2 n
  else Opcode.pushData4 :: Bytes.natLE 4 n

/-- The shortest push of a byte string. -/
def pushBytes (bytes : Bytes) : Bytes :=
  pushHeader bytes.length ++ bytes

/-- The push of a number: an opcode for -1 to 16, else its shortest form as data. -/
def intBytes (value : Int) : Bytes :=
  if value = 0 then [0]
  else if value = -1 then [Opcode.minusOne]
  else if 1 ≤ value ∧ value ≤ 16 then [UInt8.ofNat (0x50 + value.toNat)]
  else pushBytes (ScriptNumber.encode value)

/-- The bytes of one operation. -/
def bytes : ScriptOp → Bytes
  | op code => [code]
  | int value => intBytes value
  | key k => pushBytes k.bytes
  | data bytes => pushBytes bytes

/-- The script of a list of operations. -/
def build (ops : List ScriptOp) : Bytes :=
  ops.flatMap bytes

/-! ## Reading an operation as a value -/

/-- Whether this is the given bare opcode. -/
def isCode (code : UInt8) : ScriptOp → Bool
  | op c => c == code
  | _ => false

/-- The number an operation pushes: data counts if it is the shortest form of a number of at most four
bytes. -/
def int? : ScriptOp → Option Int
  | int value => some value
  | data bytes => ScriptNumber.decode? bytes
  | _ => none

/-- The number as a 32-bit word, if it is one. -/
def word? (value : Int) : Option UInt32 :=
  if 0 ≤ value ∧ value < 4294967296 then some (UInt32.ofNat value.toNat) else none

/-- The key an operation pushes. -/
def key? : ScriptOp → Option XOnlyKey
  | key k => some k
  | data bytes => XOnlyKey.ofBytes? bytes
  | _ => none

end ScriptOp

end Vtxo
