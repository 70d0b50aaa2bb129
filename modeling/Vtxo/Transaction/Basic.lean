import Vtxo.Amount
import Vtxo.Encoding.CompactSize
import Vtxo.Hash.Sha256
import Vtxo.Outpoint
import Vtxo.Script.Op

/-!
# Transactions

A transaction spends outpoints and creates outputs. Its name is the digest of its plain form; the form that is
sent is the same, but for a transaction without inputs, which carries the marker of the extended form so that
its empty input list is not taken for that marker.

  1. `OutPoint.bytes_inj` and the fixed-width fields below make the plain form unambiguous field by field.
-/

set_option autoImplicit false

namespace Vtxo

/-- A value and the script that guards it. -/
structure TxOut where
  value : Amount
  script : Bytes
deriving DecidableEq

/-- A spent outpoint, without its witness. -/
structure TxIn where
  outpoint : OutPoint
  script : Bytes
  sequence : UInt32
deriving DecidableEq

/-- A transaction without witnesses. -/
structure Transaction where
  version : UInt32
  inputs : List TxIn
  outputs : List TxOut
  lockTime : UInt32
deriving DecidableEq

/-- A sequence that leaves replacement open and enforces no lock. -/
def replaceableSequence : UInt32 := 0xfffffffd

/-- The version of every transaction built here. -/
def transactionVersion : UInt32 := 3

/-! ## Plain form -/

/-- Bytes after their length. -/
def countedBytes (bytes : Bytes) : Bytes :=
  CompactSize.encode bytes.length ++ bytes

/-- A 32-bit number, least significant byte first. -/
def wordBytes (n : UInt32) : Bytes :=
  Bytes.natLE 4 n.toNat

def Amount.bytes (amount : Amount) : Bytes :=
  Bytes.natLE 8 amount.toNat

def TxIn.bytes (input : TxIn) : Bytes :=
  input.outpoint.bytes ++ countedBytes input.script ++ wordBytes input.sequence

def TxOut.bytes (output : TxOut) : Bytes :=
  output.value.bytes ++ countedBytes output.script

namespace Transaction

/-- The inputs and outputs, each list after its length. -/
def bodyBytes (tx : Transaction) : Bytes :=
  CompactSize.encode tx.inputs.length ++ tx.inputs.flatMap TxIn.bytes ++
    CompactSize.encode tx.outputs.length ++ tx.outputs.flatMap TxOut.bytes

/-- The form that names the transaction. -/
def bytes (tx : Transaction) : Bytes :=
  wordBytes tx.version ++ tx.bodyBytes ++ wordBytes tx.lockTime

/-- The form that is sent. -/
def wireBytes (tx : Transaction) : Bytes :=
  if tx.inputs.isEmpty then wordBytes tx.version ++ [0, 1] ++ tx.bodyBytes ++ wordBytes tx.lockTime
  else tx.bytes

/-- The name of the transaction. -/
def txid (tx : Transaction) : Txid :=
  ⟨Sha256.hashTwice tx.bytes⟩

end Transaction

/-! ## Standard output scripts -/

/-- The script that pays to a taproot output key. -/
def taprootScript (key : XOnlyKey) : Bytes :=
  0x51 :: 0x20 :: key.bytes

/-- The script that carries data and cannot be spent. -/
def dataScript (payload : Bytes) : Bytes :=
  Opcode.returnData :: ScriptOp.pushBytes payload

/-- Whether a script has the shape of a taproot output. -/
def isTaprootScript (script : Bytes) : Bool :=
  script.length == 34 && script.take 2 == [0x51, 0x20]

/-- Whether a script begins like one that cannot be spent. -/
def isDataScript (script : Bytes) : Bool :=
  script.head? == some Opcode.returnData

/-- The output appended to every transaction so that its fee can be raised later. -/
def anchorOutput : TxOut :=
  ⟨.zero, [0x51, 0x02, 0x4e, 0x73]⟩

theorem isTaprootScript_taprootScript (key : XOnlyKey) : isTaprootScript (taprootScript key) = true := by
  simp [isTaprootScript, taprootScript, key.length_bytes]

end Vtxo
