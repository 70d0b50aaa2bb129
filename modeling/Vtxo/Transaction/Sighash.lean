import Vtxo.Curve.Schnorr
import Vtxo.Hash.Tagged
import Vtxo.Leaf.Basic
import Vtxo.Transaction.Basic

/-!
# What a script-path signature signs

A signature commits to a transaction through one digest. The sighash type selects how much of the
transaction it covers: which outputs, and whether all inputs or only the one that is signed.

  1. `SighashType.ofByte?_byte`: a type is read back from its byte.
-/

set_option autoImplicit false

namespace Vtxo

/-- Which outputs a signature covers. -/
inductive OutputCover where
  | all
  | none
  | single
deriving DecidableEq

/-- How much of a transaction a signature covers. -/
inductive SighashType where
  /-- Everything, without a type byte after the signature. -/
  | default
  /-- A type byte: which outputs, and whether only the signed input. -/
  | explicit (outputs : OutputCover) (anyoneCanPay : Bool)
deriving DecidableEq

namespace SighashType

def all : List SighashType :=
  [default, explicit .all false, explicit .none false, explicit .single false,
    explicit .all true, explicit .none true, explicit .single true]

/-- The byte that stands for a type. -/
def byte : SighashType → UInt8
  | default => 0x00
  | explicit .all false => 0x01
  | explicit .none false => 0x02
  | explicit .single false => 0x03
  | explicit .all true => 0x81
  | explicit .none true => 0x82
  | explicit .single true => 0x83

/-- The type a byte stands for. -/
def ofByte? (b : UInt8) : Option SighashType :=
  all.find? fun kind => kind.byte == b

theorem ofByte?_byte (kind : SighashType) : ofByte? kind.byte = some kind := by
  rcases kind with _ | ⟨outputs, anyone⟩
  · decide
  · cases outputs <;> cases anyone <;> decide

def outputs : SighashType → OutputCover
  | default => .all
  | explicit outputs _ => outputs

def anyoneCanPay : SighashType → Bool
  | default => false
  | explicit _ anyone => anyone

end SighashType

/-- A signature and what it covers. -/
structure TapSignature where
  signature : Signature
  kind : SighashType
deriving DecidableEq

/-- The signature as it goes into a witness: the default type has no byte. -/
def TapSignature.bytes (s : TapSignature) : Bytes :=
  s.signature.val ++ (if s.kind = .default then [] else [s.kind.byte])

namespace Transaction

/-- The outputs a signature of input `index` covers, as one digest, or nothing if it covers none. -/
def outputsDigest (tx : Transaction) (index : Nat) : OutputCover → Except Error Bytes
  | .all => .ok (Sha256.hash (tx.outputs.flatMap TxOut.bytes)).val
  | .none => .ok []
  | .single =>
    match tx.outputs[index]? with
    | some output => .ok (Sha256.hash output.bytes).val
    | none => .error (.sighash .noSingleOutput)

/-- The digests of all inputs and of what they spend. -/
def inputsDigest (tx : Transaction) (prevouts : List TxOut) : Bytes :=
  (Sha256.hash (tx.inputs.flatMap fun i => i.outpoint.bytes)).val ++
    (Sha256.hash (prevouts.flatMap fun o => o.value.bytes)).val ++
    (Sha256.hash (prevouts.flatMap fun o => countedBytes o.script)).val ++
    (Sha256.hash (tx.inputs.flatMap fun i => wordBytes i.sequence)).val

/-- One input and what it spends. -/
def inputBytes (input : TxIn) (prevout : TxOut) : Bytes :=
  input.outpoint.bytes ++ prevout.value.bytes ++ countedBytes prevout.script ++
    wordBytes input.sequence

/-- The part of the message that tells the signed input apart: the input itself if it is the only one covered,
else its position. -/
def positionBytes (tx : Transaction) (prevouts : List TxOut) (index : Nat) (anyoneCanPay : Bool) : Bytes :=
  if anyoneCanPay then
    match tx.inputs[index]?, prevouts[index]? with
    | some input, some prevout => inputBytes input prevout
    | _, _ => []
  else Bytes.natLE 4 index

/-- The message a script-path signature of input `index` signs, given the outputs that the inputs spend and the
digest of the leaf. -/
def sighashMessage (tx : Transaction) (prevouts : List TxOut) (index : Nat) (leaf : Sized 32)
    (kind : SighashType) : Except Error Bytes :=
  if prevouts.length ≠ tx.inputs.length then .error (.sighash .prevoutCount)
  else do
    let outputs ← tx.outputsDigest index kind.outputs
    let inputs := if kind.anyoneCanPay then [] else tx.inputsDigest prevouts
    let (all, single) := if kind.outputs = .single then ([], outputs) else (outputs, [])
    -- In order: the epoch, the type, the transaction, the covered parts, a spend through a script without an
    -- annex, the input, and the leaf with its key version and no code separator.
    return 0x00 :: kind.byte :: (wordBytes tx.version ++ wordBytes tx.lockTime ++ inputs ++ all ++
      [0x02] ++ tx.positionBytes prevouts index kind.anyoneCanPay ++ single ++
      leaf.val ++ [0x00] ++ wordBytes 0xffffffff)

/-- The digest that a script-path signature of input `index` signs. -/
def sighash (tx : Transaction) (prevouts : List TxOut) (index : Nat) (leaf : Sized 32)
    (kind : SighashType) : Except Error (Sized 32) :=
  (tx.sighashMessage prevouts index leaf kind).map (Tagged.hashIn Tagged.sighashDomain)

end Transaction

end Vtxo
