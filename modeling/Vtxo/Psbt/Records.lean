import Vtxo.Psbt.Basic
import Vtxo.Taproot.ScriptList

/-!
# Protocol records on an input

The protocol keeps its own data among the records of type 222, under names: the scripts of the spent output, the expiry
of its batch, the keys that co-sign it, and what else a witness must hold. A record belongs to the name that its
key begins with. A missing record means that nothing is set.

  1. `InputMaps.record?`: the record that is read under a name.
  2. `InputMaps.replace`: writing a record drops every record of the same name first.
-/

set_option autoImplicit false

namespace Vtxo

/-! ## Names -/

/-- The type byte of the protocol's records. -/
def protocolRecordType : UInt8 := 222

/-- The records of the protocol. -/
inductive RecordName where
  | scripts
  | expiry
  | cosigner
  | condition
deriving DecidableEq

namespace RecordName

def text : RecordName → String
  | scripts => "taptree"
  | expiry => "expiry"
  | cosigner => "cosigner"
  | condition => "condition"

def bytes (name : RecordName) : Bytes :=
  Utf8.encode name.text

/-- The key of the record itself. -/
def key (name : RecordName) : RecordKey :=
  ⟨protocolRecordType, name.bytes⟩

/-- Whether a record belongs to the name. -/
def owns (name : RecordName) (key : RecordKey) : Bool :=
  key.type == protocolRecordType && name.bytes.isPrefixOf key.name

end RecordName

/-! ## Witness stacks -/

/-- The most bytes that the elements of a witness may take when read. -/
def maxWitnessBytes : Nat := 4000000

/-- The elements, each after its length, after their number. -/
def encodeWitness (elements : List Bytes) : Bytes :=
  CompactSize.encode elements.length ++ elements.flatMap countedBytes

/-- The space that an element of `length` bytes asks for when `cursor` is taken, capped at 64 bits. -/
def requestedSpace (cursor length : Nat) : Nat :=
  let requested := cursor + length + CompactSize.length length
  if requested < UInt64.size then requested else UInt64.size - 1

/-- Read elements; `space` is set aside for their positions, of which `cursor` counts from the start. -/
def decodeElements (space : Nat) : Nat → Nat → Bytes → Except RecordFault (List Bytes × Bytes)
  | 0, _, bytes => .ok ([], bytes)
  | count + 1, cursor, bytes =>
    match CompactSize.decode bytes with
    | .error fault => .error (.witnessSize fault)
    | .ok (length, rest) =>
      let requested := requestedSpace cursor length
      if requested > maxWitnessBytes + space then .error (.witnessOversized requested)
      else
        match Bytes.splitExact? length rest with
        | none => .error (.witnessSize .endOfInput)
        | some (element, after) =>
          (decodeElements space count requested after).map fun (elements, left) =>
            (element :: elements, left)

/-- Read a witness that takes all bytes. -/
def decodeWitness (bytes : Bytes) : Except RecordFault (List Bytes) :=
  match CompactSize.decode bytes with
  | .error fault => .error (.witnessSize fault)
  | .ok (count, rest) =>
    -- Each element takes four bytes for its position, whatever its length.
    if count > maxWitnessBytes then .error (.witnessOversized count)
    else
      match decodeElements (4 * count) count (4 * count) rest with
      | .error fault => .error fault
      | .ok (elements, left) => if left.isEmpty then .ok elements else .error .witnessLeftOver

namespace InputMaps

/-! ## Reading and replacing records -/

/-- The first record of a name. -/
def record? (maps : InputMaps) (name : RecordName) : Option Bytes :=
  (maps.records.findKey? name.owns).map (·.2)

/-- The maps with one record of a name, in place of all of them. -/
def replace (maps : InputMaps) (name : RecordName) (value : Bytes) : InputMaps :=
  { maps with records := (maps.records.erase name.owns).insert name.key value }

/-- Insert or overwrite a record of any kind. -/
def setRecord (maps : InputMaps) (key : RecordKey) (value : Bytes) : InputMaps :=
  { maps with records := maps.records.insert key value }

/-! ## Scripts of the spent output -/

def setScripts (maps : InputMaps) (scripts : List Bytes) : InputMaps :=
  maps.replace .scripts (ScriptList.encode scripts)

def scripts (maps : InputMaps) : Except Error (Option (List Bytes)) :=
  match maps.record? .scripts with
  | none => .ok none
  | some bytes => (ScriptList.decode bytes).map some

/-! ## Expiry of the batch -/

/-- Set the expiry, if a sequence can enforce it. The maps are changed in place. -/
def setExpiry (maps : InputMaps) (expiry : RelativeLock) : InputMaps × Except Error Unit :=
  match expiry.scriptValue with
  | .ok value => (maps.replace .expiry (ScriptNumber.encode value), .ok ())
  | .error fault => (maps, .error fault)

/-- The lock that an expiry record holds. -/
def decodeExpiry (bytes : Bytes) : Except Error RelativeLock := do
  let value ← match ScriptNumber.decode bytes with
    | .ok value => pure value
    | .error fault => throw (.record (.expiryNumber fault))
  let sequence ← match ScriptOp.word? value with
    | some sequence => pure sequence
    | none => throw (.record (.expiryRange value))
  RelativeLock.ofSequence sequence

def expiry (maps : InputMaps) : Except Error (Option RelativeLock) :=
  match maps.record? .expiry with
  | none => .ok none
  | some bytes => (decodeExpiry bytes).map some

/-! ## Keys that co-sign -/

/-- The key of the record of a cosigner. -/
def cosignerKey (index : UInt8) : RecordKey :=
  ⟨protocolRecordType, RecordName.cosigner.bytes ++ [index]⟩

/-- Set the cosigner with an index, in place of an earlier one with the same index. -/
def addCosigner (maps : InputMaps) (index : UInt8) (key : PublicKey) : InputMaps :=
  maps.setRecord (cosignerKey index) key.bytes

/-- The index and the key that a cosigner record holds. -/
def decodeCosigner (key : RecordKey) (value : Bytes) : Except Error (UInt8 × PublicKey) :=
  match key.name[RecordName.cosigner.bytes.length]? with
  | none => .error (.record .cosignerIndex)
  | some index =>
    match PublicKey.ofBytes? value with
    | none => .error (.record .cosignerKey)
    | some publicKey => .ok (index, publicKey)

/-- The cosigners in order of their indices. -/
def cosigners (maps : InputMaps) : Except Error (List (UInt8 × PublicKey)) := do
  let owned := maps.records.entries.filter fun entry => RecordName.cosigner.owns entry.1
  let found ← owned.mapM fun entry => decodeCosigner entry.1 entry.2
  return found.mergeSort fun a b => a.1 ≤ b.1

/-! ## What else a witness must hold -/

def setCondition (maps : InputMaps) (witness : List Bytes) : InputMaps :=
  maps.replace .condition (encodeWitness witness)

def condition (maps : InputMaps) : Except Error (Option (List Bytes)) :=
  match maps.record? .condition with
  | none => .ok none
  | some bytes =>
    match decodeWitness bytes with
    | .ok elements => .ok (some elements)
    | .error fault => .error (.record fault)

end InputMaps

end Vtxo
