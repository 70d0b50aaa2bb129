import Vtxo.Text.Decimal
import Vtxo.Text.Percent
import Vtxo.Timelock

/-!
# Contract texts

A contract is written as `arkcontract=<type>&key=value&...`. Keys and values are percent-escaped, so the separators
stand for themselves; on reading, the order of the fields does not matter, the first of several fields with
one key counts, and further type fields are dropped.

  1. `Fields.encode`, `Fields.decode`: fields as a text, and what is read from one.
-/

set_option autoImplicit false

namespace Vtxo

/-- The key of the leading pair, which holds the type. -/
def typeKey : String := "arkcontract"

/-- The parts of a text between separators. -/
def splitAll (separator : Char) : List Char → List (List Char)
  | [] => [[]]
  | c :: rest =>
    if c = separator then [] :: splitAll separator rest
    else
      match splitAll separator rest with
      | [] => [[c]]
      | part :: parts => (c :: part) :: parts

/-- What precedes and what follows the first separator. -/
def splitOnce? (separator : Char) : List Char → Option (List Char × List Char)
  | [] => none
  | c :: rest =>
    if c = separator then some ([], rest)
    else (splitOnce? separator rest).map fun (before, after) => (c :: before, after)

/-- The fields of a contract in order, without its type. -/
structure Fields where
  pairs : List (String × String)
deriving DecidableEq

namespace Fields

def empty : Fields := ⟨[]⟩

/-! ## Writing -/

/-- The fields with one more at the end. -/
def push (fields : Fields) (key value : String) : Fields :=
  ⟨fields.pairs ++ [(key, value)]⟩

def pushKey (fields : Fields) (name : String) (key : XOnlyKey) : Fields :=
  fields.push name key.hex

/-- A timelock is written as the sequence that enforces it. -/
def pushDelay (fields : Fields) (name : String) (delay : Delay) : Fields :=
  fields.push name (toString delay.sequence.toNat)

/-- The fields with a timelock at the end, if a sequence can enforce it. -/
def pushLock (fields : Fields) (name : String) (lock : RelativeLock) : Except Error Fields :=
  (Delay.ofLock lock).map (fields.pushDelay name)

/-- A text with every character escaped that has a meaning of its own. -/
def escapeText (text : String) : String :=
  String.ofList ((Percent.escape (Utf8.encode text)).map fun b => Char.ofNat b.toNat)

/-- The text of a contract with the given type. -/
def encode (fields : Fields) (tag : String) : String :=
  fields.pairs.foldl (fun text (key, value) => text ++ "&" ++ escapeText key ++ "=" ++ escapeText value)
    (typeKey ++ "=" ++ tag)

/-! ## Reading a text -/

/-- The text that a raw text stands for. -/
def unescapeText (raw : List Char) : Except Error String :=
  let text := String.ofList raw
  match Utf8.decode (Percent.unescape (Utf8.encode text)) with
  | .ok value => .ok value
  | .error fault => .error (.contract (.notUtf8 text fault))

/-- Read one pair, of which the key must not be empty. -/
def decodePair (raw : List Char) : Except Error (String × String) :=
  match splitOnce? '=' raw with
  | some (c :: key, value) => do
    let k ← unescapeText (c :: key)
    let v ← unescapeText value
    return (k, v)
  | _ => .error (.contract (.malformedPair (String.ofList raw)))

/-- The type of a contract text and its fields. -/
def decode (text : String) : Except Error (String × Fields) := do
  match splitAll '&' text.toList with
  | [] => throw (.contract .noTag)
  | first :: others =>
    let (key, tag) ← decodePair first
    if key ≠ typeKey then throw (.contract .noTag)
    -- Every pair must be well formed, also one whose key is the type's and which is then dropped.
    let pairs ← others.mapM decodePair
    return (tag, ⟨pairs.filter fun pair => pair.1 ≠ typeKey⟩)

/-! ## Looking fields up -/

/-- The value of the first field with a key. -/
def get? (fields : Fields) (key : String) : Option String :=
  (fields.pairs.find? fun pair => pair.1 == key).map (·.2)

/-- The value of a field that must be there. -/
def required (fields : Fields) (key : String) : Except Error String :=
  match fields.get? key with
  | some value => .ok value
  | none => .error (.contract (.missingField key))

/-- The value of a field read in some way, or the given fault. -/
def read {α : Type} (fields : Fields) (key : String) (parse : String → Option α)
    (fault : ContractFault) : Except Error α := do
  let value ← fields.required key
  match parse value with
  | some result => return result
  | none => throw (.contract fault)

def key (fields : Fields) (name : String) : Except Error XOnlyKey :=
  fields.read name XOnlyKey.ofHex? (.badKey name)

/-- A key that may be missing. -/
def optionalKey (fields : Fields) (name : String) : Except Error (Option XOnlyKey) :=
  match fields.get? name with
  | some _ => (fields.key name).map some
  | none => .ok none

/-- An unsigned decimal of at most `largest`. -/
def unsigned (fields : Fields) (largest : Nat) (name : String) : Except Error Nat :=
  fields.read name (Decimal.unsigned? largest) (.badDecimal name)

/-- A signed decimal of a number of bits. -/
def signed (fields : Fields) (bits : Nat) (name : String) : Except Error Int :=
  fields.read name (Decimal.signed? bits) (.badDecimal name)

/-- A 32-bit decimal. -/
def word (fields : Fields) (name : String) : Except Error UInt32 :=
  (fields.unsigned 4294967295 name).map UInt32.ofNat

/-- A timelock written as a sequence. -/
def lock (fields : Fields) (name : String) : Except Error RelativeLock := do
  RelativeLock.ofSequence (← fields.word name)

def bytes (fields : Fields) (name : String) : Except Error Bytes := do
  match Hex.decode (← fields.required name) with
  | .ok bytes => return bytes
  | .error fault => throw (.contract (.badHex name fault))

end Fields

end Vtxo
