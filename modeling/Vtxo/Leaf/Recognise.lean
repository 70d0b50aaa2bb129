import Vtxo.Leaf.Basic
import Vtxo.Script.Read

/-!
# Recognising leaves in scripts

The operations of a script are matched against the shapes of an exit path, a collaborative path and a multisig,
in this order; what matches none of them is kept as it is. A script that has the shape of an exit path with
a delay that no sequence can enforce is an error, not another leaf.

  1. `Leaf.ofScript`: the leaf of a script.
  2. `relativeLock?`, `absoluteLock?`: the timelocks that operations enforce.
-/

set_option autoImplicit false

namespace Vtxo

namespace ScriptOp

/-- What precedes and what follows the first operation with a code. -/
def splitAtCode (code : UInt8) : List ScriptOp → Option (List ScriptOp × List ScriptOp)
  | [] => none
  | o :: rest =>
    if o.isCode code then some ([], rest)
    else (splitAtCode code rest).map fun (before, after) => (o :: before, after)

/-- The keys of operations that come in pairs of a key and a failing signature check. -/
def verifiedKeys? : List ScriptOp → Option (List XOnlyKey)
  | [] => some []
  | [_] => none
  | k :: check :: rest => do
    if !check.isCode Opcode.checkSigVerify then none
    let key ← k.key?
    let keys ← verifiedKeys? rest
    return key :: keys

/-- The keys of a multisig, which has at least one. -/
def multisig? (ops : List ScriptOp) : Option (List XOnlyKey) :=
  if ops.isEmpty then none else verifiedKeys? ops

/-- The keys of pairs of which the last leaves its result. -/
def owners? : List ScriptOp → Option (List XOnlyKey)
  | [k, check] => if check.isCode Opcode.checkSig then k.key?.map ([·]) else none
  | k :: check :: rest => do
    if !check.isCode Opcode.checkSigVerify then none
    let key ← k.key?
    let keys ← owners? rest
    return key :: keys
  | _ => none

/-- The relative timelock that the first sequence check enforces: the number pushed before it. -/
def relativeLock? (ops : List ScriptOp) : Option RelativeLock := do
  let (before, _) ← splitAtCode Opcode.checkSequence ops
  let value ← (← before.getLast?).int?
  let sequence ← word? value
  (RelativeLock.ofSequence sequence).toOption

/-- The absolute timelock that the first lock time check enforces: the number pushed before it. -/
def absoluteLock? (ops : List ScriptOp) : Option UInt32 := do
  let (before, _) ← splitAtCode Opcode.checkLockTime ops
  let value ← (← before.getLast?).int?
  word? value

end ScriptOp

/-- An exit path: its terms and its condition. -/
structure ExitPath where
  terms : ExitTerms
  condition : Option Leaf

/-- A collaborative path: the operator's key and its condition. -/
structure CollaborativePath where
  server : XOnlyKey
  condition : Option Leaf

def ExitPath.leaf (path : ExitPath) : Leaf := .unilateral path.terms path.condition

def CollaborativePath.leaf (path : CollaborativePath) : Leaf :=
  .collaborative path.server path.condition

namespace Leaf

open ScriptOp

/-- The leaf of a condition's operations, if there are any. -/
def conditionOfOps (ops : List ScriptOp) : Option Leaf :=
  if ops.isEmpty then none
  else match multisig? ops with
    | some owners => some (multisig owners)
    | none => some (generic ops)

/-- The condition in front of a delay: none, or operations that end in a verification. -/
def exitCondition? (ops : List ScriptOp) : Option (Option Leaf) :=
  match ops.getLast? with
  | none => some none
  | some last =>
    if last.isCode Opcode.verify && !ops.dropLast.isEmpty then some (conditionOfOps ops.dropLast)
    else none

/-- The parts of an exit path, before its delay is checked. -/
def exitParts? (ops : List ScriptOp) : Option (Int × List XOnlyKey × Option Leaf) := do
  let (before, after) ← splitAtCode Opcode.checkSequence ops
  -- A script with the check of an exit path but not its shape is no exit path, which is no error.
  let push ← before.getLast?
  let next ← after.head?
  if !next.isCode Opcode.drop then none
  let value ← push.int?
  let owners ← owners? after.tail
  let condition ← exitCondition? before.dropLast
  return (value, owners, condition)

/-- The exit path that operations spell, or an error if its delay cannot be enforced. -/
def exitOfOps (ops : List ScriptOp) : Except Error (Option ExitPath) :=
  match exitParts? ops with
  | none => .ok none
  | some (value, owners, condition) => do
    let sequence ← match word? value with
      | some sequence => pure sequence
      | none => throw (.script (.negativeDelay value))
    let lock ← RelativeLock.ofSequence sequence
    let terms ← ExitTerms.make lock owners
    return some ⟨terms, condition⟩

/-- The collaborative path that operations spell. -/
def collaborativeOfOps (ops : List ScriptOp) : Option CollaborativePath :=
  if ops.any (·.isCode Opcode.checkSequence) then none
  else match ops.reverse with
    | check :: server :: condition =>
      if check.isCode Opcode.checkSig then
        server.key?.map fun key => ⟨key, conditionOfOps condition.reverse⟩
      else none
    | _ => none

/-- The leaf that operations spell. -/
def ofOps (ops : List ScriptOp) : Except Error Leaf := do
  if let some path ← exitOfOps ops then return path.leaf
  if let some path := collaborativeOfOps ops then return path.leaf
  if let some owners := multisig? ops then return multisig owners
  return generic ops

/-- The leaf of a script. -/
def ofScript (script : Bytes) : Except Error Leaf := do
  ofOps (← read script)

/-- A script as it is, without recognising a shape. -/
def genericOfScript (script : Bytes) : Except Error Leaf :=
  (read script).map generic

/-- The exit path of a script. -/
def exitOfScript (script : Bytes) : Except Error ExitPath := do
  match ← exitOfOps (← read script) with
  | some path => return path
  | none => throw (.script .notExitPath)

/-- The collaborative path of a script. -/
def collaborativeOfScript (script : Bytes) : Except Error CollaborativePath := do
  match collaborativeOfOps (← read script) with
  | some path => return path
  | none => throw (.script .notCollaborativePath)

/-- The relative timelock a leaf enforces. -/
def relativeLock? : Leaf → Option RelativeLock
  | unilateral terms _ => some terms.delay.lock
  | leaf => ScriptOp.relativeLock? leaf.ops

/-- The absolute timelock a leaf enforces. -/
def absoluteLock? (leaf : Leaf) : Option UInt32 :=
  ScriptOp.absoluteLock? leaf.ops

end Leaf

end Vtxo
