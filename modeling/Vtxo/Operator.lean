import Vtxo.Contract.Basic

/-!
# What the operator advertises

The operator states its keys, its limits and its delays. The script that lets it leave a checkpoint on its own must
be an exit path with the delay it advertises; anything else means that it is misconfigured or
malicious.

  1. `OperatorInfo.checkpointExit`: the checked exit path.
-/

set_option autoImplicit false

namespace Vtxo

/-- Formulas for fees, which the operator evaluates. -/
structure FeeFormulas where
  offchainInput : String
  offchainOutput : String
  onchainInput : String
  onchainOutput : String
deriving DecidableEq

def FeeFormulas.none : FeeFormulas := ⟨"", "", "", ""⟩

/-- The operator's terms. -/
structure OperatorInfo where
  /-- The key of collaborative paths. -/
  signerKey : XOnlyKey
  forfeitKey : PublicKey
  /-- Where forfeits pay to. -/
  forfeitScript : Bytes
  network : Network
  dust : Amount
  exitDelay : RelativeLock
  boardingDelay : RelativeLock
  /-- The operator's own exit path from checkpoints. -/
  checkpointScript : Bytes
  fees : FeeFormulas
deriving DecidableEq

namespace OperatorInfo

/-- The operator's exit path, with the delay it advertises. -/
def checkpointExit (info : OperatorInfo) : Except Error ExitPath :=
  match Leaf.exitOfScript info.checkpointScript with
  | .error reason => .error (.checkpointScript reason)
  | .ok path =>
    if path.terms.delay.lock ≠ info.exitDelay then
      .error (.operator (.exitDelay info.exitDelay.render path.terms.delay.lock.render))
    else .ok path

/-- Whether the terms agree with each other. -/
def validate (info : OperatorInfo) : Except Error Unit :=
  info.checkpointExit.map fun _ => ()

end OperatorInfo

/-- The contract for receiving off the chain. -/
def Payment.offchain (info : OperatorInfo) (user : XOnlyKey) : Except Error Payment :=
  make info.signerKey user info.exitDelay

/-- The contract for coming in from the chain. -/
def Payment.boarding (info : OperatorInfo) (user : XOnlyKey) : Except Error Payment :=
  make info.signerKey user info.boardingDelay

end Vtxo
