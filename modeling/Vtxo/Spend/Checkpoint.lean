import Vtxo.Spend.Signing

/-!
# Checkpoints

A coin is not spent directly. It is moved to a checkpoint, an output of the same value that can be spent through the
coin's own script or, after a delay, by the operator; the transaction that pays spends the checkpoint through
the coin's script. All the coins of one payment share its lock time, so it must satisfy each of them.

  1. `combinedLockTime`: the lock time that satisfies every coin.
  2. `buildCheckpoint`: the signed checkpoint of a coin.
-/

set_option autoImplicit false

namespace Vtxo.Spend

/-! ## Lock times -/

/-- Lock times below this number are block heights, all others are times. -/
def lockTimeThreshold : UInt32 := 500000000

/-- Whether two lock times are both heights or both times. -/
def sameUnit (a b : UInt32) : Bool :=
  (a < lockTimeThreshold) == (b < lockTimeThreshold)

/-- The lock time that satisfies all lock times so far and one more; zero asks for nothing. -/
def combineLockTime (combined next : UInt32) : Except Error UInt32 :=
  if combined = 0 then .ok next
  else if !sameUnit combined next then .error (.spend .mixedLockTimes)
  else .ok (max combined next)

/-- The lock time that satisfies every coin. -/
def combinedLockTime (coins : List Coin) : Except Error UInt32 :=
  (coins.filterMap fun coin => coin.locks.lockTime).foldlM combineLockTime 0

/-! ## Checkpoints -/

/-- A coin, the transaction that moves it, and the output it is moved to. -/
structure Checkpoint where
  spent : Coin
  psbt : Psbt
  output : Coin

/-- The name of a checkpoint's transaction. -/
def Checkpoint.txid (checkpoint : Checkpoint) : Txid :=
  checkpoint.psbt.txid

/-- The contract of a checkpoint: the coin's script, then the operator's exit. -/
def checkpointContract (coin : Coin) (info : OperatorInfo) : Except Error Contract :=
  info.checkpointExit.map fun exit =>
    .explicit (.pair (some info.signerKey) coin.leaf exit.leaf.script)

/-- The transaction that moves a coin to an output of its own value. -/
def checkpointTransaction (coin : Coin) (output : TxOut) : Transaction :=
  ⟨transactionVersion, [coin.input], [output, anchorOutput], coin.locks.lockTime.getD 0⟩

/-- The signed checkpoint of a coin. -/
def buildCheckpoint (coin : Coin) (info : OperatorInfo) : Attempt Checkpoint := do
  let contract ← Attempt.ofExcept (checkpointContract coin info)
  let script ← Attempt.ofExcept contract.outputScript
  let output : TxOut := ⟨coin.amount, script⟩
  let unsigned ← Attempt.ofExcept (Psbt.ofTransaction (checkpointTransaction coin output))
  let psbt ← (signAll [coin] .default .watched).applyTo unsigned
  -- Signatures are no part of the name, so the output can be spent before the operator has signed.
  let next ← Attempt.ofExcept (coin.throughCheckpoint contract ⟨psbt.txid, 0⟩ output)
  return ⟨coin, psbt, next⟩

end Vtxo.Spend
