import Vtxo.Spend.Checkpoint
import Vtxo.Spend.Dust

/-!
# Payments off the chain

A payment moves each coin to a checkpoint and spends the checkpoints in one transaction:

```text
coin ... checkpoint transaction ... [checkpoint output, anchor]
                                      |
                                      payment ... [requested outputs, anchor]
```

Inputs and checkpoints are matched by what the inputs spend, never by the order of construction.

  1. `buildPayment`: all transactions of a payment, signed.
  2. `OffchainPayment.coinOf?`: the coin that went through a checkpoint.
-/

set_option autoImplicit false

namespace Vtxo.Spend

/-- A signed payment with the checkpoints of its inputs, in input order. -/
structure OffchainPayment where
  arkTx : Psbt
  checkpoints : List Checkpoint

namespace OffchainPayment

def arkTxid (payment : OffchainPayment) : Txid :=
  payment.arkTx.txid

/-- The transactions of the checkpoints. -/
def checkpointPsbts (payment : OffchainPayment) : List Psbt :=
  payment.checkpoints.map Checkpoint.psbt

/-- The outputs of the checkpoints, as coins. -/
def checkpointCoins (payment : OffchainPayment) : List Coin :=
  payment.checkpoints.map Checkpoint.output

/-- The coins that went through the checkpoints. -/
def spentCoins (payment : OffchainPayment) : List Coin :=
  payment.checkpoints.map Checkpoint.spent

/-- The coin that went through the checkpoint of a name: the one at the same place. -/
def coinOf? (payment : OffchainPayment) (txid : Txid) : Option Coin := do
  let place ← payment.checkpointPsbts.findIdx? fun psbt => psbt.txid == txid
  payment.spentCoins[place]?

/-- It is the coin of the first checkpoint of the name. -/
theorem coinOf?_eq (payment : OffchainPayment) (txid : Txid) :
    payment.coinOf? txid =
      (payment.checkpoints.find? fun checkpoint => checkpoint.txid == txid).map Checkpoint.spent := by
  obtain ⟨arkTx, checkpoints⟩ := payment
  rw [coinOf?, checkpointPsbts, spentCoins]
  induction checkpoints with
  | nil => rfl
  | cons first rest ih =>
    rw [List.map_cons, List.map_cons, List.findIdx?_cons, List.find?_cons]
    by_cases hname : (first.psbt.txid == txid) = true
    · have hfirst : (first.txid == txid) = true := hname
      rw [if_pos hname, hfirst]
      rfl
    · have hfirst : (first.txid == txid) = false := Bool.eq_false_iff.mpr hname
      rw [if_neg hname, hfirst, ← ih]
      cases (rest.map Checkpoint.psbt).findIdx? fun psbt => psbt.txid == txid <;> rfl

end OffchainPayment

/-- The checkpoint of one coin, unless the payment was cancelled. -/
def nextCheckpoint (info : OperatorInfo) (coin : Coin) : Attempt Checkpoint := do
  checkCancelled .watched
  buildCheckpoint coin info

/-- The transaction that spends checkpoints into the requested outputs. -/
def paymentTransaction (checkpoints : List Checkpoint) (outputs : List TxOut) (info : OperatorInfo)
    (maxSubDust : Nat) : Except Error Transaction := do
  let allowed ← applyDustPolicy outputs info.dust maxSubDust
  let coins := checkpoints.map Checkpoint.output
  let lockTime ← combinedLockTime coins
  return ⟨transactionVersion, coins.map Coin.input, allowed ++ [anchorOutput], lockTime⟩

/-- The checkpoint that an input spends. -/
def checkpointOf (checkpoints : List Checkpoint) (input : TxIn) : Except Error Checkpoint :=
  match checkpoints.find? fun checkpoint => checkpoint.output.outpoint == input.outpoint with
  | some checkpoint => .ok checkpoint
  | none => .error (.spend .unmatchedInput)

/-- Build and sign the checkpoints of some coins and the transaction that spends them. -/
def buildPayment (coins : List Coin) (outputs : List TxOut) (info : OperatorInfo) (maxSubDust : Nat) :
    Attempt OffchainPayment := do
  if coins.isEmpty then throw (.spend .noCoins)
  if outputs.isEmpty then throw (.spend .noOutputs)
  Attempt.ofExcept info.validate
  let built ← coins.mapM (nextCheckpoint info)
  let tx ← Attempt.ofExcept (paymentTransaction built outputs info maxSubDust)
  let unsigned ← Attempt.ofExcept (Psbt.ofTransaction tx)
  -- The inputs say which checkpoint comes where; `built` is only searched.
  let checkpoints ← Attempt.ofExcept (tx.inputs.mapM (checkpointOf built))
  checkCancelled .watched
  let arkTx ← (signAll (checkpoints.map Checkpoint.output) .default .watched).applyTo unsigned
  return ⟨arkTx, checkpoints⟩

end Vtxo.Spend
