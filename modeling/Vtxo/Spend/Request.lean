import Vtxo.Coin.Basic
import Vtxo.Curve.Schnorr
import Vtxo.Dialogue
import Vtxo.Operator
import Vtxo.Psbt.Basic

/-!
# What a spend asks of others

A spend needs signatures from a wallet, the operator's terms and its co-operation, the tip of the chain, locks
against concurrent spends, and the store of intents. All of these are questions of one dialogue, together with the
question whether the spend has been cancelled.

  1. `Attempt`: a dialogue that may fail.
  2. `checkCancelled`: fails if the spend was cancelled, unless it is committed.
-/

set_option autoImplicit false

namespace Vtxo.Spend

/-- A question to one of the collaborators. -/
inductive Request where
  /-- The operator's terms. -/
  | operatorInfo
  /-- The tip of the chain. -/
  | chainTime
  /-- Locks on all of some outpoints, for a number of seconds. -/
  | lock (outpoints : List OutPoint) (seconds : Nat)
  /-- An end to those locks. -/
  | release (outpoints : List OutPoint)
  /-- A signature of a message with a wallet's key. -/
  | sign (wallet : String) (message : Sized 32)
  /-- The operator's co-operation on a transaction and its checkpoints. -/
  | submit (arkTx : Psbt) (checkpoints : List Psbt)
  /-- The end of a submission. -/
  | finalize (arkTxid : Txid) (checkpoints : List Psbt)
  /-- The withdrawal of intents that spend some outpoints. -/
  | cancelIntents (outpoints : List OutPoint)
  /-- Whether the spend was cancelled. -/
  | cancelled

/-- What the operator returns for a submission. -/
structure Submitted where
  arkTxid : Txid
  /-- The checkpoints with its signatures. -/
  checkpoints : List Psbt

/-- The answer to a question. -/
@[reducible] def Reply : Request → Type
  | .operatorInfo => Except Error OperatorInfo
  | .chainTime => Except Error ChainTime
  | .lock _ _ => Except Error Unit
  | .release _ => Unit
  | .sign _ _ => Except Error (XOnlyKey × Signature)
  | .submit _ _ => Except Error Submitted
  | .finalize _ _ => Except Error Unit
  | .cancelIntents _ => Except Error Nat
  | .cancelled => Bool

/-- A dialogue with the collaborators. -/
abbrev Conversation := Dialogue Request Reply

/-- A dialogue that may fail. -/
abbrev Attempt := ExceptT Error Conversation

/-- The dialogue of one question. -/
def Request.ask (request : Request) : Conversation (Reply request) :=
  Dialogue.question request

/-- The value, or the failure, of something that asks nothing. -/
def Attempt.ofExcept {α : Type} (value : Except Error α) : Attempt α :=
  ExceptT.mk (.done value)

/-- The terms of the operator. -/
def askOperatorInfo : Attempt OperatorInfo :=
  ExceptT.mk (Request.ask .operatorInfo)

/-- The tip of the chain. -/
def askChainTime : Attempt ChainTime :=
  ExceptT.mk (Request.ask .chainTime)

/-- Locks on all outpoints. -/
def askLock (outpoints : List OutPoint) (seconds : Nat) : Attempt Unit :=
  ExceptT.mk (Request.ask (.lock outpoints seconds))

/-- The signing key and the signature of a message. -/
def askSignature (wallet : String) (message : Sized 32) : Attempt (XOnlyKey × Signature) :=
  ExceptT.mk (Request.ask (.sign wallet message))

/-- The operator's answer to a submission. -/
def askSubmit (arkTx : Psbt) (checkpoints : List Psbt) : Attempt Submitted :=
  ExceptT.mk (Request.ask (.submit arkTx checkpoints))

/-- The operator's agreement that a submission is complete. -/
def askFinalize (arkTxid : Txid) (checkpoints : List Psbt) : Attempt Unit :=
  ExceptT.mk (Request.ask (.finalize arkTxid checkpoints))

/-- Whether a cancellation still has an effect. -/
inductive Cancellation where
  | watched
  /-- The point of no return has been passed. -/
  | committed
deriving DecidableEq

/-- Fail if the spend was cancelled and that still has an effect. -/
def checkCancelled : Cancellation → Attempt Unit
  | .committed => pure ()
  | .watched => do if ← Request.ask .cancelled then throw .cancelled

end Vtxo.Spend
