import Vtxo.Spend.Signing

/-!
# Forfeits

A forfeit hands a coin to the operator in exchange for a new one in the next batch. With a connector, an output of
that batch, the transaction is bound to the batch and everything is signed. Without one the signature covers
the coin's input and all outputs only, so that the operator can add the connector later.

  1. `forfeitValue`: what the operator gets, never more than there is.
  2. `buildForfeit`: the signed forfeit of a coin.
-/

set_option autoImplicit false

namespace Vtxo.Spend

/-- An output of a batch that binds a forfeit to it. -/
structure Connector where
  outpoint : OutPoint
  output : TxOut

/-- The input that spends a connector. -/
def Connector.input (connector : Connector) : TxIn :=
  ⟨connector.outpoint, [], replaceableSequence⟩

/-- The value of a coin and of what is added to it. -/
def forfeitValue (amount topUp : Amount) : Except Error Amount :=
  match (amount.add? topUp).filter (· ≤ Amount.maxMoney) with
  | some value => .ok value
  | none => .error (.spend (.forfeitOverflow amount topUp))

/-- What is added to the coin's value: that of the connector, or the dust limit in its place. -/
def topUp (connector : Option Connector) (info : OperatorInfo) : Amount :=
  match connector with
  | some connector => connector.output.value
  | none => info.dust

/-- What the forfeit's signature covers. -/
def forfeitCover : Option Connector → SighashType
  | some _ => .default
  | none => .explicit .all true

/-- The transaction that gives a coin to the operator. -/
def forfeitTransaction (coin : Coin) (connector : Option Connector) (info : OperatorInfo)
    (value : Amount) : Transaction :=
  ⟨transactionVersion, coin.input :: (connector.map Connector.input).toList,
    [⟨value, info.forfeitScript⟩, anchorOutput], coin.locks.lockTime.getD 0⟩

/-- Record what the second input of a forfeit spends. -/
def recordConnector (connector : Option Connector) (psbt : Psbt) : Psbt :=
  match connector with
  | some connector => psbt.modifyInput 1 fun maps => { maps with utxo := some connector.output }
  | none => psbt

/-- Build and sign the forfeit of a coin. -/
def buildForfeit (coin : Coin) (connector : Option Connector) (info : OperatorInfo) : Attempt Psbt := do
  if !coin.canForfeit then throw (.spend (.swept coin.outpoint))
  let value ← Attempt.ofExcept (forfeitValue coin.amount (topUp connector info))
  let unsigned ← Attempt.ofExcept (Psbt.ofTransaction (forfeitTransaction coin connector info value))
  checkCancelled .watched
  let prevouts := coin.output :: (connector.map Connector.output).toList
  (signInputs prevouts [(0, coin)] (forfeitCover connector) .watched).applyTo
    (recordConnector connector unsigned)

theorem forfeitValue_eq_ok {amount topUp value : Amount} :
    forfeitValue amount topUp = .ok value ↔
      amount.toNat + topUp.toNat = value.toNat ∧ value ≤ Amount.maxMoney := by
  unfold forfeitValue
  constructor
  · intro h
    split at h
    · next v hv =>
      cases h
      obtain ⟨hsum, hle⟩ := Option.filter_eq_some_iff.mp hv
      exact ⟨Amount.add?_eq_some.mp hsum, of_decide_eq_true hle⟩
    · cases h
  · rintro ⟨hsum, hle⟩
    rw [Option.filter_eq_some_iff.mpr ⟨Amount.add?_eq_some.mpr hsum, decide_eq_true hle⟩]

end Vtxo.Spend
