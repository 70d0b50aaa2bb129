import Vtxo.Contract.Codec

/-!
# Coins

A coin is an output of a contract together with the script it will be spent through. The timelocks of the spend
are read off that script when the coin is made, and a relative one must be one that a sequence can
enforce; every value of the type has passed these checks.

  1. `Coin.make_eq_ok`: the coins that are made are those whose output and script belong to the contract.
-/

set_option autoImplicit false

namespace Vtxo

/-- When the batch of a coin expires. -/
inductive CoinExpiry where
  | timestamp (seconds : Int)
  | height (height : UInt32)
deriving DecidableEq

/-- The tip of the chain. -/
structure ChainTime where
  timestamp : Int
  height : UInt32
deriving DecidableEq

/-- The timelocks that a script asks of the transaction that spends through it. -/
structure SpendLocks where
  sequence : Option UInt32
  lockTime : Option UInt32
deriving DecidableEq

namespace SpendLocks

/-- The timelocks of operations; a relative one must be one that a sequence can enforce. -/
def ofOps (ops : List ScriptOp) : Except Error SpendLocks := do
  -- A check whose number no sequence can hold asks for nothing here.
  let sequence ← match ScriptOp.relativeLock? ops with
    | none => pure none
    | some lock => lock.toSequence.map some
  return ⟨sequence, ScriptOp.absoluteLock? ops⟩

/-- The timelocks of a spend of `output` through `leaf`, both of which must belong to the contract. -/
def ofSpend (contract : Contract) (outpoint : OutPoint) (output : TxOut) (leaf : Bytes) :
    Except Error SpendLocks := do
  if output.script ≠ (← contract.outputScript) then
    throw (.spend (.wrongOutput outpoint contract.kind.tag))
  if !(← contract.scripts).contains leaf then throw (.spend (.foreignLeaf contract.kind.tag))
  ofOps (← ScriptOp.read leaf)

end SpendLocks

/-- An output of a contract and the script it is spent through. -/
structure Coin where
  /-- Whose key signs for it. -/
  wallet : String
  contract : Contract
  outpoint : OutPoint
  output : TxOut
  leaf : Bytes
  locks : SpendLocks
  birth : Option Int
  expiry : Option CoinExpiry
  /-- What the witness must hold besides signatures. -/
  extraWitness : Option (List Bytes)
  /-- Whether the coin went into the operator's recovery path. -/
  swept : Bool
  checked : SpendLocks.ofSpend contract outpoint output leaf = .ok locks

namespace Coin

/-- The coin of an output, if the output and the script belong to the contract. -/
def make (wallet : String) (contract : Contract) (outpoint : OutPoint) (output : TxOut) (leaf : Bytes) :
    Except Error Coin :=
  match h : SpendLocks.ofSpend contract outpoint output leaf with
  | .error e => .error e
  | .ok locks => .ok ⟨wallet, contract, outpoint, output, leaf, locks, none, none, none, false, h⟩

theorem make_eq_ok {wallet : String} {contract : Contract} {outpoint : OutPoint} {output : TxOut}
    {leaf : Bytes} {locks : SpendLocks}
    (h : SpendLocks.ofSpend contract outpoint output leaf = .ok locks) :
    make wallet contract outpoint output leaf =
      .ok ⟨wallet, contract, outpoint, output, leaf, locks, none, none, none, false, h⟩ := by
  unfold make
  split
  · next e he =>
    rw [h] at he
    cases he
  · next locks' he =>
    have : locks' = locks := by
      rw [h] at he
      exact (Except.ok.inj he).symm
    subst this
    rfl

/-- The coin with what its witness must hold besides signatures. -/
def withExtraWitness (coin : Coin) (witness : List Bytes) : Coin :=
  { coin with extraWitness := some witness }

def amount (coin : Coin) : Amount :=
  coin.output.value

/-- The sequence of the input that spends the coin. -/
def inputSequence (coin : Coin) : UInt32 :=
  coin.locks.sequence.getD replaceableSequence

/-- Whether the coin's batch has expired. -/
def isExpired (coin : Coin) (now : ChainTime) : Bool :=
  match coin.expiry with
  | some (.timestamp seconds) => seconds ≤ now.timestamp
  | some (.height height) => height ≤ now.height
  | none => false

/-- A swept coin cannot be forfeited. -/
def canForfeit (coin : Coin) : Bool :=
  !coin.swept

/-- The input that spends the coin. -/
def input (coin : Coin) : TxIn :=
  ⟨coin.outpoint, [], coin.inputSequence⟩

/-- The same spend of another output: that of a checkpoint. -/
def throughCheckpoint (coin : Coin) (checkpoint : Contract) (outpoint : OutPoint) (output : TxOut) :
    Except Error Coin :=
  (make coin.wallet checkpoint outpoint output coin.leaf).map fun next =>
    { next with
      birth := coin.birth
      expiry := coin.expiry
      extraWitness := coin.extraWitness
      swept := coin.swept }

end Coin

end Vtxo
