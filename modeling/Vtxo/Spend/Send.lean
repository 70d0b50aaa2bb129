import Vtxo.Address
import Vtxo.Coin.Selection
import Vtxo.Config
import Vtxo.Spend.Offchain

/-!
# Sending off the chain

A send locks its coins, builds the payment, has the operator accept it, signs the checkpoints once more on top of the
operator's signatures, and tells the operator that all is complete. The locks are released whatever happens in
between. Submission is the point of no return: a cancellation has an effect before it only.

  1. `send`: spend given coins into given outputs.
  2. `pay`: choose the coins for an amount, and return the change.
  3. `firstRepeated?_eq_none`: what it takes for the same outpoint not to be spent twice.
-/

set_option autoImplicit false

namespace Vtxo.Spend

/-- What a completed send leaves behind. -/
structure Receipt where
  arkTxid : Txid
  checkpointTxids : List Txid
deriving DecidableEq

/-! ## After submission -/

/-- Sign a checkpoint that the operator returned, which must be one of the payment's. -/
def cosignCheckpoint (payment : OffchainPayment) (returned : Psbt) : Attempt Psbt := do
  match payment.coinOf? returned.txid with
  | none => throw (.operator (.unknownCheckpoint returned.txid))
  | some coin => (signAll [coin] .default .committed).applyTo returned

/-- Sign the checkpoints that the operator returned, in its order. -/
def cosignCheckpoints (payment : OffchainPayment) (returned : List Psbt) : Attempt (List Psbt) := do
  if returned.length ≠ payment.checkpoints.length then
    throw (.operator (.checkpointCount returned.length payment.checkpoints.length))
  returned.mapM (cosignCheckpoint payment)

/-- Complete a payment that was built. -/
def submitPayment (payment : OffchainPayment) : Attempt Receipt := do
  -- The last look at the cancellation: what follows is carried through.
  checkCancelled .watched
  let submitted ← askSubmit payment.arkTx payment.checkpointPsbts
  if submitted.arkTxid ≠ payment.arkTxid then
    throw (.operator (.wrongArkTx submitted.arkTxid payment.arkTxid))
  let finalized ← cosignCheckpoints payment submitted.checkpoints
  askFinalize submitted.arkTxid finalized
  return ⟨submitted.arkTxid, finalized.map Psbt.txid⟩

/-! ## The whole send -/

/-- The first item that occurred before. -/
def firstRepeated? {α : Type} [DecidableEq α] : List α → List α → Option α
  | _, [] => none
  | seen, item :: rest => if item ∈ seen then some item else firstRepeated? (item :: seen) rest

/-- Build and complete a payment of locked coins. -/
def sendLocked (settings : Settings) (info : OperatorInfo) (coins : List Coin) (outputs : List TxOut) :
    Attempt Receipt := do
  submitPayment (← buildPayment coins outputs info settings.maxSubDust)

/-- Release the locks of a send that has an outcome, and after a success withdraw the intents that spend the same
coins; whether that succeeds does not matter. -/
def conclude (outpoints : List OutPoint) (outcome : Except Error Receipt) :
    Conversation (Except Error Receipt) := do
  -- The locks go first: whatever the store of intents does, the coins are free again.
  Request.ask (.release outpoints)
  if outcome.toBool then
    let _ ← Request.ask (.cancelIntents outpoints)
  return outcome

/-- Fail if a coin has expired or two coins are the same outpoint. -/
def checkCoins (coins : List Coin) (now : ChainTime) : Except Error Unit :=
  match coins.find? fun coin => coin.isExpired now with
  | some coin => .error (.spend (.expired coin.outpoint))
  | none =>
    match firstRepeated? [] (coins.map Coin.outpoint) with
    | some outpoint => .error (.alreadySpent outpoint)
    | none => .ok ()

/-- Spend given coins into given outputs under the operator's terms. -/
def sendUnder (settings : Settings) (info : OperatorInfo) (coins : List Coin) (outputs : List TxOut) :
    Attempt Receipt := do
  Attempt.ofExcept (checkCoins coins (← askChainTime))
  checkCancelled .watched
  let outpoints := coins.map Coin.outpoint
  askLock outpoints settings.lockSeconds
  -- From here on the locks are held, so a failure does not end the dialogue but is an outcome to conclude with.
  ExceptT.mk do conclude outpoints (← (sendLocked settings info coins outputs).run)

/-- Spend given coins into given outputs. -/
def send (settings : Settings) (coins : List Coin) (outputs : List TxOut) : Attempt Receipt := do
  let info ← askOperatorInfo
  Attempt.ofExcept info.validate
  sendUnder settings info coins outputs

/-! ## Paying an amount -/

/-- The output that pays to an address. -/
def outputTo (address : Address) (value : Amount) : TxOut :=
  ⟨value, address.outputScript⟩

/-- The output that returns what is left, if anything is. -/
def changeOutput (change : Address) (total amount : Amount) : List TxOut :=
  match total.sub? amount with
  | none => []
  | some rest => if rest = .zero then [] else [outputTo change rest]

/-- The coins and the outputs of a payment of an amount. -/
def choosePayment (settings : Settings) (info : OperatorInfo) (available : List Coin)
    (recipient : Address) (amount : Amount) (change : Address) :
    Except Error (List Coin × List TxOut) := do
  let subDust := if amount < info.dust then 1 else 0
  let positions ← Selection.select (available.map Coin.amount) amount info.dust subDust
    settings.maxSubDust
  let coins := positions.filterMap fun i => available[i]?
  match Amount.sum? (coins.map Coin.amount) with
  | none => throw (.spend .amountOverflow)
  | some total => return (coins, outputTo recipient amount :: changeOutput change total amount)

/-- Pay an amount to a recipient from available coins. -/
def pay (settings : Settings) (available : List Coin) (recipient : Address) (amount : Amount)
    (change : Address) : Attempt Receipt := do
  let info ← askOperatorInfo
  Attempt.ofExcept info.validate
  let (coins, outputs) ← Attempt.ofExcept
    (choosePayment settings info available recipient amount change)
  sendUnder settings info coins outputs

theorem firstRepeated?_eq_none {α : Type} [DecidableEq α] {seen items : List α} :
    firstRepeated? seen items = none ↔ items.Nodup ∧ ∀ item ∈ items, item ∉ seen := by
  induction items generalizing seen with
  | nil => simp [firstRepeated?]
  | cons item rest ih =>
    by_cases h : item ∈ seen
    · simp [firstRepeated?, h]
    · simp only [firstRepeated?, h, if_false, ih, List.nodup_cons, List.mem_cons, not_or, forall_eq_or_imp,
        not_false_eq_true, true_and]
      constructor
      · rintro ⟨hnodup, hall⟩
        exact ⟨⟨fun hmem => (hall item hmem).1 rfl, hnodup⟩, fun other hmem => (hall other hmem).2⟩
      · rintro ⟨⟨hnot, hnodup⟩, hall⟩
        exact ⟨hnodup, fun other hmem => ⟨fun heq => hnot (heq ▸ hmem), hall other hmem⟩⟩

end Vtxo.Spend
