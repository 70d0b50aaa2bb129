import Vtxo.Psbt.Records
import Vtxo.Script.Read
import Vtxo.Spend.Request
import Vtxo.Transaction.Sighash

/-!
# Signing the inputs that spend coins

Each input is prepared with what its coin says: the output it spends, the script it is spent through, and what the
witness needs besides signatures. All digests are computed before the first signature is asked for, and a
signature is recorded only once it has been verified. A change made before a failure stays.

  1. `signInputs`, `signAll`: signatures for some inputs, or for every input.
  2. `InputMaps.witness`: the witness of an input that has all its signatures.
  3. `tx_prepareInput`: preparing an input leaves the transaction as it is.
-/

set_option autoImplicit false

namespace Vtxo

/-! ## Preparing an input -/

/-- What an input that spends the coin holds before it is signed. -/
def Coin.prepare (coin : Coin) (commitment : Commitment) (block : ControlBlock) (maps : InputMaps) :
    InputMaps :=
  let known := { maps with utxo := some coin.output }
  let spendable := (known.addLeafScript block coin.leaf).setScripts commitment.scripts
  match coin.extraWitness with
  | none => spendable
  | some witness => spendable.setCondition witness

/-- Record on an input what the coin it spends says. -/
def Psbt.prepareInput (psbt : Psbt) (index : Nat) (coin : Coin) : Except Error Psbt := do
  let commitment ← coin.contract.commitment
  let block ← commitment.controlBlock coin.leaf
  if psbt.inputs.length ≤ index then throw (.spend (.noInput index))
  return psbt.modifyInput index (coin.prepare commitment block)

theorem tx_prepareInput {psbt prepared : Psbt} {index : Nat} {coin : Coin}
    (h : psbt.prepareInput index coin = .ok prepared) : prepared.tx = psbt.tx := by
  unfold Psbt.prepareInput at h
  cases hc : coin.contract.commitment with
  | error e => rw [hc] at h; cases h
  | ok commitment =>
    rw [hc] at h
    cases hb : commitment.controlBlock coin.leaf with
    | error e =>
      simp only [bind, Except.bind, hb] at h
      cases h
    | ok block =>
      simp only [bind, Except.bind, hb] at h
      split at h
      · cases h
      · cases h
        rfl

/-! ## Signing -/

namespace Spend

/-- Changes to a transaction while signatures for it are asked for. -/
abbrev Edit := ExceptT Error (StateT Psbt Conversation)

namespace Edit

/-- Something that asks, but changes nothing. -/
def attempt {α : Type} (a : Attempt α) : Edit α :=
  ExceptT.mk (StateT.lift a.run)

/-- Something that neither asks nor changes anything. -/
def ofExcept {α : Type} (value : Except Error α) : Edit α :=
  attempt (.ofExcept value)

/-- The edited transaction, or why the edit failed. -/
def applyTo {α : Type} (edit : Edit α) (psbt : Psbt) : Attempt Psbt :=
  ExceptT.mk do
    let (outcome, edited) ← edit.run.run psbt
    return outcome.map fun _ => edited

end Edit

/-- Prepare each of some inputs. -/
def prepareInputs (spends : List (Nat × Coin)) : Edit Unit :=
  spends.forM fun (index, coin) => do
    set (← Edit.ofExcept ((← get).prepareInput index coin))

/-- The digest that each of some inputs signs. -/
def digests (tx : Transaction) (prevouts : List TxOut) (kind : SighashType)
    (spends : List (Nat × Coin)) : Except Error (List (Sized 32)) :=
  spends.mapM fun (index, coin) => tx.sighash prevouts index (leafHash coin.leaf) kind

/-- Ask for the signature of one input and record it if it is one. -/
def signInput (kind : SighashType) (cancellation : Cancellation) (index : Nat) (coin : Coin)
    (digest : Sized 32) : Edit Unit := do
  let (key, signature) ← Edit.attempt do
    checkCancelled cancellation
    let (key, signature) ← askSignature coin.wallet digest
    -- Whatever key the wallet answers with, its signature must be one of this digest under that key.
    if !Schnorr.verify key digest signature then throw (.signing (.badSignature index))
    return (key, signature)
  modify fun psbt => psbt.modifyInput index fun maps =>
    maps.addSignature key (leafHash coin.leaf) ⟨signature, kind⟩

/-- Sign some inputs, given the outputs that all inputs spend. -/
def signInputs (prevouts : List TxOut) (spends : List (Nat × Coin)) (kind : SighashType)
    (cancellation : Cancellation) : Edit Unit := do
  prepareInputs spends
  -- Preparing records spent outputs and scripts only, so the transaction that is signed is the one that was given.
  let messages ← Edit.ofExcept (digests (← get).tx prevouts kind spends)
  (spends.zip messages).forM fun ((index, coin), digest) =>
    signInput kind cancellation index coin digest

/-- The coins with the positions of the inputs that spend them. -/
def enumerate (coins : List Coin) : List (Nat × Coin) :=
  coins.zipIdx.map fun (coin, index) => (index, coin)

/-- Sign every input, of which each spends the coin at its position. -/
def signAll (coins : List Coin) (kind : SighashType) (cancellation : Cancellation) : Edit Unit := do
  let inputs := (← get).inputs.length
  if coins.length ≠ inputs then throw (.spend (.coinCount coins.length inputs))
  signInputs (coins.map Coin.output) (enumerate coins) kind cancellation

end Spend

/-! ## Witnesses -/

namespace InputMaps

/-- The signatures that a script checks, the first one last, so that it lies on top of the stack. -/
def signaturesFor (maps : InputMaps) (index : Nat) (script : Bytes) : Except Error (List Bytes) := do
  let keys ← ScriptOp.signingKeys script
  keys.reverse.mapM fun key =>
    match maps.signatures.find? ⟨key, leafHash script⟩ with
    | some signature => .ok signature.bytes
    | none => .error (.signing (.missingSignature index key))

/-- The witness of the input at a position: signatures, what else the script needs, the script and its control
block. -/
def witness (maps : InputMaps) (index : Nat) : Except Error (List Bytes) :=
  match maps.leafScripts.entries with
  | [] => .error (.spend (.noLeafScript index))
  | (block, script, _) :: _ => do
    let signatures ← maps.signaturesFor index script
    let condition ← maps.condition
    return signatures ++ condition.getD [] ++ [script, block.bytes]

end InputMaps

/-- The witness of an input that has all its signatures. -/
def Psbt.finalizeWitness (psbt : Psbt) (index : Nat) : Except Error (List Bytes) :=
  match psbt.inputs[index]? with
  | none => .error (.spend (.noInput index))
  | some maps => maps.witness index

end Vtxo
