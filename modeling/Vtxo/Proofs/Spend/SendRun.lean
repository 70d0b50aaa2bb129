import Vtxo.Proofs.Coin.Timelocks
import Vtxo.Proofs.Spend.SigningRuns
import Vtxo.Proofs.Success
import Vtxo.Spend.Send

/-!
# The course of a send

A send that succeeds goes through the same steps in the same order, whatever the collaborators answer:

```text
operator's terms, tip of the chain, look at the cancellation, lock,
  signatures of the payment,
  look at the cancellation, submit, signatures of what the operator returned, finalize,
release, withdraw intents
```

  1. `ends_submitPayment_ok`: the part from the submission on.
  2. `ends_send_ok`: the whole course.
  3. `asks_buildPayment`, `asks_cosigning`: what is asked while the payment is built and while it is signed again.
  4. `exists_payment_of`, `exists_payment`: payments of two coins that can be built.
-/

set_option autoImplicit false

namespace Vtxo.Spend

open Attempt Edit

/-! ## Building the payment -/

theorem asks_buildCheckpoint (coin : Coin) (info : OperatorInfo) :
    (buildCheckpoint coin info).Asks (Cancellation.permits .watched) :=
  asks_bind (asks_ofExcept _) fun _ => asks_bind (asks_ofExcept _) fun _ =>
    asks_bind (asks_ofExcept _) fun _ => asks_bind (asks_signAll _ _ _ _) fun _ =>
      asks_bind (asks_ofExcept _) fun _ => asks_pure _

theorem asks_nextCheckpoint (info : OperatorInfo) (coin : Coin) :
    (nextCheckpoint info coin).Asks (Cancellation.permits .watched) :=
  asks_bind (asks_checkCancelled .watched) fun _ => asks_buildCheckpoint coin info

theorem asks_unless {α : Type} {asks : Request → Prop} {condition : Prop} [Decidable condition]
    {error : Error} {rest : Attempt α} (h : rest.Asks asks) :
    (do if condition then throw error
        rest : Attempt α).Asks asks := by
  intro exchanges outcome hrun
  rcases ends_unless.mp hrun with ⟨_, rfl, _⟩ | ⟨_, hrun⟩
  · exact List.forall_mem_nil _
  · exact h exchanges outcome hrun

theorem asks_buildPayment (coins : List Coin) (outputs : List TxOut) (info : OperatorInfo)
    (maxSubDust : Nat) :
    (buildPayment coins outputs info maxSubDust).Asks (Cancellation.permits .watched) := by
  refine asks_unless (asks_unless ?_)
  refine asks_bind (asks_ofExcept _) fun _ => ?_
  refine asks_bind (asks_mapM (asks_nextCheckpoint info) coins) fun built => ?_
  refine asks_bind (asks_ofExcept _) fun tx => asks_bind (asks_ofExcept _) fun unsigned => ?_
  refine asks_bind (asks_ofExcept _) fun checkpoints => ?_
  exact asks_bind (asks_checkCancelled .watched) fun _ =>
    asks_bind (asks_signAll _ _ _ _) fun _ => asks_pure _

theorem ofTransaction_checkpointTransaction (coin : Coin) (output : TxOut) :
    ∃ unsigned, Psbt.ofTransaction (checkpointTransaction coin output) = .ok unsigned ∧
      unsigned.tx = checkpointTransaction coin output :=
  ⟨_, if_pos rfl, rfl⟩

theorem ends_buildCheckpoint_ok {coin : Coin} {info : OperatorInfo} {exchanges : List Exchange}
    {checkpoint : Checkpoint} :
    (buildCheckpoint coin info).Ends exchanges (.ok checkpoint) ↔
      ∃ (contract : Contract) (script : Bytes) (unsigned : Psbt),
        checkpointContract coin info = .ok contract ∧ contract.outputScript = .ok script ∧
        Psbt.ofTransaction (checkpointTransaction coin ⟨coin.amount, script⟩) = .ok unsigned ∧
        ((signAll [coin] .default .watched).applyTo unsigned).Ends exchanges (.ok checkpoint.psbt) ∧
        coin.throughCheckpoint contract ⟨checkpoint.psbt.txid, 0⟩ ⟨coin.amount, script⟩ =
          .ok checkpoint.output ∧
        checkpoint.spent = coin := by
  unfold buildCheckpoint
  constructor
  · intro h
    obtain ⟨contract, hcontract, h⟩ := ends_ofExcept_bind_ok.mp h
    obtain ⟨script, hscript, h⟩ := ends_ofExcept_bind_ok.mp h
    obtain ⟨unsigned, hunsigned, h⟩ := ends_ofExcept_bind_ok.mp h
    obtain ⟨psbt, signing, _, rfl, hsign, h⟩ := ends_bind_ok.mp h
    obtain ⟨next, hnext, h⟩ := ends_ofExcept_bind_ok.mp h
    obtain ⟨rfl, hcheckpoint⟩ := ends_pure.mp h
    cases hcheckpoint
    rw [List.append_nil]
    exact ⟨contract, script, unsigned, hcontract, hscript, hunsigned, hsign, hnext, rfl⟩
  · obtain ⟨spent, psbt, next⟩ := checkpoint
    rintro ⟨contract, script, unsigned, hcontract, hscript, hunsigned, hsign, hnext, rfl⟩
    refine ends_ofExcept_bind_ok.mpr ⟨contract, hcontract, ?_⟩
    refine ends_ofExcept_bind_ok.mpr ⟨script, hscript, ?_⟩
    refine ends_ofExcept_bind_ok.mpr ⟨unsigned, hunsigned, ?_⟩
    refine ends_bind_ok.mpr ⟨psbt, exchanges, [], (List.append_nil _).symm, hsign, ?_⟩
    exact ends_ofExcept_bind_ok.mpr ⟨next, hnext, ends_pure.mpr ⟨rfl, rfl⟩⟩

theorem ends_nextCheckpoint_ok {info : OperatorInfo} {coin : Coin} {exchanges : List Exchange}
    {checkpoint : Checkpoint} :
    (nextCheckpoint info coin).Ends exchanges (.ok checkpoint) ↔
      ∃ building, exchanges = ⟨.cancelled, false⟩ :: building ∧
        (buildCheckpoint coin info).Ends building (.ok checkpoint) := by
  unfold nextCheckpoint
  constructor
  · intro h
    obtain ⟨_, _, building, rfl, hlook, h⟩ := ends_bind_ok.mp h
    rw [ends_checkCancelled_ok.mp hlook]
    exact ⟨building, rfl, h⟩
  · rintro ⟨building, rfl, h⟩
    exact ends_bind_ok.mpr ⟨(), [_], building, rfl, ends_checkCancelled_ok.mpr rfl, h⟩

theorem ends_buildPayment_ok {coins : List Coin} {outputs : List TxOut} {info : OperatorInfo}
    {maxSubDust : Nat} {exchanges : List Exchange} {payment : OffchainPayment} :
    (buildPayment coins outputs info maxSubDust).Ends exchanges (.ok payment) ↔
      ∃ (built : List Checkpoint) (tx : Transaction) (unsigned : Psbt) (building signing : List Exchange),
        coins ≠ [] ∧ outputs ≠ [] ∧ info.validate = .ok () ∧
        (coins.mapM (nextCheckpoint info)).Ends building (.ok built) ∧
        paymentTransaction built outputs info maxSubDust = .ok tx ∧ Psbt.ofTransaction tx = .ok unsigned ∧
        tx.inputs.mapM (checkpointOf built) = .ok payment.checkpoints ∧
        ((signAll (payment.checkpoints.map Checkpoint.output) .default .watched).applyTo unsigned).Ends signing
          (.ok payment.arkTx) ∧
        exchanges = building ++ ⟨.cancelled, false⟩ :: signing := by
  unfold buildPayment
  constructor
  · intro h
    obtain ⟨hcoins, h⟩ := ends_unless_ok.mp h
    obtain ⟨houtputs, h⟩ := ends_unless_ok.mp h
    obtain ⟨_, hinfo, h⟩ := ends_ofExcept_bind_ok.mp h
    obtain ⟨built, building, _, rfl, hbuilt, h⟩ := ends_bind_ok.mp h
    obtain ⟨tx, htx, h⟩ := ends_ofExcept_bind_ok.mp h
    obtain ⟨unsigned, hunsigned, h⟩ := ends_ofExcept_bind_ok.mp h
    obtain ⟨checkpoints, hcheckpoints, h⟩ := ends_ofExcept_bind_ok.mp h
    obtain ⟨_, _, _, rfl, hlook, h⟩ := ends_bind_ok.mp h
    obtain ⟨arkTx, signing, _, rfl, hsign, h⟩ := ends_bind_ok.mp h
    obtain ⟨rfl, hpayment⟩ := ends_pure.mp h
    cases hpayment
    rw [ends_checkCancelled_ok.mp hlook, List.append_nil]
    rw [List.isEmpty_iff] at hcoins houtputs
    exact ⟨built, tx, unsigned, building, signing, hcoins, houtputs, hinfo, hbuilt, htx, hunsigned, hcheckpoints,
      hsign, rfl⟩
  · obtain ⟨arkTx, checkpoints⟩ := payment
    rintro ⟨built, tx, unsigned, building, signing, hcoins, houtputs, hinfo, hbuilt, htx, hunsigned, hcheckpoints,
      hsign, rfl⟩
    rw [ne_eq, ← List.isEmpty_iff] at hcoins houtputs
    refine ends_unless_ok.mpr ⟨hcoins, ends_unless_ok.mpr ⟨houtputs, ?_⟩⟩
    refine ends_ofExcept_bind_ok.mpr ⟨(), hinfo, ?_⟩
    refine ends_bind_ok.mpr ⟨built, building, _, rfl, hbuilt, ?_⟩
    refine ends_ofExcept_bind_ok.mpr ⟨tx, htx, ?_⟩
    refine ends_ofExcept_bind_ok.mpr ⟨unsigned, hunsigned, ?_⟩
    refine ends_ofExcept_bind_ok.mpr ⟨checkpoints, hcheckpoints, ?_⟩
    refine ends_bind_ok.mpr ⟨(), [_], signing, rfl, ends_checkCancelled_ok.mpr rfl, ?_⟩
    exact ends_bind_ok.mpr ⟨arkTx, signing, [], (List.append_nil _).symm, hsign, ends_pure.mpr ⟨rfl, rfl⟩⟩

/-! ## From the submission on -/

theorem coinOf?_isSome {payment : OffchainPayment} {txid : Txid} :
    (payment.coinOf? txid).isSome ↔ txid ∈ payment.checkpointPsbts.map Psbt.txid := by
  simp [OffchainPayment.coinOf?_eq, OffchainPayment.checkpointPsbts, Checkpoint.txid]

theorem asks_cosignCheckpoint (payment : OffchainPayment) (returned : Psbt) :
    (cosignCheckpoint payment returned).Asks (Cancellation.permits .committed) := by
  unfold cosignCheckpoint
  split
  · exact asks_throw _
  · exact asks_signAll _ _ _ _

theorem asks_cosigning (payment : OffchainPayment) (returned : List Psbt) :
    (returned.mapM (cosignCheckpoint payment)).Asks (Cancellation.permits .committed) :=
  asks_mapM (asks_cosignCheckpoint payment) returned

/-- A checkpoint of the payment is signed for the coin that went through it. -/
theorem cosignCheckpoint_eq {payment : OffchainPayment} {returned : Psbt} {coin : Coin}
    (h : payment.coinOf? returned.txid = some coin) :
    cosignCheckpoint payment returned = (signAll [coin] .default .committed).applyTo returned := by
  unfold cosignCheckpoint
  rw [h]

/-- Only a checkpoint of the payment is signed again. -/
theorem ends_cosignCheckpoint_coin {payment : OffchainPayment} {returned signed : Psbt} {exchanges : List Exchange}
    (h : (cosignCheckpoint payment returned).Ends exchanges (.ok signed)) :
    ∃ coin, payment.coinOf? returned.txid = some coin ∧
      ((signAll [coin] .default .committed).applyTo returned).Ends exchanges (.ok signed) := by
  unfold cosignCheckpoint at h
  split at h
  · cases (ends_throw.mp h).2
  · next coin hcoin => exact ⟨coin, hcoin, h⟩

/-- Only a checkpoint of the payment is signed again, and it stays the same transaction. -/
theorem ends_cosignCheckpoint_ok {payment : OffchainPayment} {returned signed : Psbt}
    {exchanges : List Exchange} (h : (cosignCheckpoint payment returned).Ends exchanges (.ok signed)) :
    signed.tx = returned.tx ∧ returned.txid ∈ payment.checkpointPsbts.map Psbt.txid := by
  obtain ⟨coin, hcoin, hsign⟩ := ends_cosignCheckpoint_coin h
  exact ⟨tx_of_ends_signAll hsign, coinOf?_isSome.mp (by simp [hcoin])⟩

theorem ends_submitPayment_ok {payment : OffchainPayment} {exchanges : List Exchange} {receipt : Receipt} :
    (submitPayment payment).Ends exchanges (.ok receipt) ↔
      ∃ (returned finalized : List Psbt) (cosigning : List Exchange),
        returned.length = payment.checkpointPsbts.length ∧
        (returned.mapM (cosignCheckpoint payment)).Ends cosigning (.ok finalized) ∧
        receipt = ⟨payment.arkTxid, finalized.map Psbt.txid⟩ ∧
        exchanges = [⟨.cancelled, false⟩,
            ⟨.submit payment.arkTx payment.checkpointPsbts, .ok ⟨payment.arkTxid, returned⟩⟩] ++
          cosigning ++ [⟨.finalize payment.arkTxid finalized, .ok ()⟩] := by
  unfold submitPayment cosignCheckpoints
  constructor
  · intro h
    obtain ⟨_, _, _, rfl, hlook, h⟩ := ends_bind_ok.mp h
    rw [ends_checkCancelled_ok.mp hlook]
    obtain ⟨⟨arkTxid, returned⟩, _, _, rfl, hsubmit, h⟩ := ends_bind_ok.mp h
    obtain ⟨hname, h⟩ := ends_unless_ok.mp h
    obtain ⟨finalized, cosigning, _, rfl, hcosign, h⟩ := ends_bind_ok.mp h
    obtain ⟨hcount, hcosign⟩ := ends_unless_ok.mp hcosign
    obtain ⟨_, _, _, rfl, hfinalize, h⟩ := ends_bind_ok.mp h
    obtain ⟨rfl, hreceipt⟩ := ends_pure.mp h
    have hname : arkTxid = payment.arkTxid := not_not.mp hname
    subst hname
    refine ⟨returned, finalized, cosigning, ?_, hcosign, Except.ok.inj hreceipt, ?_⟩
    · simpa [OffchainPayment.checkpointPsbts] using hcount
    · rw [run_ask.mp hsubmit, run_ask.mp hfinalize]
      simp [Cancellation.look]
  · rintro ⟨returned, finalized, cosigning, hcount, hcosign, rfl, rfl⟩
    refine ends_bind_ok.mpr ⟨(), [_], _, List.singleton_append.symm, ends_checkCancelled_ok.mpr rfl, ?_⟩
    refine ends_bind_ok.mpr ⟨_, [_], _, List.singleton_append.symm, run_ask.mpr rfl, ?_⟩
    refine ends_unless_ok.mpr ⟨not_not.mpr rfl, ?_⟩
    refine ends_bind_ok.mpr ⟨finalized, cosigning, _, rfl, ends_unless_ok.mpr ⟨?_, hcosign⟩, ?_⟩
    · simpa [OffchainPayment.checkpointPsbts] using hcount
    · exact ends_bind_ok.mpr ⟨(), [_], [], rfl, run_ask.mpr rfl, ends_pure.mpr ⟨rfl, rfl⟩⟩

/-! ## The whole send -/

/-- What comes before the payment of a send is built. -/
def opening (settings : Settings) (info : OperatorInfo) (now : ChainTime) (coins : List Coin) :
    List Exchange :=
  [⟨.operatorInfo, .ok info⟩, ⟨.chainTime, .ok now⟩, ⟨.cancelled, false⟩,
    ⟨.lock (coins.map Coin.outpoint) settings.lockSeconds, .ok ()⟩]

/-- What comes after the payment of a send was finalized. -/
def closing (coins : List Coin) (withdrawn : Except Error Nat) : List Exchange :=
  [⟨.release (coins.map Coin.outpoint), ()⟩, ⟨.cancelIntents (coins.map Coin.outpoint), withdrawn⟩]

theorem conclude_eq (outpoints : List OutPoint) (outcome : Except Error Receipt) :
    conclude outpoints outcome =
      Dialogue.ask (.release outpoints) fun _ =>
        if outcome.toBool then Dialogue.ask (.cancelIntents outpoints) fun _ => .done outcome
        else .done outcome := by
  unfold conclude
  cases outcome <;> rfl

/-- What the end of a send asks; the store of intents is asked after a success only. -/
def concluding (outpoints : List OutPoint) (outcome : Except Error Receipt) (withdrawn : Except Error Nat) :
    List Exchange :=
  ⟨.release outpoints, ()⟩ :: if outcome.toBool then [⟨.cancelIntents outpoints, withdrawn⟩] else []

/-- The end of a send leaves its outcome as it is, whatever the store of intents answers. -/
theorem run_conclude_iff {outpoints : List OutPoint} {outcome result : Except Error Receipt}
    {exchanges : List Exchange} :
    Dialogue.Run (conclude outpoints outcome) exchanges result ↔
      result = outcome ∧ ∃ withdrawn, exchanges = concluding outpoints outcome withdrawn := by
  rw [conclude_eq]
  constructor
  · intro h
    cases h with
    | ask _ _ _ h =>
      cases outcome with
      | ok receipt =>
        cases h with
        | ask _ _ withdrawn h =>
          obtain ⟨rfl, rfl⟩ := Dialogue.run_done.mp h
          exact ⟨rfl, withdrawn, rfl⟩
      | error error =>
        obtain ⟨rfl, rfl⟩ := Dialogue.run_done.mp h
        exact ⟨rfl, .ok 0, rfl⟩
  · rintro ⟨rfl, withdrawn, rfl⟩
    refine .ask (A := Reply) (.release outpoints) _ () ?_
    cases result with
    | ok receipt => exact .ask (A := Reply) (.cancelIntents outpoints) _ withdrawn (.done _)
    | error error => exact .done _

theorem run_conclude_ok {outpoints : List OutPoint} {outcome : Except Error Receipt}
    {exchanges : List Exchange} {receipt : Receipt} :
    Dialogue.Run (conclude outpoints outcome) exchanges (.ok receipt) ↔
      outcome = .ok receipt ∧ ∃ withdrawn,
        exchanges = [⟨.release outpoints, ()⟩, ⟨.cancelIntents outpoints, withdrawn⟩] := by
  rw [run_conclude_iff]
  constructor
  · rintro ⟨rfl, hclosing⟩
    exact ⟨rfl, hclosing⟩
  · rintro ⟨rfl, hclosing⟩
    exact ⟨rfl, hclosing⟩

theorem ends_sendUnder_ok {settings : Settings} {info : OperatorInfo} {coins : List Coin}
    {outputs : List TxOut} {exchanges : List Exchange} {receipt : Receipt} :
    (sendUnder settings info coins outputs).Ends exchanges (.ok receipt) ↔
      ∃ (now : ChainTime) (payment : OffchainPayment) (building submitting : List Exchange)
        (withdrawn : Except Error Nat),
        checkCoins coins now = .ok () ∧
        (buildPayment coins outputs info settings.maxSubDust).Ends building (.ok payment) ∧
        (submitPayment payment).Ends submitting (.ok receipt) ∧
        exchanges = (opening settings info now coins).tail ++ building ++ submitting ++
          closing coins withdrawn := by
  unfold sendUnder
  constructor
  · intro h
    obtain ⟨now, _, _, rfl, htime, h⟩ := ends_bind_ok.mp h
    obtain ⟨_, hcheck, h⟩ := ends_ofExcept_bind_ok.mp h
    obtain ⟨_, _, _, rfl, hlook, h⟩ := ends_bind_ok.mp h
    obtain ⟨_, _, _, rfl, hlock, h⟩ := ends_bind_ok.mp h
    obtain ⟨outcome, _, _, rfl, hlocked, hconclude⟩ := Dialogue.run_bind.mp h
    obtain ⟨rfl, withdrawn, rfl⟩ := run_conclude_ok.mp hconclude
    obtain ⟨payment, building, submitting, rfl, hbuild, hsubmit⟩ := ends_bind_ok.mp hlocked
    refine ⟨now, payment, building, submitting, withdrawn, hcheck, hbuild, hsubmit, ?_⟩
    rw [run_ask.mp htime, ends_checkCancelled_ok.mp hlook, run_ask.mp hlock]
    simp [opening, closing, Cancellation.look]
  · rintro ⟨now, payment, building, submitting, withdrawn, hcheck, hbuild, hsubmit, rfl⟩
    have hlocked : (sendLocked settings info coins outputs).Ends (building ++ submitting) (.ok receipt) :=
      ends_bind_ok.mpr ⟨payment, building, submitting, rfl, hbuild, hsubmit⟩
    refine ends_bind_ok.mpr ⟨now, [_], _, rfl, run_ask.mpr rfl, ?_⟩
    refine ends_ofExcept_bind_ok.mpr ⟨(), hcheck, ?_⟩
    refine ends_bind_ok.mpr ⟨(), [_], _, rfl, ends_checkCancelled_ok.mpr rfl, ?_⟩
    refine ends_bind_ok.mpr ⟨(), [_], _, rfl, run_ask.mpr rfl, ?_⟩
    exact Dialogue.run_bind.mpr ⟨.ok receipt, building ++ submitting, closing coins withdrawn, rfl, hlocked,
      run_conclude_ok.mpr ⟨rfl, withdrawn, rfl⟩⟩

theorem ends_send_ok {settings : Settings} {coins : List Coin} {outputs : List TxOut}
    {exchanges : List Exchange} {receipt : Receipt} :
    (send settings coins outputs).Ends exchanges (.ok receipt) ↔
      ∃ (info : OperatorInfo) (now : ChainTime) (payment : OffchainPayment)
        (building submitting : List Exchange) (withdrawn : Except Error Nat),
        info.validate = .ok () ∧ checkCoins coins now = .ok () ∧
        (buildPayment coins outputs info settings.maxSubDust).Ends building (.ok payment) ∧
        (submitPayment payment).Ends submitting (.ok receipt) ∧
        exchanges = opening settings info now coins ++ building ++ submitting ++
          closing coins withdrawn := by
  unfold send
  constructor
  · intro h
    obtain ⟨info, _, _, rfl, hinfo, h⟩ := ends_bind_ok.mp h
    obtain ⟨_, hvalid, h⟩ := ends_ofExcept_bind_ok.mp h
    obtain ⟨now, payment, building, submitting, withdrawn, hcheck, hbuild, hsubmit, rfl⟩ :=
      ends_sendUnder_ok.mp h
    refine ⟨info, now, payment, building, submitting, withdrawn, hvalid, hcheck, hbuild, hsubmit, ?_⟩
    rw [run_ask.mp hinfo]
    simp [opening]
  · rintro ⟨info, now, payment, building, submitting, withdrawn, hvalid, hcheck, hbuild, hsubmit, rfl⟩
    refine ends_bind_ok.mpr ⟨info, [_], _, rfl, run_ask.mpr rfl, ?_⟩
    refine ends_ofExcept_bind_ok.mpr ⟨(), hvalid, ?_⟩
    exact ends_sendUnder_ok.mpr ⟨now, payment, building, submitting, withdrawn, hcheck, hbuild, hsubmit, rfl⟩

/-! ## A payment of two coins

The coins are outputs of one contract, with a script that asks for nothing. Digests and names are given as numbers, so
that each of them is computed once.
-/

/-- The key whose secret number is one. -/
def ownerKey : XOnlyKey :=
  ⟨Bytes.natBE 32 Secp256k1.generator.x, by decide +kernel⟩

/-- The signature under that key with the nonce one. -/
def ownerSignature (digest : Sized 32) : Signature :=
  let challenge := Schnorr.challenge ownerKey.bytes ownerKey.bytes digest.val
  ⟨ownerKey.bytes ++ Bytes.natBE 32 ((1 + challenge) % Secp256k1.order), by simp [ownerKey.length_bytes]⟩

/-- A digest as a number. -/
def digestOf (value : Nat) : Sized 32 :=
  ⟨Bytes.natBE 32 value, Bytes.length_natBE 32 value⟩

/-- A script that asks for nothing. -/
def openScript : Bytes := [0x51]

/-- A thousand satoshi paid to the output key with this number. -/
def openOutput (value : Nat) : TxOut :=
  ⟨⟨1000⟩, [0x51, 0x20] ++ (digestOf value).val⟩

/-- Whether the output is one of the contract, to be spent through this script. -/
def holdsOpenScript (contract : Explicit) (output : TxOut) : Bool :=
  match (Contract.explicit contract).commitment with
  | .ok commitment => commitment.outputScript == output.script && (commitment.controlBlock openScript).isOk
  | .error _ => false

/-- An output that can be spent through the script that asks for nothing. -/
structure OpenOutput where
  contract : Explicit
  output : TxOut
  listed : openScript ∈ contract.scripts
  holds : holdsOpenScript contract output = true

namespace OpenOutput

theorem commitment (o : OpenOutput) :
    ∃ commitment block, (Contract.explicit o.contract).commitment = .ok commitment ∧
      commitment.outputScript = o.output.script ∧ commitment.controlBlock openScript = .ok block := by
  have hholds := o.holds
  unfold holdsOpenScript at hholds
  split at hholds
  · next commitment hcommitment =>
    obtain ⟨hscript, hblock⟩ := Bool.and_eq_true_iff.mp hholds
    obtain ⟨block, hcontrol⟩ := isOk_iff.mp hblock
    exact ⟨commitment, block, hcommitment, beq_iff_eq.mp hscript, hcontrol⟩
  · cases hholds

theorem outputScript (o : OpenOutput) : (Contract.explicit o.contract).outputScript = .ok o.output.script := by
  obtain ⟨commitment, _, hcommitment, hscript, _⟩ := o.commitment
  have houtput : (Contract.explicit o.contract).outputScript =
      (Contract.explicit o.contract).commitment.map Commitment.outputScript := rfl
  rw [houtput, hcommitment, ← hscript]
  rfl

theorem locks (o : OpenOutput) (outpoint : OutPoint) :
    SpendLocks.ofSpend (.explicit o.contract) outpoint o.output openScript = .ok ⟨none, none⟩ := by
  have hread : ScriptOp.read openScript = .ok [.int 1] := by
    simp only [openScript, ScriptOp.read]
    rfl
  rw [SpendLocks.ofSpend_of_mem o.outputScript rfl o.listed, hread]
  rfl

/-- The coin at an outpoint. -/
def coin (o : OpenOutput) (outpoint : OutPoint) : Coin :=
  ⟨"", .explicit o.contract, outpoint, o.output, openScript, ⟨none, none⟩, none, none, none, false,
    o.locks outpoint⟩

theorem committed_coin (o : OpenOutput) (outpoint : OutPoint) : (o.coin outpoint).Committed := by
  obtain ⟨commitment, block, hcommitment, _, hblock⟩ := o.commitment
  exact ⟨commitment, block, hcommitment, hblock⟩

end OpenOutput

/-- The terms of the operator. -/
def sampleOperator : OperatorInfo where
  signerKey := unspendableKey
  forfeitKey := ⟨false, unspendableKey⟩
  forfeitScript := []
  network := .regtest
  dust := ⟨330⟩
  exitDelay := .blocks 144
  boardingDelay := .blocks 144
  checkpointScript := (Leaf.unilateral (.single (.ofBlocks 144) unspendableKey) none).script
  fees := .none

/-- What is sent. -/
def sentOutput : OpenOutput where
  contract := ⟨none, [openScript], List.cons_ne_nil _ _⟩
  output := openOutput 0xf855ca43402fb99cde0e3e634b175642561ff584fe76d1686630d8fd2ea93b36
  listed := by decide
  holds := by decide +kernel

/-- What it is moved to. -/
def movedOutput : OpenOutput where
  contract := .pair (some sampleOperator.signerKey) openScript sampleOperator.checkpointScript
  output := openOutput 0x03f425303de2d2438ffb4275be7532d029626063e2ca4875c39b2a9999840bd2
  listed := by decide
  holds := by decide +kernel

def sentCoin (vout : UInt32) : Coin :=
  sentOutput.coin ⟨.zero, vout⟩

def movedCoin (name : Nat) : Coin :=
  movedOutput.coin ⟨⟨digestOf name⟩, 0⟩

/-- The transaction that moves a coin. -/
def moving (vout : UInt32) : Transaction :=
  checkpointTransaction (sentCoin vout) movedOutput.output

def firstName : Nat := 0xe76116ee0b09b4f108a92b2f695ea6ad92b932b7b78ff86417e4478c1ba51766
def secondName : Nat := 0xc968f3fcc9a3a2051fcea2c20d9f347dcce273f613ef63fe42cf89d9a69e3365

theorem txid_moving :
    (moving 0).txid = ⟨digestOf firstName⟩ ∧ (moving 1).txid = ⟨digestOf secondName⟩ := by
  decide +kernel

def requestedOutput : TxOut :=
  ⟨⟨2000⟩, taprootScript unspendableKey⟩

/-- The transaction that pays. -/
def paying : Transaction :=
  ⟨transactionVersion, [(movedCoin firstName).input, (movedCoin secondName).input],
    [requestedOutput, anchorOutput], 0⟩

def firstDigest : Sized 32 := digestOf 0x17b10880a6ed29cefbc29aaf73a66e4ab9eebaa8a9be210f79786af60624fdce
def secondDigest : Sized 32 := digestOf 0xbdba23742cf3b1d24876f3fb99b1599c1e6d3b600c626da51765f33ec5ae1374

def firstPayingDigest : Sized 32 := digestOf 0x250d29843b8dc399628a4b9c36b5fb4d46d9fa7a872ea6cbb98c18e846d64f5e
def secondPayingDigest : Sized 32 := digestOf 0xd01f515b932ad99a707b5fc805de5189bb6e2adca153115df3898f0e067d9877

def payingDigests : List (Sized 32) :=
  [firstPayingDigest, secondPayingDigest]

theorem digests_moving_first :
    digests (moving 0) [sentOutput.output] .default (enumerate [sentCoin 0]) = .ok [firstDigest] := by
  decide +kernel

theorem digests_moving_second :
    digests (moving 1) [sentOutput.output] .default (enumerate [sentCoin 1]) = .ok [secondDigest] := by
  decide +kernel

theorem digests_paying :
    digests paying [movedOutput.output, movedOutput.output] .default
      (enumerate [movedCoin firstName, movedCoin secondName]) = .ok payingDigests := by
  decide +kernel

theorem verify_ownerSignature :
    ∀ digest ∈ firstDigest :: secondDigest :: payingDigests,
      Schnorr.verify ownerKey digest (ownerSignature digest) = true := by
  decide +kernel

theorem signed_of_mem {digests : List (Sized 32)} (h : digests ⊆ firstDigest :: secondDigest :: payingDigests) :
    ∀ digest ∈ digests, ∃ key signature, Schnorr.verify key digest signature = true :=
  fun digest hmem => ⟨ownerKey, ownerSignature digest, verify_ownerSignature digest (h hmem)⟩

theorem checkpointExit_sampleOperator :
    ∃ path, sampleOperator.checkpointExit = .ok path ∧ path.leaf.script = sampleOperator.checkpointScript := by
  have hexit : sampleOperator.checkpointExit.map (fun exit => exit.leaf.script) =
      .ok sampleOperator.checkpointScript := by decide +kernel
  cases hpath : sampleOperator.checkpointExit with
  | error error =>
    rw [hpath] at hexit
    cases hexit
  | ok path =>
    rw [hpath] at hexit
    exact ⟨path, rfl, Except.ok.inj hexit⟩

theorem validate_sampleOperator : sampleOperator.validate = .ok () := by
  obtain ⟨path, hpath, _⟩ := checkpointExit_sampleOperator
  rw [OperatorInfo.validate, hpath]
  rfl

theorem checkpointContract_sentCoin (vout : UInt32) :
    checkpointContract (sentCoin vout) sampleOperator = .ok (.explicit movedOutput.contract) := by
  obtain ⟨path, hpath, hscript⟩ := checkpointExit_sampleOperator
  rw [checkpointContract, hpath]
  show Except.ok (Contract.explicit (.pair (some sampleOperator.signerKey) openScript path.leaf.script)) = _
  rw [hscript]
  rfl

theorem throughCheckpoint_sentCoin (vout : UInt32) (name : Nat) :
    (sentCoin vout).throughCheckpoint (.explicit movedOutput.contract) ⟨⟨digestOf name⟩, 0⟩ movedOutput.output =
      .ok (movedCoin name) := by
  have hmake : Coin.make "" (.explicit movedOutput.contract) ⟨⟨digestOf name⟩, 0⟩ movedOutput.output openScript =
      .ok (movedCoin name) := Coin.make_eq_ok (movedOutput.locks _)
  unfold Coin.throughCheckpoint
  show (Coin.make "" _ _ _ openScript).map _ = _
  rw [hmake]
  rfl

/-- The transaction that moves a coin can be signed, before its submission and after. -/
theorem exists_signed_moving (cancellation : Cancellation) {vout : UInt32} {digest : Sized 32} {psbt : Psbt}
    (htx : psbt.tx = moving vout)
    (hdigests : digests (moving vout) [sentOutput.output] .default (enumerate [sentCoin vout]) = .ok [digest])
    (hsigned : ∀ d ∈ [digest], ∃ key signature, Schnorr.verify key d signature = true) :
    ∃ exchanges signed,
      ((signAll [sentCoin vout] .default cancellation).applyTo psbt).Ends exchanges (.ok signed) ∧
        ∀ exchange ∈ exchanges, Cooperative exchange := by
  have hcount : [sentCoin vout].length = psbt.tx.inputs.length := by
    rw [htx]
    rfl
  have hcommitted : ∀ coin ∈ [sentCoin vout], coin.Committed := by
    intro coin hmem
    cases List.mem_singleton.mp hmem
    exact sentOutput.committed_coin _
  exact exists_ends_signAll cancellation hcount hcommitted (htx ▸ hdigests) hsigned

/-- Each coin gets its checkpoint. -/
theorem exists_checkpoint {vout : UInt32} {name : Nat} {digest : Sized 32}
    (hname : (moving vout).txid = ⟨digestOf name⟩)
    (hdigests : digests (moving vout) [sentOutput.output] .default (enumerate [sentCoin vout]) = .ok [digest])
    (hsigned : ∀ d ∈ [digest], ∃ key signature, Schnorr.verify key d signature = true) :
    ∃ exchanges checkpoint, (nextCheckpoint sampleOperator (sentCoin vout)).Ends exchanges (.ok checkpoint) ∧
      checkpoint.spent = sentCoin vout ∧ checkpoint.psbt.tx = moving vout ∧
      checkpoint.output = movedCoin name ∧ ∀ exchange ∈ exchanges, Cooperative exchange := by
  obtain ⟨unsigned, hunsigned, htx⟩ := ofTransaction_checkpointTransaction (sentCoin vout) movedOutput.output
  have htx : unsigned.tx = moving vout := htx
  obtain ⟨signing, signed, hsign, hanswers⟩ := exists_signed_moving .watched htx hdigests hsigned
  have hsignedTx : signed.tx = moving vout := (tx_of_ends_signAll hsign).trans htx
  refine ⟨_, ⟨sentCoin vout, signed, movedCoin name⟩, ends_nextCheckpoint_ok.mpr ⟨signing, rfl, ?_⟩, rfl, hsignedTx,
    rfl, List.forall_mem_cons.mpr ⟨rfl, hanswers⟩⟩
  refine ends_buildCheckpoint_ok.mpr ⟨.explicit movedOutput.contract, movedOutput.output.script, unsigned,
    checkpointContract_sentCoin vout, movedOutput.outputScript, hunsigned, hsign, ?_, rfl⟩
  rw [Psbt.txid, hsignedTx, hname]
  exact throughCheckpoint_sentCoin vout name

/-- Both coins get their checkpoints. -/
theorem exists_checkpoints_twoCoins :
    ∃ exchanges first second,
      ([sentCoin 0, sentCoin 1].mapM (nextCheckpoint sampleOperator)).Ends exchanges (.ok [first, second]) ∧
      first.spent = sentCoin 0 ∧ first.psbt.tx = moving 0 ∧ first.output = movedCoin firstName ∧
      second.psbt.tx = moving 1 ∧ second.output = movedCoin secondName ∧
      ∀ exchange ∈ exchanges, Cooperative exchange := by
  obtain ⟨_, first, hfirst, hspent, hfirstTx, hfirstOutput, hfirstAnswers⟩ :=
    exists_checkpoint txid_moving.1 digests_moving_first (signed_of_mem (by simp))
  obtain ⟨_, second, hsecond, _, hsecondTx, hsecondOutput, hsecondAnswers⟩ :=
    exists_checkpoint txid_moving.2 digests_moving_second (signed_of_mem (by simp))
  obtain ⟨building, hbuilding, hanswers⟩ :=
    exists_ends_mapM (.cons ⟨_, hfirst, hfirstAnswers⟩ (.cons ⟨_, hsecond, hsecondAnswers⟩ .nil))
  exact ⟨building, first, second, hbuilding, hspent, hfirstTx, hfirstOutput, hsecondTx, hsecondOutput, hanswers⟩

/-- A transaction that spends both checkpoints can be built where its inputs can be signed. -/
theorem exists_payment_of {outputs : List TxOut} {tx : Transaction} {inputDigests : List (Sized 32)}
    (houtputs : outputs ≠ [])
    (hpaying : ∀ built : List Checkpoint,
      built.map Checkpoint.output = [movedCoin firstName, movedCoin secondName] →
      paymentTransaction built outputs sampleOperator Settings.default.maxSubDust = .ok tx)
    (hdigests : digests tx [movedOutput.output, movedOutput.output] .default
      (enumerate [movedCoin firstName, movedCoin secondName]) = .ok inputDigests)
    (hsigned : ∀ digest ∈ inputDigests, ∃ key signature, Schnorr.verify key digest signature = true) :
    ∃ exchanges payment first second,
      (buildPayment [sentCoin 0, sentCoin 1] outputs sampleOperator
        Settings.default.maxSubDust).Ends exchanges (.ok payment) ∧
      payment.checkpoints = [first, second] ∧ first.spent = sentCoin 0 ∧ first.psbt.tx = moving 0 ∧
      second.psbt.tx = moving 1 := by
  obtain ⟨building, first, second, hbuilding, hspent, hfirstTx, hfirstOutput, hsecondTx, hsecondOutput, _⟩ :=
    exists_checkpoints_twoCoins
  have hmoved : [first, second].map Checkpoint.output = [movedCoin firstName, movedCoin secondName] := by
    rw [List.map_cons, List.map_cons, List.map_nil, hfirstOutput, hsecondOutput]
  have htransaction := hpaying [first, second] hmoved
  have hinputs : tx.inputs = [(movedCoin firstName).input, (movedCoin secondName).input] := by
    obtain ⟨_, _, h⟩ := bind_eq_ok.mp htransaction
    obtain ⟨_, _, h⟩ := bind_eq_ok.mp h
    cases h
    rw [hmoved]
    rfl
  have hcheckpoints : tx.inputs.mapM (checkpointOf [first, second]) = .ok [first, second] := by
    have hdistinct : (movedCoin firstName).outpoint ≠ (movedCoin secondName).outpoint := by decide
    simp [hinputs, checkpointOf, hfirstOutput, hsecondOutput, Coin.input, hdistinct]
    rfl
  have hempty : (tx.inputs.all fun input => input.script.isEmpty) = true := by
    rw [hinputs]
    rfl
  obtain ⟨unsigned, hunsigned, htx⟩ : ∃ unsigned, Psbt.ofTransaction tx = .ok unsigned ∧ unsigned.tx = tx :=
    ⟨_, if_pos hempty, rfl⟩
  have hcommitted : ∀ coin ∈ [movedCoin firstName, movedCoin secondName], coin.Committed := by
    intro coin hmem
    rcases List.mem_cons.mp hmem with rfl | hmem
    · exact movedOutput.committed_coin _
    · cases List.mem_singleton.mp hmem
      exact movedOutput.committed_coin _
  have hcount : [movedCoin firstName, movedCoin secondName].length = unsigned.tx.inputs.length := by
    rw [htx, hinputs]
    rfl
  obtain ⟨signing, arkTx, hsign, _⟩ := exists_ends_signAll .watched hcount hcommitted (htx ▸ hdigests) hsigned
  refine ⟨building ++ ⟨.cancelled, false⟩ :: signing, ⟨arkTx, [first, second]⟩, first, second, ?_, rfl, hspent,
    hfirstTx, hsecondTx⟩
  refine ends_buildPayment_ok.mpr ⟨[first, second], tx, unsigned, building, signing, by simp, houtputs,
    validate_sampleOperator, hbuilding, htransaction, hunsigned, hcheckpoints, ?_, rfl⟩
  rw [hmoved]
  exact hsign

/-- The payment can be built, and its checkpoints are those of the two coins. -/
theorem exists_payment :
    ∃ exchanges payment first second,
      (buildPayment [sentCoin 0, sentCoin 1] [requestedOutput] sampleOperator
        Settings.default.maxSubDust).Ends exchanges (.ok payment) ∧
      payment.checkpoints = [first, second] ∧ first.spent = sentCoin 0 ∧ first.psbt.tx = moving 0 ∧
      second.psbt.tx = moving 1 := by
  refine exists_payment_of (List.cons_ne_nil _ _) (fun built hmoved => ?_) digests_paying (signed_of_mem (by simp))
  rw [paymentTransaction, hmoved]
  rfl

end Vtxo.Spend
