import Vtxo.Proofs.Psbt.Independence
import Vtxo.Proofs.Spend.Signatures

/-!
# Checkpoints that the operator returned

The operator returns the checkpoints with its signatures, and whatever else it recorded on their inputs. These are signed
once more. Signing writes what belongs to the coin: the output it is, its script under its control block, the records of
its scripts and of its extra witness, and the wallet's signature. Everything else on the input stays, the operator's
signatures among it, without which a checkpoint could not be spent.

  1. `InputMaps.find?_replace_of_not_owned`: records that a write leaves alone.
  2. `Coin.signedOnTop`: what preparing and signing an input does to its maps.
  3. `cosignCheckpoints_keeps`: every checkpoint that is signed once more.
-/

set_option autoImplicit false

namespace Vtxo

/-- Records of other names are found as before. -/
theorem InputMaps.find?_replace_of_not_owned (maps : InputMaps) {name : RecordName} {key : RecordKey}
    (h : name.owns key = false) (value : Bytes) :
    (maps.replace name value).records.find? key = maps.records.find? key := by
  have hne : name.key ≠ key := by
    rintro rfl
    rw [name.owns_key] at h
    cases h
  rw [replace, SortedMap.find?_insert, if_neg hne, SortedMap.find?_erase, if_neg (by simp [h])]

namespace Coin

/-- The control block of the script that the coin is spent through. -/
def HasControlBlock (coin : Coin) (block : ControlBlock) : Prop :=
  ∃ commitment, coin.contract.commitment = .ok commitment ∧ commitment.controlBlock coin.leaf = .ok block

/-- The second maps are the first ones with what belongs to the coin and one signature on top. -/
structure SignedOnTop (coin : Coin) (block : ControlBlock) (key : XOnlyKey) (signature : TapSignature)
    (before after : InputMaps) : Prop where
  utxo : after.utxo = some coin.output
  script : after.leafScripts.find? block = some (coin.leaf, .tapscript)
  otherScripts : ∀ other, other ≠ block → after.leafScripts.find? other = before.leafScripts.find? other
  signature : after.signatures.find? ⟨key, leafHash coin.leaf⟩ = some signature
  otherSignatures : ∀ signer, signer ≠ ⟨key, leafHash coin.leaf⟩ →
    after.signatures.find? signer = before.signatures.find? signer
  otherRecords : ∀ record, RecordName.scripts.owns record = false →
    (coin.extraWitness.isSome = true → RecordName.condition.owns record = false) →
    after.records.find? record = before.records.find? record

theorem leafScripts_preparation (coin : Coin) (maps : InputMaps) :
    ∃ block, coin.HasControlBlock block ∧
      (coin.preparation maps).leafScripts = maps.leafScripts.insert block (coin.leaf, .tapscript) := by
  obtain ⟨commitment, block, hcommitment, hblock, hpreparation⟩ := coin.exists_preparation
  refine ⟨block, ⟨commitment, hcommitment, hblock⟩, ?_⟩
  rw [hpreparation, prepare]
  cases coin.extraWitness <;> rfl

/-- Preparing an input writes the records of the coin's scripts, and those of its extra witness if it has one. -/
theorem find?_records_preparation (coin : Coin) (maps : InputMaps) {record : RecordKey}
    (hscripts : RecordName.scripts.owns record = false)
    (hcondition : coin.extraWitness.isSome = true → RecordName.condition.owns record = false) :
    (coin.preparation maps).records.find? record = maps.records.find? record := by
  obtain ⟨commitment, block, _, _, hpreparation⟩ := coin.exists_preparation
  rw [hpreparation, prepare]
  cases hwitness : coin.extraWitness with
  | none => exact InputMaps.find?_replace_of_not_owned _ hscripts _
  | some witness =>
    rw [hwitness] at hcondition
    refine (InputMaps.find?_replace_of_not_owned _ (hcondition rfl) _).trans ?_
    exact InputMaps.find?_replace_of_not_owned _ hscripts _

/-- Preparing and signing an input writes what belongs to the coin and one signature. -/
theorem signedOnTop (coin : Coin) (kind : SighashType) (signed : XOnlyKey × Signature) (maps : InputMaps) :
    ∃ block, coin.HasControlBlock block ∧
      coin.SignedOnTop block signed.1 ⟨signed.2, kind⟩ maps (coin.recording kind signed (coin.preparation maps)) := by
  obtain ⟨block, hblock, hscripts⟩ := coin.leafScripts_preparation maps
  have hleafScripts : (coin.recording kind signed (coin.preparation maps)).leafScripts =
      maps.leafScripts.insert block (coin.leaf, .tapscript) := hscripts
  refine ⟨block, hblock, ⟨coin.utxo_preparation maps, ?_, fun other hother => ?_, ?_, fun signer hsigner => ?_,
    fun record hscripts hcondition => find?_records_preparation coin maps hscripts hcondition⟩⟩
  · rw [hleafScripts, SortedMap.find?_insert, if_pos rfl]
  · rw [hleafScripts, SortedMap.find?_insert, if_neg hother.symm]
  · rw [find?_recording, if_pos rfl]
  · rw [find?_recording, if_neg hsigner.symm, signatures_preparation]

end Coin

namespace Spend

open Attempt Edit

variable {coin : Coin} {cancellation : Cancellation} {before after : Psbt} {exchanges : List Exchange}
  {payment : OffchainPayment} {returned finalized : List Psbt}

/-- The second transaction is the first one, whose only input the wallet has signed on top of all that it held. -/
structure SignedAgain (exchanges : List Exchange) (coin : Coin) (before after : Psbt) : Prop where
  tx_eq : after.tx = before.tx
  signed : ∃ (digest : Sized 32) (key : XOnlyKey) (signature : Signature) (block : ControlBlock) (held kept : InputMaps),
    before.tx.sighash [coin.output] 0 (leafHash coin.leaf) .default = .ok digest ∧
    ⟨.sign coin.wallet digest, .ok (key, signature)⟩ ∈ exchanges ∧ Schnorr.verify key digest signature = true ∧
    coin.HasControlBlock block ∧ before.inputs = [held] ∧ after.inputs = [kept] ∧
    coin.SignedOnTop block key ⟨signature, .default⟩ held kept

theorem SignedAgain.mono {others : List Exchange} (h : SignedAgain exchanges coin before after)
    (hsub : exchanges ⊆ others) : SignedAgain others coin before after := by
  obtain ⟨htx, digest, key, signature, block, held, kept, hdigest, hasked, hrest⟩ := h
  exact ⟨htx, digest, key, signature, block, held, kept, hdigest, hsub hasked, hrest⟩

theorem signedAgain_of_ends (h : ((signAll [coin] .default cancellation).applyTo before).Ends exchanges (.ok after)) :
    SignedAgain exchanges coin before after := by
  obtain ⟨_, htakes⟩ := ends_applyTo_ok.mp h
  rcases takes_signAll_cases htakes with ⟨_, hfailed, _⟩ | ⟨hcount, hsign⟩
  · exact absurd rfl hfailed
  · have hsign : (signInputs [coin.output] [(0, coin)] .default cancellation).Takes before exchanges (.ok ()) after :=
      hsign
    obtain ⟨rfl, hverified, hall⟩ := recorded_of_signInputs hsign
    obtain ⟨hreachable, hlength⟩ := hall rfl
    obtain ⟨signed, haccepted⟩ := List.length_eq_one_iff.mp hlength
    obtain ⟨held, hheld⟩ := List.length_eq_one_iff.mp hcount.symm
    obtain ⟨wallet, digest, hasked, hverify⟩ := mem_of_mem_accepted (haccepted ▸ List.mem_singleton.mpr rfl)
    obtain ⟨spend, hspend, rfl, hdigest⟩ := asked_of_signInputs hsign hasked
    cases List.mem_singleton.mp hspend
    obtain ⟨block, hblock, hontop⟩ := coin.signedOnTop .default signed held
    rw [haccepted, recorded, hreachable]
    refine ⟨rfl, digest, signed.1, signed.2, block, held, _, hdigest, hasked, hverify, hblock, hheld, ?_, hontop⟩
    show (before.inputs.modify 0 coin.preparation).modify 0 (coin.recording .default signed) = _
    rw [hheld]
    rfl

/-- Whatever the operator returned and the wallet answers: each checkpoint that is signed again is one of the payment's
and the same transaction, and its input holds what it held. Only the wallet's own signature, the script under the coin's
control block, and the records of the coin's scripts and extra witness are written. -/
theorem cosignCheckpoints_keeps (h : (cosignCheckpoints payment returned).Ends exchanges (.ok finalized)) :
    List.Forall₂ (fun before after => ∃ coin, payment.coinOf? before.txid = some coin ∧
      SignedAgain exchanges coin before after) returned finalized := by
  obtain ⟨_, h⟩ := ends_unless_ok.mp h
  refine (ends_mapM_ok h).imp fun before after hpart => ?_
  obtain ⟨part, hsub, hrun⟩ := hpart
  obtain ⟨coin, hcoin, hsign⟩ := ends_cosignCheckpoint_coin hrun
  exact ⟨coin, hcoin, (signedAgain_of_ends hsign).mono hsub⟩

/-! A payment of one checkpoint, which the operator returns with a signature and a record of its own. -/

def singlePayment : OffchainPayment :=
  ⟨unsignedMove, [⟨sentCoin 0, unsignedMove, movedCoin firstName⟩]⟩

def operatorSigner : SignerKey := ⟨unspendableKey, leafHash openScript⟩

def operatorSignature : TapSignature := ⟨ownerSignature secondDigest, .default⟩

def operatorRecord : RecordKey := ⟨1, [7]⟩

def operatorMaps : InputMaps :=
  (InputMaps.empty.addSignature operatorSigner.key operatorSigner.leaf operatorSignature).setRecord operatorRecord [1]

theorem find?_operatorMaps : operatorMaps.signatures.find? operatorSigner = some operatorSignature := by
  have hsignatures : operatorMaps.signatures =
      (InputMaps.empty.addSignature operatorSigner.key operatorSigner.leaf operatorSignature).signatures := rfl
  rw [hsignatures, InputMaps.addSignature, SortedMap.find?_insert, if_pos rfl]

theorem find?_records_operatorMaps : operatorMaps.records.find? operatorRecord = some [1] := by
  rw [operatorMaps, InputMaps.setRecord, SortedMap.find?_insert, if_pos rfl]

theorem length_operatorMaps : [operatorMaps].length = (moving 0).inputs.length := rfl

def returnedMove : Psbt := ⟨moving 0, [operatorMaps], length_operatorMaps⟩

/-- The wallet's answer. -/
def ownerAnswer : Exchange := ⟨.sign "" firstDigest, .ok (ownerKey, ownerSignature firstDigest)⟩

theorem coinOf?_singlePayment : singlePayment.coinOf? returnedMove.txid = some (sentCoin 0) := by
  have hname : unsignedMove.txid = returnedMove.txid := rfl
  simp [OffchainPayment.coinOf?_eq, singlePayment, Checkpoint.txid, hname]

theorem sighash_moving_first :
    (moving 0).sighash [sentOutput.output] 0 (leafHash openScript) .default = .ok firstDigest :=
  sighash_of_digests digests_moving_first

theorem ends_cosignCheckpoint_returnedMove :
    ∃ signed, (cosignCheckpoint singlePayment returnedMove).Ends [ownerAnswer] (.ok signed) := by
  have hverify : Schnorr.verify ownerKey firstDigest (ownerSignature firstDigest) = true :=
    verify_ownerSignature firstDigest List.mem_cons_self
  have hsigned : ∃ signed, (signInputs [sentOutput.output] [(0, sentCoin 0)] .default .committed).Takes returnedMove
      [ownerAnswer] (.ok ()) signed :=
    ⟨_, takes_signInputs_singleton Nat.zero_lt_one sighash_moving_first (takes_signInput .committed hverify _)⟩
  obtain ⟨signed, hsigned⟩ := hsigned
  rw [cosignCheckpoint_eq coinOf?_singlePayment]
  exact ⟨signed, ends_applyTo_ok.mpr ⟨(), takes_signAll rfl hsigned⟩⟩

theorem cosignCheckpoints_keeps_operatorSignature :
    ∃ exchanges finalized, (cosignCheckpoints singlePayment [returnedMove]).Ends exchanges (.ok [finalized]) ∧
      finalized.signature? 0 operatorSigner = some operatorSignature ∧
      finalized.signature? 0 ⟨ownerKey, leafHash openScript⟩ = some ⟨ownerSignature firstDigest, .default⟩ ∧
      ∀ maps ∈ finalized.inputs, maps.records.find? operatorRecord = some [1] := by
  obtain ⟨finalized, hcosign⟩ := ends_cosignCheckpoint_returnedMove
  obtain ⟨exchanges, hall, hanswers⟩ : ∃ exchanges, ([returnedMove].mapM (cosignCheckpoint singlePayment)).Ends
      exchanges (.ok [finalized]) ∧ ∀ exchange ∈ exchanges, exchange = ownerAnswer :=
    exists_ends_mapM (.cons ⟨_, hcosign, List.forall_mem_singleton.mpr rfl⟩ .nil)
  have hcount : [returnedMove].length = singlePayment.checkpoints.length := rfl
  have hends : (cosignCheckpoints singlePayment [returnedMove]).Ends exchanges (.ok [finalized]) := by
    unfold cosignCheckpoints
    exact ends_unless_ok.mpr ⟨not_not_intro hcount, hall⟩
  obtain ⟨⟨coin, hcoin, hagain⟩, _⟩ := List.forall₂_cons.mp (cosignCheckpoints_keeps hends)
  rw [coinOf?_singlePayment] at hcoin
  cases hcoin
  obtain ⟨_, digest, key, signature, block, held, kept, _, hasked, _, _, hheld, hkept, hontop⟩ := hagain
  cases hheld
  cases hanswers _ hasked
  have hother : operatorSigner ≠ ⟨ownerKey, leafHash openScript⟩ := by
    intro hsame
    have hkeys : unspendableKey = ownerKey := congrArg SignerKey.key hsame
    exact absurd hkeys (by decide +kernel)
  refine ⟨exchanges, finalized, hends, ?_, ?_, ?_⟩
  · rw [Psbt.signature?, hkept]
    exact (hontop.otherSignatures operatorSigner hother).trans find?_operatorMaps
  · rw [Psbt.signature?, hkept]
    exact hontop.signature
  · rw [hkept]
    refine List.forall_mem_singleton.mpr ?_
    exact (hontop.otherRecords operatorRecord rfl fun _ => rfl).trans find?_records_operatorMaps

end Spend

end Vtxo
