import Vtxo.Proofs.Spend.Conservation
import Vtxo.Proofs.Spend.Signatures
import Vtxo.Spend.Forfeit

/-!
# Forfeits with and without a connector

A forfeit is signed for one input and all outputs if there is no connector yet. Such a digest says nothing of other
inputs, and the value that the operator gets leaves room for a connector that is worth the dust limit. So the signature is
one for the forfeit that such a connector is added to. With a connector everything is signed, the operator gets the
value of both inputs, and only the input of the coin carries a signature.

  1. `Transaction.sighash_eq_of_anyoneCanPay`: digests that cover one input.
  2. `ends_buildForfeit_cases`: the runs of a forfeit.
  3. `onlySignature_of_ends`: the signature that a forfeit holds.
  4. `forfeit_survives_connector`: the digest that is signed without a connector, and the forfeit with one.
-/

set_option autoImplicit false

namespace Vtxo

/-! ## Digests that cover one input -/

namespace Transaction

variable {tx other : Transaction} {prevouts others : List TxOut} {index : Nat} {kind : SighashType}

theorem outputsDigest_congr (h : tx.outputs = other.outputs) (cover : OutputCover) :
    tx.outputsDigest index cover = other.outputsDigest index cover := by
  cases cover <;> simp only [outputsDigest, h]

/-- Where only the signed input is covered, the other inputs and what they spend are of no matter. -/
theorem sighash_eq_of_anyoneCanPay (hkind : kind.anyoneCanPay = true) (hcount : prevouts.length = tx.inputs.length)
    (hcountOther : others.length = other.inputs.length) (hversion : tx.version = other.version)
    (hlockTime : tx.lockTime = other.lockTime) (houtputs : tx.outputs = other.outputs)
    (hinput : tx.inputs[index]? = other.inputs[index]?) (hprevout : prevouts[index]? = others[index]?)
    (leaf : Sized 32) : tx.sighash prevouts index leaf kind = other.sighash others index leaf kind := by
  have hposition : tx.positionBytes prevouts index true = other.positionBytes others index true := by
    rw [positionBytes, positionBytes, hinput, hprevout]
  unfold sighash sighashMessage
  rw [if_neg (not_not_intro hcount), if_neg (not_not_intro hcountOther), outputsDigest_congr houtputs]
  simp only [hkind, if_true, hversion, hlockTime, hposition]

end Transaction

theorem Psbt.length_blank (tx : Transaction) :
    (List.replicate tx.inputs.length InputMaps.empty).length = tx.inputs.length :=
  List.length_replicate

/-- A transaction about whose inputs nothing is known. -/
def Psbt.blank (tx : Transaction) : Psbt :=
  ⟨tx, List.replicate tx.inputs.length .empty, length_blank tx⟩

theorem Psbt.signature?_blank (tx : Transaction) (index : Nat) (signer : SignerKey) :
    (blank tx).signature? index signer = none := by
  unfold signature? blank
  rw [List.getElem?_replicate]
  split <;> rfl

namespace Spend

open Attempt Edit
open Settlement (worth)

variable {coin : Coin} {connector : Option Connector} {info : OperatorInfo} {value : Amount} {psbt : Psbt}
  {exchanges : List Exchange}

/-! ## Runs of a forfeit -/

/-- The outputs that a forfeit spends. -/
def forfeitPrevouts (coin : Coin) (connector : Option Connector) : List TxOut :=
  coin.output :: (connector.map Connector.output).toList

/-- The forfeit before it is signed. -/
def unsignedForfeit (coin : Coin) (connector : Option Connector) (info : OperatorInfo) (value : Amount) : Psbt :=
  recordConnector connector (.blank (forfeitTransaction coin connector info value))

theorem tx_unsignedForfeit (coin : Coin) (connector : Option Connector) (info : OperatorInfo) (value : Amount) :
    (unsignedForfeit coin connector info value).tx = forfeitTransaction coin connector info value := by
  cases connector <;> rfl

theorem signature?_unsignedForfeit (index : Nat) (signer : SignerKey) :
    (unsignedForfeit coin connector info value).signature? index signer = none := by
  cases connector with
  | none => exact Psbt.signature?_blank _ _ _
  | some connector =>
    rw [← Psbt.signature?_blank (forfeitTransaction coin (some connector) info value) index signer]
    have hkept : ∀ change ∈ [(1, fun maps : InputMaps => { maps with utxo := some connector.output })],
        ∀ maps, (change.2 maps).signatures = maps.signatures := List.forall_mem_singleton.mpr fun _ => rfl
    exact Psbt.signature?_congr (Psbt.map_inputs_modifyInputs _ InputMaps.signatures hkept) index signer

theorem length_forfeitPrevouts (coin : Coin) (connector : Option Connector) (info : OperatorInfo) (value : Amount) :
    (forfeitPrevouts coin connector).length = (forfeitTransaction coin connector info value).inputs.length := by
  cases connector <;> rfl

theorem length_unsignedForfeit_pos : 0 < (unsignedForfeit coin connector info value).inputs.length := by
  rw [Psbt.sized, tx_unsignedForfeit, ← length_forfeitPrevouts]
  exact Nat.zero_lt_succ _

theorem ofTransaction_forfeitTransaction (coin : Coin) (connector : Option Connector) (info : OperatorInfo)
    (value : Amount) :
    Psbt.ofTransaction (forfeitTransaction coin connector info value) =
      .ok (.blank (forfeitTransaction coin connector info value)) := by
  cases connector <;> exact if_pos rfl

/-- The signing of a forfeit. -/
def signForfeit (coin : Coin) (connector : Option Connector) (info : OperatorInfo) (value : Amount) : Attempt Psbt :=
  (signInputs (forfeitPrevouts coin connector) [(0, coin)] (forfeitCover connector) .watched).applyTo
    (unsignedForfeit coin connector info value)

/-- A forfeit that has a value is signed unless it is cancelled first. -/
theorem ends_buildForfeit {outcome : Except Error Psbt} (hforfeit : coin.canForfeit = true)
    (hvalue : forfeitValue coin.amount (topUp connector info) = .ok value)
    (h : (signForfeit coin connector info value).Ends exchanges outcome) :
    (buildForfeit coin connector info).Ends (⟨.cancelled, false⟩ :: exchanges) outcome := by
  refine ends_unless.mpr (.inr ⟨by simp [hforfeit], ends_ofExcept_bind.mpr (.inl ⟨value, hvalue, ?_⟩)⟩)
  refine ends_ofExcept_bind.mpr (.inl ⟨_, ofTransaction_forfeitTransaction coin connector info value, ?_⟩)
  exact ends_bind.mpr (.inl ⟨(), _, exchanges, rfl, ends_checkCancelled_ok.mpr rfl, h⟩)

/-- A forfeit is signed, or it fails before anything is asked to be signed. -/
theorem ends_buildForfeit_cases {outcome : Except Error Psbt}
    (h : (buildForfeit coin connector info).Ends exchanges outcome) :
    (∃ value signing, coin.canForfeit = true ∧ forfeitValue coin.amount (topUp connector info) = .ok value ∧
      exchanges = ⟨.cancelled, false⟩ :: signing ∧ (signForfeit coin connector info value).Ends signing outcome) ∨
    (∃ error, outcome = .error error) ∧ exchanges ⊆ [⟨.cancelled, true⟩] := by
  rcases ends_unless.mp h with ⟨_, rfl, rfl⟩ | ⟨hforfeit, h⟩
  · exact .inr ⟨⟨_, rfl⟩, List.nil_subset _⟩
  · rcases ends_ofExcept_bind.mp h with ⟨value, hvalue, h⟩ | ⟨error, _, rfl, rfl⟩
    · rcases ends_ofExcept_bind.mp h with ⟨unsigned, hunsigned, h⟩ | ⟨error, _, rfl, rfl⟩
      · rw [ofTransaction_forfeitTransaction] at hunsigned
        cases hunsigned
        rcases ends_bind.mp h with ⟨_, looking, signing, rfl, hlook, hsign⟩ | ⟨error, hlook, rfl⟩
        · cases ends_checkCancelled_ok.mp hlook
          exact .inl ⟨value, signing, by simpa using hforfeit, hvalue, rfl, hsign⟩
        · rw [ends_checkCancelled_error hlook]
          exact .inr ⟨⟨error, rfl⟩, List.Subset.refl _⟩
      · exact .inr ⟨⟨_, rfl⟩, List.nil_subset _⟩
    · exact .inr ⟨⟨_, rfl⟩, List.nil_subset _⟩

/-- Everything that is asked to be signed for a forfeit is the digest of its first input. -/
theorem asked_of_buildForfeit {outcome : Except Error Psbt}
    (h : (buildForfeit coin connector info).Ends exchanges outcome) {wallet : String} {digest : Sized 32}
    {answer : Reply (.sign wallet digest)} (hasked : ⟨.sign wallet digest, answer⟩ ∈ exchanges) :
    wallet = coin.wallet ∧ ∃ value, forfeitValue coin.amount (topUp connector info) = .ok value ∧
      (forfeitTransaction coin connector info value).sighash (forfeitPrevouts coin connector) 0 (leafHash coin.leaf)
        (forfeitCover connector) = .ok digest := by
  rcases ends_buildForfeit_cases h with ⟨value, signing, _, hvalue, rfl, hsign⟩ | ⟨_, hsub⟩
  · obtain ⟨_, _, htakes, _⟩ := ends_applyTo.mp hsign
    rcases List.mem_cons.mp hasked with hlook | hsigning
    · cases hlook
    · obtain ⟨spend, hspend, hwallet, hdigest⟩ := asked_of_signInputs htakes hsigning
      cases List.mem_singleton.mp hspend
      rw [tx_unsignedForfeit] at hdigest
      exact ⟨hwallet, value, hvalue, hdigest⟩
  · cases List.mem_singleton.mp (hsub hasked)

/-! ## The signature that a forfeit holds -/

/-- The transaction has one signature, which is one of its first input for the script of the coin. -/
structure OnlySignature (psbt : Psbt) (coin : Coin) (kind : SighashType) (key : XOnlyKey) (signature : Signature) :
    Prop where
  held : psbt.signature? 0 ⟨key, leafHash coin.leaf⟩ = some ⟨signature, kind⟩
  only : ∀ index signer found, psbt.signature? index signer = some found → index = 0 ∧ signer = ⟨key, leafHash coin.leaf⟩

/-- Preparing the first input completes what is known of the spent outputs. -/
theorem utxo_preparation_unsignedForfeit (coin : Coin) (connector : Option Connector) (info : OperatorInfo)
    (value : Amount) :
    ((unsignedForfeit coin connector info value).modifyInputs (preparations [(0, coin)])).inputs.map InputMaps.utxo =
      (forfeitPrevouts coin connector).map some := by
  cases connector with
  | none =>
    show [(coin.preparation .empty).utxo] = [some coin.output]
    rw [coin.utxo_preparation]
  | some connector =>
    show [(coin.preparation .empty).utxo, some connector.output] = [some coin.output, some connector.output]
    rw [coin.utxo_preparation]

/-- A forfeit that is signed holds one signature, and knows what its inputs spend. -/
theorem onlySignature_of_ends (h : (signForfeit coin connector info value).Ends exchanges (.ok psbt)) :
    psbt.tx = forfeitTransaction coin connector info value ∧
      psbt.inputs.map InputMaps.utxo = (forfeitPrevouts coin connector).map some ∧
      ∃ key signature, OnlySignature psbt coin (forfeitCover connector) key signature ∧
        Verified psbt.tx (forfeitPrevouts coin connector) (forfeitCover connector) (0, coin) (key, signature) := by
  obtain ⟨_, htakes⟩ := ends_applyTo_ok.mp h
  obtain ⟨rfl, hverified, hall⟩ := recorded_of_signInputs htakes
  obtain ⟨hreachable, hlength⟩ := hall rfl
  obtain ⟨⟨key, signature⟩, haccepted⟩ := List.length_eq_one_iff.mp hlength
  rw [haccepted] at hverified ⊢
  have htx : (recorded (unsignedForfeit coin connector info value) [(0, coin)] (forfeitCover connector)
      [(key, signature)]).tx = forfeitTransaction coin connector info value :=
    (Psbt.tx_modifyInputs.trans Psbt.tx_modifyInputs).trans (tx_unsignedForfeit coin connector info value)
  have hentry : ((0, coin), key, signature) ∈ [(0, coin)].zip [(key, signature)] := List.mem_singleton.mpr rfl
  refine ⟨htx, ?_, key, signature, ⟨?_, fun index signer found hfound => ?_⟩, ?_⟩
  · have hkept : ∀ change ∈ recordings (forfeitCover connector) [(0, coin)] [(key, signature)], ∀ maps,
        (change.2 maps).utxo = maps.utxo := List.forall_mem_map.mpr fun _ _ _ => rfl
    rw [recorded, hreachable, Psbt.map_inputs_modifyInputs _ InputMaps.utxo hkept, utxo_preparation_unsignedForfeit]
  · have hdistinct : ([(0, coin)].map Prod.fst).Nodup := List.nodup_singleton 0
    refine signature?_of_mem hdistinct hentry ?_
    rw [Psbt.length_modifyInputs]
    exact length_unsignedForfeit_pos
  · rcases signature?_recordings hfound with hbefore | ⟨entry, hmem, rfl, rfl, _⟩
    · rw [signature?_preparations, signature?_unsignedForfeit] at hbefore
      cases hbefore
    · cases List.mem_singleton.mp hmem
      exact ⟨rfl, rfl⟩
  · rw [htx, ← tx_unsignedForfeit]
    exact (hverified _ hentry).2

/-! ## What is signed is asked for -/

/-- A forfeit is signed as its first input is. -/
theorem ends_signForfeit {digest : Sized 32} {outcome : Except Error Unit}
    (hdigest : (forfeitTransaction coin connector info value).sighash (forfeitPrevouts coin connector) 0
      (leafHash coin.leaf) (forfeitCover connector) = .ok digest)
    (hsign : ∀ prepared, ∃ after,
      (signInput (forfeitCover connector) .watched 0 coin digest).Takes prepared exchanges outcome after) :
    ∃ after, (signForfeit coin connector info value).Ends exchanges (outcome.map fun _ => after) := by
  rw [← tx_unsignedForfeit] at hdigest
  obtain ⟨after, hsigned⟩ := hsign _
  refine ⟨after, ends_applyTo.mpr ⟨outcome, after, takes_signInputs_singleton ?_ hdigest hsigned, rfl⟩⟩
  exact length_unsignedForfeit_pos

/-! ## Adding a connector -/

/-- The digest that covers the coin's input and all outputs of a forfeit with a connector. -/
def connectedDigest (coin : Coin) (connector : Connector) (info : OperatorInfo) : Except Error (Sized 32) := do
  let value ← forfeitValue coin.amount connector.output.value
  (forfeitTransaction coin (some connector) info value).sighash [coin.output, connector.output] 0 (leafHash coin.leaf)
    (.explicit .all true)

theorem connectedDigest_eq_ok {coin : Coin} {connector : Connector} {info : OperatorInfo} {digest : Sized 32} :
    connectedDigest coin connector info = .ok digest ↔
      ∃ value, forfeitValue coin.amount connector.output.value = .ok value ∧
        (forfeitTransaction coin (some connector) info value).sighash [coin.output, connector.output] 0
          (leafHash coin.leaf) (.explicit .all true) = .ok digest :=
  bind_eq_ok

/-- A connector that is added leaves the digest as it is. -/
theorem sighash_forfeitTransaction (coin : Coin) (connector : Connector) (info : OperatorInfo) (value : Amount) :
    (forfeitTransaction coin none info value).sighash [coin.output] 0 (leafHash coin.leaf) (.explicit .all true) =
      (forfeitTransaction coin (some connector) info value).sighash [coin.output, connector.output] 0
        (leafHash coin.leaf) (.explicit .all true) := by
  refine Transaction.sighash_eq_of_anyoneCanPay ?_ ?_ ?_ ?_ ?_ ?_ ?_ ?_ _ <;> rfl

/-- A forfeit with a connector, as it is signed. -/
structure SignedConnected (coin : Coin) (connector : Connector) (info : OperatorInfo) (psbt : Psbt) : Prop where
  inputs : psbt.tx.inputs = [coin.input, connector.input]
  spends : psbt.inputs.map InputMaps.utxo = [some coin.output, some connector.output]
  /-- The operator gets the value of both inputs. -/
  worth_eq : worth psbt.tx.outputs = coin.amount.toNat + connector.output.value.toNat
  worth_le : worth psbt.tx.outputs ≤ Amount.maxMoney.toNat
  signed : ∃ key signature, OnlySignature psbt coin .default key signature ∧
    Verified psbt.tx [coin.output, connector.output] .default (0, coin) (key, signature)

theorem worth_forfeitTransaction (coin : Coin) (connector : Option Connector) (info : OperatorInfo) (value : Amount) :
    worth (forfeitTransaction coin connector info value).outputs = value.toNat := rfl

/-- Without a connector one digest is asked to be signed: the one that covers the coin's input and all outputs of the
forfeit with any connector that is worth the dust limit. So the signature that the forfeit holds is one for the forfeit
with the connector. With a connector, whatever it is worth, the outputs have the value of both inputs and there is one
signature, on the coin's input. -/
theorem forfeit_survives_connector (coin : Coin) (info : OperatorInfo) (connector : Connector) :
    (connector.output.value = info.dust →
      (∀ exchanges outcome, (buildForfeit coin none info).Ends exchanges outcome →
        ∀ wallet digest answer, ⟨.sign wallet digest, answer⟩ ∈ exchanges →
          wallet = coin.wallet ∧ connectedDigest coin connector info = .ok digest) ∧
      (coin.canForfeit = true → ∀ digest, connectedDigest coin connector info = .ok digest → ∀ answer,
        ∃ outcome, (buildForfeit coin none info).Ends
          [⟨.cancelled, false⟩, ⟨.cancelled, false⟩, ⟨.sign coin.wallet digest, answer⟩] outcome) ∧
      ∀ exchanges alone, (buildForfeit coin none info).Ends exchanges (.ok alone) →
        ∃ key signature digest, OnlySignature alone coin (.explicit .all true) key signature ∧
          connectedDigest coin connector info = .ok digest ∧ Schnorr.verify key digest signature = true) ∧
    ∀ exchanges connected, (buildForfeit coin (some connector) info).Ends exchanges (.ok connected) →
      SignedConnected coin connector info connected ∧
        connected.tx.sighash [coin.output, connector.output] 0 (leafHash coin.leaf) (.explicit .all true) =
          connectedDigest coin connector info := by
  have htopUp : connector.output.value = info.dust → topUp none info = connector.output.value := Eq.symm
  refine ⟨fun hdust => ⟨?_, ?_, ?_⟩, ?_⟩
  · intro exchanges outcome h wallet digest answer hasked
    obtain ⟨hwallet, value, hvalue, hdigest⟩ := asked_of_buildForfeit h hasked
    rw [htopUp hdust] at hvalue
    refine ⟨hwallet, connectedDigest_eq_ok.mpr ⟨value, hvalue, ?_⟩⟩
    rw [← sighash_forfeitTransaction]
    exact hdigest
  · intro hforfeit digest hdigest answer
    obtain ⟨value, hvalue, hdigest⟩ := connectedDigest_eq_ok.mp hdigest
    rw [← sighash_forfeitTransaction] at hdigest
    rw [← htopUp hdust] at hvalue
    obtain ⟨outcome, hsign⟩ := exists_takes_signInput (.explicit .all true) .watched 0 coin digest answer
    obtain ⟨after, hforfeited⟩ := ends_signForfeit hdigest hsign
    exact ⟨outcome.map fun _ => after, ends_buildForfeit hforfeit hvalue hforfeited⟩
  · intro exchanges alone h
    rcases ends_buildForfeit_cases h with ⟨value, signing, _, hvalue, _, hsign⟩ | ⟨⟨_, hfailed⟩, _⟩
    · obtain ⟨htx, _, key, signature, honly, digest, hdigest, hverify⟩ := onlySignature_of_ends hsign
      rw [htopUp hdust] at hvalue
      refine ⟨key, signature, digest, honly, connectedDigest_eq_ok.mpr ⟨value, hvalue, ?_⟩, hverify⟩
      rw [← sighash_forfeitTransaction, ← htx]
      exact hdigest
    · cases hfailed
  · intro exchanges connected h
    rcases ends_buildForfeit_cases h with ⟨value, signing, _, hvalue, _, hsign⟩ | ⟨⟨_, hfailed⟩, _⟩
    · obtain ⟨htx, hspends, hsigned⟩ := onlySignature_of_ends hsign
      obtain ⟨hsum, hmax⟩ := forfeitValue_eq_ok.mp hvalue
      have hworth : worth connected.tx.outputs = value.toNat := by
        rw [htx, worth_forfeitTransaction]
      have hinputs : connected.tx.inputs = [coin.input, connector.input] := by
        rw [htx]
        rfl
      have hvalue : forfeitValue coin.amount connector.output.value = .ok value := hvalue
      refine ⟨⟨hinputs, hspends, hworth.trans hsum.symm, hworth ▸ hmax, hsigned⟩, ?_⟩
      rw [htx, connectedDigest, hvalue]
      rfl
    · cases hfailed

/-! A forfeit that pays what `paying` pays, so that the connected one is that transaction. -/

def forfeitOperator : OperatorInfo :=
  { sampleOperator with dust := ⟨1000⟩, forfeitScript := requestedOutput.script }

def sampleConnector : Connector :=
  ⟨(movedCoin secondName).outpoint, movedOutput.output⟩

theorem forfeitTransaction_movedCoin :
    forfeitTransaction (movedCoin firstName) (some sampleConnector) forfeitOperator requestedOutput.value = paying := rfl

def connectedForfeitDigest : Sized 32 :=
  digestOf 0x560ea64b02b28c2341b71e0570be572246197fa45e80f722ca7ff626b2e8f71f

theorem sighash_paying_anyoneCanPay :
    paying.sighash [movedOutput.output, movedOutput.output] 0 (leafHash openScript) (.explicit .all true) =
      .ok connectedForfeitDigest := by
  decide +kernel

theorem verify_connectedForfeitDigest :
    Schnorr.verify ownerKey connectedForfeitDigest (ownerSignature connectedForfeitDigest) = true := by
  decide +kernel

/-- The digest of the first input that covers everything. -/
theorem exists_sighash_paying : ∃ digest ∈ payingDigests,
    paying.sighash [movedOutput.output, movedOutput.output] 0 (leafHash openScript) .default = .ok digest :=
  ⟨_, List.mem_cons_self, sighash_of_digests digests_paying⟩

theorem exists_ends_buildForfeit_movedCoin (connector : Option Connector) {digest : Sized 32}
    (hvalue : topUp connector forfeitOperator = ⟨1000⟩)
    (hdigest : (forfeitTransaction (movedCoin firstName) connector forfeitOperator requestedOutput.value).sighash
      (forfeitPrevouts (movedCoin firstName) connector) 0 (leafHash openScript) (forfeitCover connector) = .ok digest)
    (hverify : Schnorr.verify ownerKey digest (ownerSignature digest) = true) :
    ∃ exchanges psbt, (buildForfeit (movedCoin firstName) connector forfeitOperator).Ends exchanges (.ok psbt) := by
  have hsum : forfeitValue (movedCoin firstName).amount (topUp connector forfeitOperator) = .ok requestedOutput.value := by
    rw [hvalue]
    exact forfeitValue_eq_ok.mpr ⟨rfl, by decide⟩
  have hsign : ∀ prepared, ∃ after, (signInput (forfeitCover connector) .watched 0 (movedCoin firstName) digest).Takes
      prepared [⟨.cancelled, false⟩, ⟨.sign "" digest, .ok (ownerKey, ownerSignature digest)⟩] (.ok ()) after :=
    fun prepared => ⟨_, takes_signInput .watched hverify prepared⟩
  obtain ⟨psbt, hsigned⟩ := ends_signForfeit hdigest hsign
  exact ⟨_, psbt, ends_buildForfeit rfl hsum hsigned⟩

theorem forfeit_survives_connector_paying :
    ∃ exchanges alone signing connected key signature,
      (buildForfeit (movedCoin firstName) none forfeitOperator).Ends exchanges (.ok alone) ∧
      (buildForfeit (movedCoin firstName) (some sampleConnector) forfeitOperator).Ends signing (.ok connected) ∧
      alone.signature? 0 ⟨key, leafHash openScript⟩ = some ⟨signature, .explicit .all true⟩ ∧
      Verified connected.tx [movedOutput.output, movedOutput.output] (.explicit .all true) (0, movedCoin firstName)
        (key, signature) := by
  have hcovered : (forfeitTransaction (movedCoin firstName) none forfeitOperator requestedOutput.value).sighash
      [movedOutput.output] 0 (leafHash openScript) (.explicit .all true) = .ok connectedForfeitDigest := by
    rw [← sighash_paying_anyoneCanPay, ← forfeitTransaction_movedCoin]
    exact sighash_forfeitTransaction _ _ _ _
  obtain ⟨exchanges, alone, halone⟩ := exists_ends_buildForfeit_movedCoin none rfl hcovered verify_connectedForfeitDigest
  obtain ⟨digest, hmem, hdigest⟩ := exists_sighash_paying
  obtain ⟨signing, connected, hsigning⟩ := exists_ends_buildForfeit_movedCoin (some sampleConnector) rfl hdigest
    (verify_ownerSignature digest (List.mem_cons_of_mem _ (List.mem_cons_of_mem _ hmem)))
  obtain ⟨hsurvives, hconnects⟩ := forfeit_survives_connector (movedCoin firstName) forfeitOperator sampleConnector
  obtain ⟨key, signature, covered, honly, hcovered, hverify⟩ := (hsurvives rfl).2.2 exchanges alone halone
  obtain ⟨_, hsame⟩ := hconnects signing connected hsigning
  exact ⟨exchanges, alone, signing, connected, key, signature, halone, hsigning, honly.held, covered,
    hsame.trans hcovered, hverify⟩

end Spend

end Vtxo
