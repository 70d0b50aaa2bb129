import Vtxo.Proofs.Contract.Leaves
import Vtxo.Proofs.Psbt.Records
import Vtxo.Proofs.Spend.Recording

/-!
# Witnesses of leaves

The witness of an input that is prepared for a leaf is a stack that the leaf accepts, if a signature is recorded for each
key the leaf checks. Its signatures lie below what opens the hash lock, and the one that is checked first lies on top of
the others. Where a signature is missing there is no witness.

  1. `InputMaps.Prepared`, `InputMaps.prepared_prepare`: an input that says how it is spent.
  2. `InputMaps.signaturesFor_eq_ok`, `InputMaps.signaturesFor_eq_error`: the signatures in a witness.
  3. `Psbt.finalizeWitness_spends`: what the witness of a contract's leaf does.
-/

set_option autoImplicit false

namespace Vtxo

open ScriptOp

namespace InputMaps

/-! ## Prepared inputs -/

/-- The leaf's script is the one that the input is spent through, and what the input holds for the witness besides
signatures opens the leaf's hash locks. -/
structure Prepared (maps : InputMaps) (leaf : Leaf) : Prop where
  first_script : ∃ block version, maps.leafScripts.entries.head? = some (block, leaf.script, version)
  opened : ∃ held, maps.condition = .ok held ∧ Opened leaf.locks (held.getD []).reverse

/-- Signatures that are recorded later change nothing about this. -/
theorem Prepared.addSignature {maps : InputMaps} {leaf : Leaf} (h : maps.Prepared leaf) (key : XOnlyKey)
    (digest : Sized 32) (signature : TapSignature) : (maps.addSignature key digest signature).Prepared leaf :=
  ⟨h.first_script, h.opened⟩

/-- The signature that is recorded for a key and the leaf. -/
def signatureOf? (maps : InputMaps) (leaf : Leaf) (key : XOnlyKey) : Option TapSignature :=
  maps.signatures.find? ⟨key, leafHash leaf.script⟩

/-- Whether a signature is the one that is recorded for a key, in the form in which both are on the stack. -/
def recorded (maps : InputMaps) (leaf : Leaf) (key signature : Bytes) : Bool :=
  ((XOnlyKey.ofBytes? key).bind (maps.signatureOf? leaf)).any fun found => found.bytes == signature

theorem recorded_of_signatureOf? {maps : InputMaps} {leaf : Leaf} {key : XOnlyKey} {signature : TapSignature}
    (h : maps.signatureOf? leaf key = some signature) : maps.recorded leaf key.bytes signature.bytes = true := by
  rw [recorded, key.ofBytes?_bytes, Option.bind_some, h, Option.any_some]
  exact beq_self_eq_true _

/-- An input about which nothing was known is prepared by what the coin says, unless its witness is too long to be read
back. -/
theorem prepared_prepare {coin : Coin} {leaf : Leaf} (hleaf : coin.leaf = leaf.script) {maps : InputMaps}
    (hscripts : maps.leafScripts = .empty) (hcondition : maps.record? .condition = none)
    (hopened : Opened leaf.locks (coin.extraWitness.getD []).reverse)
    (hfits : ((coin.extraWitness.getD []).flatMap countedBytes).length ≤ maxWitnessBytes)
    (commitment : Commitment) (block : ControlBlock) : (coin.prepare commitment block maps).Prepared leaf := by
  have hfirst : ∃ version, (maps.leafScripts.insert block (coin.leaf, .tapscript)).entries.head? =
      some (block, leaf.script, version) := by
    rw [hscripts, hleaf]
    exact ⟨.tapscript, rfl⟩
  rw [Coin.prepare]
  cases hextra : coin.extraWitness with
  | none =>
    rw [hextra] at hopened
    exact ⟨⟨block, hfirst⟩, none,
      condition_of_record?_none ((record?_replace_of_ne _ (by decide) _).trans hcondition), hopened⟩
  | some witness =>
    rw [hextra] at hopened hfits
    exact ⟨⟨block, hfirst⟩, some witness, condition_setCondition _ hfits, hopened⟩

/-! ## Signatures -/

/-- The signature of one key, as it goes into the witness. -/
def signatureBytes (maps : InputMaps) (index : Nat) (leaf : Leaf) (key : XOnlyKey) : Except Error Bytes :=
  match maps.signatureOf? leaf key with
  | some signature => .ok signature.bytes
  | none => .error (.signing (.missingSignature index key))

theorem signaturesFor_eq (maps : InputMaps) (index : Nat) {leaf : Leaf} (hplain : leaf.Plain) :
    maps.signaturesFor index leaf.script = leaf.keys.reverse.mapM (maps.signatureBytes index leaf) := by
  rw [signaturesFor, Leaf.script, (leaf.checksKeys hplain).signingKeys_build]
  rfl

/-- With all signatures there, the first key's is the last one. -/
theorem signaturesFor_eq_ok (maps : InputMaps) (index : Nat) {leaf : Leaf} (hplain : leaf.Plain)
    (h : ∀ key ∈ leaf.keys, (maps.signatureOf? leaf key).isSome = true) :
    ∃ signatures, maps.signaturesFor index leaf.script = .ok signatures ∧
      Signed (maps.recorded leaf) leaf.keys signatures.reverse := by
  have heach : ∀ key ∈ leaf.keys.reverse, ∃ signature, maps.signatureBytes index leaf key = .ok signature ∧
      maps.recorded leaf key.bytes signature = true := by
    intro key hmem
    obtain ⟨signature, hsignature⟩ := Option.isSome_iff_exists.mp (h key (List.mem_reverse.mp hmem))
    exact ⟨signature.bytes, by rw [signatureBytes, hsignature], recorded_of_signatureOf? hsignature⟩
  obtain ⟨signatures, hsignatures, hall⟩ := mapM_eq_ok heach
  refine ⟨signatures, (signaturesFor_eq maps index hplain).trans hsignatures, ?_⟩
  rw [Signed, ← List.forall₂_reverse_iff, List.reverse_reverse]
  exact hall

theorem signaturesFor_eq_error (maps : InputMaps) (index : Nat) {leaf : Leaf} (hplain : leaf.Plain) {key : XOnlyKey}
    (hkey : key ∈ leaf.keys) (h : maps.signatureOf? leaf key = none) :
    ∃ missing ∈ leaf.keys, maps.signatureOf? leaf missing = none ∧
      maps.signaturesFor index leaf.script = .error (.signing (.missingSignature index missing)) := by
  have hnone : ∃ error, maps.signatureBytes index leaf key = .error error := ⟨_, by rw [signatureBytes, h]⟩
  obtain ⟨missing, hmem, error, herror, hall⟩ := mapM_eq_error ⟨key, List.mem_reverse.mpr hkey, hnone⟩
  rw [signaturesFor_eq maps index hplain, hall]
  rw [signatureBytes] at herror
  cases hmissing : maps.signatureOf? leaf missing with
  | some signature =>
    rw [hmissing] at herror
    cases herror
  | none =>
    rw [hmissing] at herror
    cases herror
    exact ⟨missing, List.mem_reverse.mp hmem, hmissing, rfl⟩

/-! ## Witnesses -/

/-- All but the script and its control block is a stack on which the leaf leaves one true element. -/
theorem witness_spends {maps : InputMaps} {leaf : Leaf} (index : Nat) (hspendable : leaf.Spendable)
    (hprepared : maps.Prepared leaf) (h : ∀ key ∈ leaf.keys, (maps.signatureOf? leaf key).isSome = true) :
    ∃ witness top, maps.witness index = .ok witness ∧
      run (maps.recorded leaf) leaf.ops witness.dropLast.dropLast.reverse = some [top] ∧ isTrue top = true := by
  obtain ⟨block, version, hfirst⟩ := hprepared.first_script
  obtain ⟨others, hentries⟩ := List.head?_eq_some_iff.mp hfirst
  obtain ⟨held, hheld, hopened⟩ := hprepared.opened
  obtain ⟨signatures, hsignatures, hsigned⟩ := signaturesFor_eq_ok maps index hspendable.plain h
  have hwitness : maps.witness index = .ok (signatures ++ held.getD [] ++ [leaf.script, block.bytes]) := by
    rw [witness, hentries]
    exact bind_eq_ok.mpr ⟨signatures, hsignatures, bind_eq_ok.mpr ⟨held, hheld, rfl⟩⟩
  have hstack : (signatures ++ held.getD [] ++ [leaf.script, block.bytes]).dropLast.dropLast.reverse =
      (held.getD []).reverse ++ (signatures.reverse ++ []) := by
    rw [List.dropLast_append_cons, List.dropLast_cons_cons, List.dropLast_singleton, List.dropLast_concat,
      List.reverse_append, List.append_nil]
  refine ⟨_, ofBool true, hwitness, ?_, isTrue_ofBool true⟩
  rw [hstack]
  exact hspendable.takes _ _ _ [] hopened hsigned

theorem witness_missing {maps : InputMaps} {leaf : Leaf} (index : Nat) (hspendable : leaf.Spendable)
    (hprepared : maps.Prepared leaf) {key : XOnlyKey} (hkey : key ∈ leaf.keys) (h : maps.signatureOf? leaf key = none) :
    ∃ missing ∈ leaf.keys, maps.signatureOf? leaf missing = none ∧
      maps.witness index = .error (.signing (.missingSignature index missing)) := by
  obtain ⟨block, version, hfirst⟩ := hprepared.first_script
  obtain ⟨others, hentries⟩ := List.head?_eq_some_iff.mp hfirst
  obtain ⟨missing, hmem, hmissing, hsignatures⟩ := signaturesFor_eq_error maps index hspendable.plain hkey h
  refine ⟨missing, hmem, hmissing, ?_⟩
  rw [witness, hentries]
  change (maps.signaturesFor index leaf.script >>= _) = _
  rw [hsignatures]
  rfl

end InputMaps

/-- For each leaf of a contract that is made from parameters and each input that is prepared for the leaf: if a signature
of every key of the leaf is recorded, there is a witness, and the leaf's operations run on it, without the script and the
control block, leave one true element; a key without a signature is an error, which names such a key. -/
theorem Psbt.finalizeWitness_spends (contract : Contract) (hkind : contract.kind ≠ .explicit) {leaves : List Leaf}
    (hleaves : contract.leaves = .ok leaves) {leaf : Leaf} (hmem : leaf ∈ leaves) {psbt : Psbt} {index : Nat}
    {maps : InputMaps} (hmaps : psbt.inputs[index]? = some maps) (hprepared : maps.Prepared leaf) :
    ((∀ key ∈ leaf.keys, (maps.signatureOf? leaf key).isSome = true) →
      ∃ witness top, psbt.finalizeWitness index = .ok witness ∧
        run (maps.recorded leaf) leaf.ops witness.dropLast.dropLast.reverse = some [top] ∧ isTrue top = true) ∧
    ∀ key ∈ leaf.keys, maps.signatureOf? leaf key = none →
      ∃ missing ∈ leaf.keys, maps.signatureOf? leaf missing = none ∧
        psbt.finalizeWitness index = .error (.signing (.missingSignature index missing)) := by
  have hspendable := contract.spendable_of_mem_leaves hkind hleaves hmem
  rw [finalizeWitness, hmaps]
  exact ⟨maps.witness_spends index hspendable hprepared,
    fun _ hkey h => maps.witness_missing index hspendable hprepared hkey h⟩

/-! ## A claim with a preimage -/

/-- A contract of one key and a preimage. -/
def preimageOfOne : HashLockedPayment :=
  ⟨unspendableKey, unspendableKey, .sha256Of [1], .ofBlocks 1⟩

theorem tweak?_preimageOfOne :
    (((TapTree.branch (.leaf 0) (.leaf 1)).digest (preimageOfOne.leaves.map Leaf.script)).toOption.bind fun root =>
      unspendableKey.tweak? (Commitment.tweak unspendableKey root)).isSome = true := by
  decide +kernel

/-- A coin that is claimed with the preimage. -/
theorem exists_claimingCoin :
    ∃ coin : Coin, coin.leaf = preimageOfOne.claimLeaf.script ∧ coin.extraWitness = some [[1]] := by
  have hscripts : (Contract.hashLockedPayment preimageOfOne).scripts =
      .ok [preimageOfOne.claimLeaf.script, preimageOfOne.exitLeaf.script] := rfl
  obtain ⟨script, hscript⟩ := Coin.exists_outputScript_two (by rintro ⟨⟩) hscripts tweak?_preimageOfOne
  obtain ⟨coin, hmake, _⟩ := Coin.exists_make (.hashLockedPayment preimageOfOne) rfl rfl List.mem_cons_self ""
    ⟨.zero, 0⟩ ⟨⟨0⟩, script⟩ hscript
  have hleaf : coin.leaf = preimageOfOne.claimLeaf.script := Coin.leaf_of_make hmake
  exact ⟨coin.withExtraWitness [[1]], hleaf, rfl⟩

def claiming : Transaction :=
  ⟨transactionVersion, [⟨⟨.zero, 0⟩, [], replaceableSequence⟩], [], 0⟩

theorem length_inputs_claiming : [InputMaps.empty].length = claiming.inputs.length := rfl

/-- A transaction of one input, about which nothing is known. -/
def claimingPsbt : Psbt :=
  ⟨claiming, [.empty], length_inputs_claiming⟩

/-- The same transaction after its input was prepared, and then with a signature of the only key. -/
theorem Psbt.finalizeWitness_spends_claiming :
    ∃ (coin : Coin) (prepared : Psbt) (maps : InputMaps), claimingPsbt.prepareInput 0 coin = .ok prepared ∧
      prepared.inputs[0]? = some maps ∧ maps.Prepared preimageOfOne.claimLeaf ∧
      (∃ missing ∈ preimageOfOne.claimLeaf.keys, maps.signatureOf? preimageOfOne.claimLeaf missing = none ∧
        prepared.finalizeWitness 0 = .error (.signing (.missingSignature 0 missing))) ∧
      let signed := maps.addSignature unspendableKey (leafHash preimageOfOne.claimLeaf.script)
        ⟨⟨List.replicate 64 1, rfl⟩, .default⟩
      ∃ witness top, (prepared.modifyInput 0 fun _ => signed).finalizeWitness 0 = .ok witness ∧
        run (signed.recorded preimageOfOne.claimLeaf) preimageOfOne.claimLeaf.ops
          witness.dropLast.dropLast.reverse = some [top] ∧ isTrue top = true := by
  obtain ⟨coin, hleaf, hextra⟩ := exists_claimingCoin
  obtain ⟨commitment, block, _, _, hpreparation⟩ := coin.exists_preparation
  let maps := coin.preparation .empty
  have hprepared : maps.Prepared preimageOfOne.claimLeaf := by
    have hopened : Opened preimageOfOne.claimLeaf.locks (coin.extraWitness.getD []).reverse := by
      rw [hextra]
      exact .cons (HashLock.opens_sha256Of [1]) .nil
    have hfits : ((coin.extraWitness.getD []).flatMap countedBytes).length ≤ maxWitnessBytes := by
      rw [hextra]
      decide
    simp only [maps, hpreparation]
    exact InputMaps.prepared_prepare hleaf rfl rfl hopened hfits commitment block
  have hkeys : preimageOfOne.claimLeaf.keys = [unspendableKey, unspendableKey] := rfl
  refine ⟨coin, claimingPsbt.modifyInput 0 coin.preparation, maps, Coin.prepareInput_eq_ok.mpr ⟨by decide, rfl⟩, rfl,
    hprepared, ?_, ?_⟩
  · refine (Psbt.finalizeWitness_spends (.hashLockedPayment preimageOfOne) (by decide) rfl List.mem_cons_self rfl
      hprepared).2 unspendableKey ?_ ?_
    · rw [hkeys]
      exact List.mem_cons_self
    · rw [InputMaps.signatureOf?, coin.signatures_preparation]
      rfl
  · intro signed
    have hfound : (signed.signatureOf? preimageOfOne.claimLeaf unspendableKey).isSome = true := by
      have hinserted := SortedMap.find?_insert maps.signatures ⟨unspendableKey, leafHash preimageOfOne.claimLeaf.script⟩
        ⟨unspendableKey, leafHash preimageOfOne.claimLeaf.script⟩ ⟨⟨List.replicate 64 1, rfl⟩, .default⟩
      rw [if_pos rfl] at hinserted
      exact Option.isSome_of_eq_some hinserted
    refine (Psbt.finalizeWitness_spends (.hashLockedPayment preimageOfOne) (by decide) rfl List.mem_cons_self rfl
      (hprepared.addSignature _ _ _)).1 ?_
    rw [hkeys]
    exact List.forall_mem_cons.mpr ⟨hfound, List.forall_mem_singleton.mpr hfound⟩

end Vtxo
