import Vtxo.Spend.Signing

/-!
# The operator's signatures

The operator signs what it is shown, not what it built: each input through the first script recorded on it, over the
outputs recorded on all inputs. An input without a script, or of a transaction about which too little is
recorded, stays unsigned.

  1. `Psbt.cosign`: the operator's signatures on every input.
-/

set_option autoImplicit false

namespace Vtxo.Psbt

/-- The operator's key and signature of one input, and the leaf it signs through. -/
def operatorSignature? (psbt : Psbt) (secret : Sized 32) (index : Nat) :
    Option (XOnlyKey × Sized 32 × Signature) := do
  let (_, script, _) ← (← psbt.inputs[index]?).leafScripts.entries.head?
  let prevouts := psbt.inputs.filterMap InputMaps.utxo
  let digest ← (psbt.tx.sighash prevouts index (leafHash script) .default).toOption
  let (key, signature) ← Schnorr.sign? secret digest
  return (key, leafHash script, signature)

/-- The transaction with the operator's signature of one input. -/
def cosignInput (secret : Sized 32) (psbt : Psbt) (index : Nat) : Psbt :=
  match psbt.operatorSignature? secret index with
  | none => psbt
  | some (key, leaf, signature) =>
    psbt.modifyInput index fun maps => maps.addSignature key leaf ⟨signature, .default⟩

/-- The transaction with the operator's signatures of all inputs. -/
def cosign (psbt : Psbt) (secret : Sized 32) : Psbt :=
  (List.range psbt.inputs.length).foldl (cosignInput secret) psbt

end Vtxo.Psbt
