import Vtxo.Proofs.Leaf.NormalForm
import Vtxo.Proofs.Spend.SendRun

/-!
# Checkpoint contracts

A checkpoint can be spent through the coin's own script or through the operator's exit path. The operator advertises
that path as a script; it is recognised as an exit path and written again. Both sides agree on the checkpoint's output
where the operator wrote it as its leaf does, and nowhere else.

  1. `checkpointExit_eq_ok`, `validate_eq_ok`: the terms that are accepted.
  2. `checkpointContract_commits`: the two scripts of a checkpoint, and when the second is the advertised one.
-/

set_option autoImplicit false

namespace Vtxo

/-! ## Accepted terms -/

namespace OperatorInfo

variable {info : OperatorInfo} {exit : ExitPath}

theorem checkpointExit_eq_ok :
    info.checkpointExit = .ok exit ↔
      Leaf.exitOfScript info.checkpointScript = .ok exit ∧ exit.terms.delay.lock = info.exitDelay := by
  rw [checkpointExit]
  constructor
  · intro h
    split at h
    · cases h
    · next path hpath =>
      split at h
      · cases h
      · next hdelay =>
        cases h
        exact ⟨hpath, Decidable.not_not.mp hdelay⟩
  · rintro ⟨hpath, hdelay⟩
    rw [hpath]
    exact if_neg (not_not_intro hdelay)

/-- Terms are accepted if the advertised script is an exit path with the advertised delay. -/
theorem validate_eq_ok : info.validate = .ok () ↔ ∃ exit, info.checkpointExit = .ok exit := by
  rw [validate, map_eq_ok]
  constructor
  · rintro ⟨exit, hexit, _⟩
    exact ⟨exit, hexit⟩
  · rintro ⟨exit, hexit⟩
    exact ⟨exit, hexit, rfl⟩

end OperatorInfo

namespace Spend

/-! ## What a checkpoint commits to -/

/-- The contract of a checkpoint has two scripts: the coin's as it is, and that of the operator's exit path as its leaf
writes it. -/
theorem checkpointContract_commits {info : OperatorInfo} (h : info.validate = .ok ()) (coin : Coin) :
    ∃ contract exit, checkpointContract coin info = .ok contract ∧
      contract.scripts = .ok [coin.leaf, exit.leaf.script] ∧
      contract.commitment = Commitment.make [coin.leaf, exit.leaf.script] ∧
      Leaf.exitOfScript info.checkpointScript = .ok exit ∧ exit.terms.delay.lock = info.exitDelay ∧
      (contract.scripts = .ok [coin.leaf, info.checkpointScript] ↔ Leaf.IsNormalExit info.checkpointScript) := by
  obtain ⟨exit, hexit⟩ := OperatorInfo.validate_eq_ok.mp h
  obtain ⟨hscript, hdelay⟩ := OperatorInfo.checkpointExit_eq_ok.mp hexit
  refine ⟨.explicit (.pair (some info.signerKey) coin.leaf exit.leaf.script), exit, ?_, rfl, rfl, hscript, hdelay, ?_⟩
  · rw [checkpointContract, hexit]
    rfl
  · rw [← Leaf.exit_script_eq_iff hscript]
    have hscripts : (Contract.explicit (.pair (some info.signerKey) coin.leaf exit.leaf.script)).scripts =
        .ok [coin.leaf, exit.leaf.script] := rfl
    rw [hscripts]
    simp

/-- An exit path after five blocks, which are pushed as data and not by the opcode of that number. -/
def pushedDelay : Bytes :=
  [1, 5, Opcode.checkSequence, Opcode.drop, 32] ++ unspendableKey.bytes ++ [Opcode.checkSig]

/-- An operator that advertises it. -/
def pushedDelayOperator : OperatorInfo :=
  { sampleOperator with exitDelay := .blocks 5, checkpointScript := pushedDelay }

theorem checkpointExit_pushedDelayOperator :
    ∃ exit, pushedDelayOperator.checkpointExit = .ok exit ∧ exit.leaf.script ≠ pushedDelay := by
  have hexit : pushedDelayOperator.checkpointExit.map (fun exit => exit.leaf.script != pushedDelay) = .ok true := by
    decide +kernel
  obtain ⟨exit, hexit, hne⟩ := map_eq_ok.mp hexit
  exact ⟨exit, hexit, bne_iff_ne.mp hne⟩

theorem checkpointContract_commits_pushedDelay :
    pushedDelayOperator.validate = .ok () ∧
      ∃ contract exit, checkpointContract (sentCoin 0) pushedDelayOperator = .ok contract ∧
        contract.scripts = .ok [openScript, exit.leaf.script] ∧
        Leaf.exitOfScript pushedDelay = .ok exit ∧ exit.terms.delay.lock = .blocks 5 ∧
        contract.scripts ≠ .ok [openScript, pushedDelay] ∧ ¬ Leaf.IsNormalExit pushedDelay := by
  obtain ⟨path, hpath, hne⟩ := checkpointExit_pushedDelayOperator
  have hvalid := OperatorInfo.validate_eq_ok.mpr ⟨path, hpath⟩
  obtain ⟨hread, _⟩ := OperatorInfo.checkpointExit_eq_ok.mp hpath
  obtain ⟨contract, exit, hcontract, hscripts, _, hexit, hdelay, hnormal⟩ :=
    checkpointContract_commits hvalid (sentCoin 0)
  have hloose : ¬ Leaf.IsNormalExit pushedDelay := fun h => hne ((Leaf.exit_script_eq_iff hread).mpr h)
  exact ⟨hvalid, contract, exit, hcontract, hscripts, hexit, hdelay, fun h => hloose (hnormal.mp h), hloose⟩

/-- Not every script that is accepted is the one that checkpoints commit to. -/
theorem not_forall_commits_advertised :
    ¬ ∀ (info : OperatorInfo) (coin : Coin), info.validate = .ok () → ∃ contract,
      checkpointContract coin info = .ok contract ∧ contract.scripts = .ok [coin.leaf, info.checkpointScript] := by
  intro h
  obtain ⟨exit, hexit, hne⟩ := checkpointExit_pushedDelayOperator
  obtain ⟨contract, hcontract, hscripts⟩ :=
    h pushedDelayOperator (sentCoin 0) (OperatorInfo.validate_eq_ok.mpr ⟨exit, hexit⟩)
  rw [checkpointContract, hexit] at hcontract
  cases hcontract
  have hsame : [openScript, exit.leaf.script] = [openScript, pushedDelay] := Except.ok.inj hscripts
  exact hne (by simpa using hsame)

end Spend

end Vtxo
