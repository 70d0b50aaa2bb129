import Mathlib.Data.List.Nodup
import Vtxo.Proofs.Contract.Leaves
import Vtxo.Proofs.Leaf.CollaborativePaths
import Vtxo.Proofs.Leaf.Identity

/-!
# The paths of hashed timelock contracts

The six scripts of a hashed timelock contract differ, whichever of its keys and times coincide. Three are read as exit
paths, with their delays and owners, and the other three as collaborative paths with the operator's key; the keys that a
script is found to check are those of the path.

  1. `Vhtlc.signers`, `Vhtlc.exit?`: who signs a path, and after which delay without the operator.
  2. `Vhtlc.exitOfScript_leaf`, `Vhtlc.collaborativeOfScript_leaf`, `Vhtlc.signingKeys_leaf`: what is read.
  3. `Vhtlc.paths_recognised`: all of this, and that the scripts differ.
-/

set_option autoImplicit false

namespace Vtxo

open Leaf ScriptOp

namespace VhtlcPath

/-- How many operations the script of a path has. -/
def opCount : VhtlcPath → Nat
  | claim => 8
  | refund => 6
  | refundWithoutReceiver => 7
  | unilateralClaim => 9
  | unilateralRefund => 7
  | unilateralRefundWithoutReceiver => 5

/-- Paths with as many operations differ in whether the operator signs. -/
theorem opCount_inj {a b : VhtlcPath} (h : a.opCount = b.opCount) (hserved : a.isCollaborative = b.isCollaborative) :
    a = b := by
  revert h hserved
  cases a <;> cases b <;> decide

end VhtlcPath

namespace Vhtlc

variable (c : Vhtlc)

/-- The keys that sign a path, in script order. -/
def signers : VhtlcPath → List XOnlyKey
  | .claim => [c.receiver, c.server]
  | .refund => [c.sender, c.receiver, c.server]
  | .refundWithoutReceiver => [c.sender, c.server]
  | .unilateralClaim => [c.receiver]
  | .unilateralRefund => [c.sender, c.receiver]
  | .unilateralRefundWithoutReceiver => [c.sender]

/-- The delay of a path without the operator, and its owners. -/
def exit? : VhtlcPath → Option (RelativeLock × List XOnlyKey)
  | .unilateralClaim => some (c.claimDelay.lock, [c.receiver])
  | .unilateralRefund => some (c.refundDelay.lock, [c.sender, c.receiver])
  | .unilateralRefundWithoutReceiver => some (c.refundAloneDelay.lock, [c.sender])
  | _ => none

/-! ## What is read of the scripts -/

/-- What the leaf of a path is made of: the operator's check after a condition, or an exit path. -/
inductive PathShape (path : VhtlcPath) : Prop where
  | served (condition : Option Leaf) (served : path.isCollaborative = true) (untimed : c.exit? path = none)
      (leaf_eq : c.leaf path = .collaborative c.server condition) (guard : IsServedGuard condition)
  | alone (terms : ExitTerms) (condition : Option Leaf) (alone : path.isCollaborative = false)
      (timed : c.exit? path = some (terms.delay.lock, terms.owners))
      (leaf_eq : c.leaf path = .unilateral terms condition)
      (guard : ∀ inner, condition = some inner → inner.IsExitCondition)

theorem pathShape (path : VhtlcPath) : c.PathShape path := by
  cases path with
  | claim => exact .served _ rfl rfl rfl (isServedGuard_preimageAndKey _ _)
  | refund => exact .served _ rfl rfl rfl (isServedGuard_multisig _ _)
  | refundWithoutReceiver => exact .served _ rfl rfl rfl (isServedGuard_lockTime _ _)
  | unilateralClaim => exact .alone _ _ rfl rfl rfl (isExitCondition_of_hashLock _)
  | unilateralRefund => exact .alone _ _ rfl rfl rfl isExitCondition_of_none
  | unilateralRefundWithoutReceiver => exact .alone _ _ rfl rfl rfl isExitCondition_of_none

theorem exitOfScript_leaf (path : VhtlcPath) :
    (exitOfScript (c.leaf path).script).map (fun exit => (exit.terms.delay.lock, exit.terms.owners)) =
      (c.exit? path).elim (.error (.script .notExitPath)) .ok := by
  cases c.pathShape path with
  | served condition _ huntimed hleaf hguard =>
    rw [hleaf, huntimed, exitOfScript_collaborative c.server hguard]
    rfl
  | alone terms condition _ htimed hleaf hguard =>
    obtain ⟨exit, hfound, hterms, _⟩ := @exitOfScript_unilateral terms condition hguard
    rw [hleaf, htimed, hfound, ← hterms]
    rfl

theorem collaborativeOfScript_leaf (path : VhtlcPath) :
    (collaborativeOfScript (c.leaf path).script).map CollaborativePath.server =
      if path.isCollaborative then .ok c.server else .error (.script .notCollaborativePath) := by
  cases c.pathShape path with
  | served condition hserved _ hleaf hguard =>
    obtain ⟨found, hfound, hserver, _⟩ := collaborativeOfScript_collaborative c.server hguard
    rw [hleaf, hfound, if_pos hserved, ← hserver]
    rfl
  | alone terms condition halone _ hleaf hguard =>
    rw [hleaf, collaborativeOfScript_unilateral hguard, halone]
    rfl

theorem keys_leaf (path : VhtlcPath) : (c.leaf path).keys = c.signers path := by
  cases path <;>
    simp [leaf, signers, preimageAndKey, keys, guardKeys, partsKeys, ExitTerms.single, ExitTerms.pair]

theorem signingKeys_leaf (path : VhtlcPath) : signingKeys (c.leaf path).script = .ok (c.signers path) := by
  rw [← c.keys_leaf path]
  exact (checksKeys (c.leaf path) (c.spendable path).plain).signingKeys_build

/-! ## The scripts differ -/

theorem length_ops_leaf (path : VhtlcPath) : (c.leaf path).ops.length = path.opCount := by
  cases path <;>
    simp [leaf, preimageAndKey, ops, guardOps, partsOps, verifyOps, checkOps, HashLock.length_ops, ExitTerms.single,
      ExitTerms.pair, VhtlcPath.opCount]

/-- A script belongs to one path only: it has as many operations, and the operator signs or does not. -/
theorem path_of_script_eq {a b : VhtlcPath} (h : (c.leaf a).script = (c.leaf b).script) : a = b := by
  have hcount := length_ops_of_script_eq (c.spendable a).plain (c.spendable b).plain h
  rw [length_ops_leaf, length_ops_leaf] at hcount
  have hserved := c.collaborativeOfScript_leaf a
  rw [h, c.collaborativeOfScript_leaf b] at hserved
  refine VhtlcPath.opCount_inj hcount ?_
  cases ha : a.isCollaborative <;> cases hb : b.isCollaborative <;> simp [ha, hb] at hserved ⊢

/-- Whichever keys and times coincide, the six scripts of a contract differ, and each is recognised: exit paths with
their delays and owners, collaborative paths with the operator's key, and all with the keys that sign. -/
theorem paths_recognised :
    (Contract.vhtlc c).scripts = .ok (VhtlcPath.all.map fun path => (c.leaf path).script) ∧
      (VhtlcPath.all.map fun path => (c.leaf path).script).Nodup ∧
      ∀ path,
        (exitOfScript (c.leaf path).script).map (fun exit => (exit.terms.delay.lock, exit.terms.owners)) =
          (c.exit? path).elim (.error (.script .notExitPath)) .ok ∧
        (collaborativeOfScript (c.leaf path).script).map CollaborativePath.server =
          (if path.isCollaborative then .ok c.server else .error (.script .notCollaborativePath)) ∧
        signingKeys (c.leaf path).script = .ok (c.signers path) := by
  refine ⟨?_, ?_, fun path =>
    ⟨c.exitOfScript_leaf path, c.collaborativeOfScript_leaf path, c.signingKeys_leaf path⟩⟩
  · rw [Contract.scripts, Contract.leaves, leaves, Except.map, List.map_map]
    · rfl
    · rintro _ ⟨⟩
  · have hpaths : VhtlcPath.all.Nodup := by decide
    exact List.Nodup.map (fun _ _ hscript => c.path_of_script_eq hscript) hpaths

end Vhtlc

end Vtxo
