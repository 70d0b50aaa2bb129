import Vtxo.Proofs.Coin.Timelocks
import Vtxo.Proofs.Contract.Leaves
import Vtxo.Proofs.Leaf.Identity

/-!
# What the scripts of a contract tell of it

The scripts of a contract that is made from parameters say which contract it is. How many there are and how many
operations the first one has gives the kind. Then each parameter is found in one of them: keys in the order in which
they are checked, hash locks and times in front, and delays in their unit.

  1. `Payment.eq_of_scripts`, `HashLockedPayment.eq_of_scripts`, `Vhtlc.eq_of_scripts`: within a kind.
  2. `Contract.kind_eq_of_scripts`: the kind.
  3. `Contract.eq_of_scripts_eq`: any two contracts.
-/

set_option autoImplicit false

namespace Vtxo

open Leaf ScriptOp

/-! ## Within a kind -/

theorem Payment.eq_of_scripts {a b : Payment} (h : a.leaves.map script = b.leaves.map script) : a = b := by
  simp only [leaves, List.map_cons, List.map_nil, List.cons.injEq, and_true] at h
  obtain ⟨hcollaborative, hexit⟩ := h
  obtain ⟨hserver, _⟩ := multisig_of_script_eq hcollaborative
  obtain ⟨hdelay, huser⟩ := ExitTerms.single_inj (terms_of_unconditional_eq hexit)
  cases a
  cases b
  rw [mk.injEq]
  exact ⟨hserver, huser, hdelay⟩

theorem HashLockedPayment.eq_of_scripts {a b : HashLockedPayment}
    (h : a.leaves.map script = b.leaves.map script) : a = b := by
  simp only [leaves, List.map_cons, List.map_nil, List.cons.injEq, and_true] at h
  obtain ⟨hclaim, hexit⟩ := h
  obtain ⟨hserver, hlock, huser⟩ := preimageAndKey_of_script_eq hclaim
  obtain ⟨hdelay, _⟩ := ExitTerms.single_inj (terms_of_unconditional_eq hexit)
  cases a
  cases b
  rw [mk.injEq]
  exact ⟨hserver, huser, hlock, hdelay⟩

theorem Vhtlc.eq_of_scripts {a b : Vhtlc} (h : a.leaves.map script = b.leaves.map script) : a = b := by
  have hpath : ∀ path, (a.leaf path).script = (b.leaf path).script := by
    rw [leaves, leaves, List.map_map, List.map_map] at h
    intro path
    exact List.map_inj_left.mp h path (by cases path <;> decide)
  -- The refund with the receiver repeats keys of the others; each of the other paths has a parameter of its own.
  obtain ⟨hserver, hdigest, hreceiver⟩ := preimageAndKey_of_script_eq (hpath .claim)
  obtain ⟨_, htime, hsender⟩ := lockTime_of_script_eq (hpath .refundWithoutReceiver)
  have hterms := terms_of_script_eq (isExitCondition_of_hashLock _) (isExitCondition_of_hashLock _)
    (hpath .unilateralClaim)
  obtain ⟨hclaim, _⟩ := ExitTerms.single_inj hterms
  obtain ⟨hrefund, _⟩ := ExitTerms.pair_inj (terms_of_unconditional_eq (hpath .unilateralRefund))
  obtain ⟨halone, _⟩ := ExitTerms.single_inj (terms_of_unconditional_eq (hpath .unilateralRefundWithoutReceiver))
  cases a
  cases b
  rw [mk.injEq]
  exact ⟨hserver, List.singleton_inj.mp hsender, hreceiver, hdigest, htime, hclaim, hrefund, halone⟩

/-! ## Kinds -/

/-- How many leaves contracts of a kind have, and how many operations the first of them has. -/
def ContractKind.outline? : ContractKind → Option (Nat × Nat)
  | .payment => some (2, 4)
  | .hashLockedPayment => some (2, 8)
  | .vhtlc => some (6, 8)
  | _ => none

theorem ContractKind.outline?_inj {a b : ContractKind} {outline : Nat × Nat} (ha : a.outline? = some outline)
    (hb : b.outline? = some outline) : a = b := by
  have hkinds : ∀ a b : ContractKind, a.outline?.isSome → a.outline? = b.outline? → a = b := by
    intro a b
    cases a <;> cases b <;> decide
  exact hkinds a b (by rw [ha]; rfl) (ha.trans hb.symm)

namespace Contract

/-- The leaves have the outline of their kind, and no operations that are taken as they are. -/
theorem exists_leaves {contract : Contract} (h : contract.isParametric = true) :
    ∃ first rest, contract.leaves = .ok (first :: rest) ∧
      contract.kind.outline? = some (rest.length + 1, first.ops.length) ∧ first.Plain := by
  have hguarded : ∀ server lock key,
      (Leaf.collaborative server (some (preimageAndKey lock key))).ops.length = 8 := fun server lock key => by
    simp [ops, guardOps, ops_preimageAndKey, lock.length_ops, verifyOps]
  cases contract with
  | payment c => exact ⟨_, _, rfl, rfl, trivial⟩
  | hashLockedPayment c =>
    refine ⟨c.claimLeaf, [c.exitLeaf], rfl, ?_, plain_preimageAndKey _ _⟩
    rw [HashLockedPayment.claimLeaf, hguarded]
    rfl
  | vhtlc c =>
    refine ⟨c.leaf .claim, _, rfl, ?_, plain_preimageAndKey _ _⟩
    rw [Vhtlc.leaf, hguarded]
    rfl
  | note c => cases h
  | explicit c => cases h
  | addressOnly c => cases h

/-- Leaves with the same scripts have the same outline, and no two kinds share theirs. -/
theorem kind_eq_of_scripts {a b : Contract} (ha : a.isParametric = true) (hb : b.isParametric = true)
    {leaves others : List Leaf} (hleaves : a.leaves = .ok leaves) (hothers : b.leaves = .ok others)
    (h : leaves.map script = others.map script) : a.kind = b.kind := by
  obtain ⟨first, rest, hfound, houtline, hplain⟩ := exists_leaves ha
  obtain ⟨other, rest', hfound', houtline', hplain'⟩ := exists_leaves hb
  cases hleaves.symm.trans hfound
  cases hothers.symm.trans hfound'
  obtain ⟨hscript, hrest⟩ := List.cons.inj h
  have hcount : rest.length = rest'.length := by
    rw [← @List.length_map _ _ rest script, hrest, List.length_map]
  rw [hcount, length_ops_of_script_eq hplain hplain' hscript] at houtline
  exact ContractKind.outline?_inj houtline houtline'

/-- Contracts that are made from parameters always have scripts, and those with the same scripts are one contract: of
the same kind, with the same keys, hash lock, refund time and delays. -/
theorem eq_of_scripts_eq {a b : Contract} (ha : a.isParametric = true) (hb : b.isParametric = true) :
    ∃ scripts others, a.scripts = .ok scripts ∧ b.scripts = .ok others ∧ (scripts = others → a = b) := by
  obtain ⟨first, rest, hleaves, _⟩ := exists_leaves ha
  obtain ⟨other, rest', hothers, _⟩ := exists_leaves hb
  refine ⟨_, _, scripts_of_leaves ha hleaves, scripts_of_leaves hb hothers, fun h => ?_⟩
  have hkind := kind_eq_of_scripts ha hb hleaves hothers h
  cases a with
  | payment c =>
    cases b with
    | payment d =>
      cases hleaves
      cases hothers
      exact congrArg payment (Payment.eq_of_scripts h)
    | _ => cases hkind
  | hashLockedPayment c =>
    cases b with
    | hashLockedPayment d =>
      cases hleaves
      cases hothers
      exact congrArg hashLockedPayment (HashLockedPayment.eq_of_scripts h)
    | _ => cases hkind
  | vhtlc c =>
    cases b with
    | vhtlc d =>
      cases hleaves
      cases hothers
      exact congrArg vhtlc (Vhtlc.eq_of_scripts h)
    | _ => cases hkind
  | _ => cases ha

/-- The same contract, but the receiver waits one interval of 512 seconds and not one block. -/
def lateRefundBySeconds : Vhtlc :=
  { lateRefund with claimDelay := ⟨.seconds 512, 0x00400001, rfl⟩ }

theorem eq_of_scripts_eq_units :
    ∃ scripts others, (vhtlc lateRefund).scripts = .ok scripts ∧
      (vhtlc lateRefundBySeconds).scripts = .ok others ∧ scripts ≠ others := by
  obtain ⟨scripts, others, hscripts, hothers, hsame⟩ :=
    @eq_of_scripts_eq (vhtlc lateRefund) (vhtlc lateRefundBySeconds) rfl rfl
  have hne : vhtlc lateRefund ≠ vhtlc lateRefundBySeconds := by decide
  exact ⟨scripts, others, hscripts, hothers, fun h => hne (hsame h)⟩

end Contract

end Vtxo
