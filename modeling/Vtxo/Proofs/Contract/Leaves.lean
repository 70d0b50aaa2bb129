import Vtxo.Contract.Basic
import Vtxo.Proofs.Leaf.Keys
import Vtxo.Proofs.Script.Machine

/-!
# How the leaves of contracts are spent

Each leaf of a contract that is made from parameters runs on what opens its hash locks, on top of the signatures of its
keys in the order in which it checks them. It uses up all of this and leaves one true element.

  1. `Leaf.spendable_collaborative`, `Leaf.spendable_unilateral`, `Leaf.spendable_guarded`: the shapes of leaves.
  2. `Contract.spendable_of_mem_leaves`: the leaves of all contracts in question.
-/

set_option autoImplicit false

namespace Vtxo

namespace Leaf

open ScriptOp

/-- The keys of the leaf are found in its script, and preimages and signatures are all that it takes to run it, whatever
signatures count as valid. -/
structure Spendable (leaf : Leaf) : Prop where
  plain : leaf.Plain
  takes : ∀ signed, Takes signed leaf.ops leaf.locks leaf.keys [ofBool true]

/-- What may stand in front of the operator's check: it leaves nothing on the stack. -/
structure Guard (condition : Leaf) : Prop where
  plain : condition.Plain
  takes : ∀ signed, Takes signed condition.ops condition.locks condition.keys []

/-! ## Conditions -/

theorem guard_multisig (owners : List XOnlyKey) : (multisig owners).Guard where
  plain := trivial
  takes := fun _ => by
    rw [ops, locks, keys]
    exact takes_verifyOps owners

theorem guard_preimageAndKey (lock : HashLock) (key : XOnlyKey) : (preimageAndKey lock key).Guard where
  plain := ⟨trivial, trivial, trivial⟩
  takes := fun _ => by
    rw [ops_preimageAndKey]
    exact (takes_hashLock lock).verify.append (takes_verifyOps [key]) (.inl rfl)

theorem guard_lockTime (time : UInt32) (owners : List XOnlyKey) :
    (composite [.lockTime time, .multisig owners]).Guard where
  plain := ⟨trivial, trivial, trivial⟩
  takes := fun _ => by
    have hops : partsOps [.lockTime time, .multisig owners] =
        [int time.toNat, op Opcode.checkLockTime, op Opcode.drop] ++ verifyOps owners := by
      simp [partsOps, ops]
    have hkeys : partsKeys [.lockTime time, .multisig owners] = [] ++ owners := by
      simp [partsKeys, keys]
    rw [ops, hops, keys, hkeys]
    exact (takes_time time.toNat (.inl rfl)).append (takes_verifyOps owners) (.inl rfl)

/-! ## Shapes of leaves -/

theorem spendable_hashLock (lock : HashLock) : (hashLock lock).Spendable where
  plain := trivial
  takes := fun _ => by
    rw [ops, locks, keys]
    exact takes_hashLock lock

theorem spendable_collaborative (server : XOnlyKey) {condition : Leaf} (h : condition.Guard) :
    (collaborative server (some condition)).Spendable where
  plain := h.plain
  takes := fun signed => by
    have htakes := (h.takes signed).append (takes_checkOps [server] (List.cons_ne_nil _ _)) (.inr rfl)
    rw [List.append_nil] at htakes
    rw [ops, locks, keys]
    exact htakes

/-- The delay and the owners of an exit path. -/
theorem takes_exit (signed : Bytes → Bytes → Bool) (terms : ExitTerms) :
    Takes signed (int terms.delay.sequence.toNat :: op Opcode.checkSequence :: op Opcode.drop :: checkOps terms.owners)
      [] terms.owners [ofBool true] :=
  (takes_time terms.delay.sequence.toNat (.inr rfl)).append (takes_checkOps terms.owners terms.nonempty) (.inl rfl)

theorem spendable_unilateral (terms : ExitTerms) : (unilateral terms none).Spendable where
  plain := trivial
  takes := fun signed => by
    rw [ops, locks, keys]
    exact takes_exit signed terms

/-- The condition of an exit path leaves its result, which is then verified. -/
theorem spendable_guarded (terms : ExitTerms) {condition : Leaf} (h : condition.Spendable) :
    (unilateral terms (some condition)).Spendable where
  plain := h.plain
  takes := fun signed => by
    have htakes := (h.takes signed).verify.append (takes_exit signed terms) (.inr rfl)
    rw [List.append_nil] at htakes
    rw [ops, locks, keys]
    exact htakes

end Leaf

open Leaf

theorem Vhtlc.spendable (c : Vhtlc) (path : VhtlcPath) : (c.leaf path).Spendable := by
  cases path with
  | claim => exact spendable_collaborative _ (guard_preimageAndKey _ _)
  | refund => exact spendable_collaborative _ (guard_multisig _)
  | refundWithoutReceiver => exact spendable_collaborative _ (guard_lockTime _ _)
  | unilateralClaim => exact spendable_guarded _ (spendable_hashLock _)
  | unilateralRefund => exact spendable_unilateral _
  | unilateralRefundWithoutReceiver => exact spendable_unilateral _

namespace Contract

/-- The leaves of contracts are spent in this way, unless they are scripts as they are. -/
theorem spendable_of_mem_leaves {contract : Contract} (hkind : contract.kind ≠ .explicit) {leaves : List Leaf}
    (hleaves : contract.leaves = .ok leaves) {leaf : Leaf} (hmem : leaf ∈ leaves) : leaf.Spendable := by
  cases contract with
  | payment c =>
    cases hleaves
    rcases List.mem_pair.mp hmem with rfl | rfl
    · exact spendable_collaborative _ (guard_multisig _)
    · exact spendable_unilateral _
  | hashLockedPayment c =>
    cases hleaves
    rcases List.mem_pair.mp hmem with rfl | rfl
    · exact spendable_collaborative _ (guard_preimageAndKey _ _)
    · exact spendable_unilateral _
  | vhtlc c =>
    cases hleaves
    obtain ⟨path, _, rfl⟩ := List.mem_map.mp hmem
    exact c.spendable path
  | note c =>
    cases hleaves
    cases List.mem_singleton.mp hmem
    exact spendable_hashLock _
  | explicit c => exact absurd rfl hkind
  | addressOnly c => cases hleaves

end Contract

end Vtxo
