import Vtxo.Coin.Basic
import Vtxo.Proofs.Script.Timelocks
import Vtxo.Proofs.Success
import Vtxo.Proofs.Taproot.Opening

/-!
# Timelocks of coins

A coin of a contract that is made from parameters carries the timelocks of the leaf it is spent through. There is one
exception: the refund time of a hashed timelock contract is any 32-bit number but zero, and from 2^31 on the coin does
not see it.

  1. `Contract.readsBack_of_mem_leaves`: the leaves of all contracts in question have a shape that is read back.
  2. `Coin.lockTime_eq_absoluteLock?_iff`: the coins that carry what their leaves declare.
-/

set_option autoImplicit false

namespace Vtxo

open Leaf

/-! ## Leaves of contracts -/

theorem untimed_multisig (owners : List XOnlyKey) : Untimed (guardOps (some (.multisig owners))) := by
  rw [guardOps, ops]
  exact untimed_verifyOps owners

theorem untimed_preimageAndKey (lock : HashLock) (key : XOnlyKey) :
    Untimed (guardOps (some (preimageAndKey lock key))) := by
  rw [guardOps, ops_preimageAndKey]
  exact ((untimed_hashLock lock).append (untimed_op (by decide) (by decide) (by decide))).append
    (untimed_verifyOps [key])

theorem Payment.readsBack {c : Payment} {leaf : Leaf} (h : leaf ∈ c.leaves) : leaf.ReadsBack := by
  simp only [leaves, List.mem_cons, List.not_mem_nil, or_false] at h
  rcases h with rfl | rfl
  · exact readsBack_collaborative _ (untimed_multisig _)
  · exact readsBack_unilateral _ untimed_nil

theorem HashLockedPayment.readsBack {c : HashLockedPayment} {leaf : Leaf} (h : leaf ∈ c.leaves) :
    leaf.ReadsBack := by
  simp only [leaves, List.mem_cons, List.not_mem_nil, or_false] at h
  rcases h with rfl | rfl
  · exact readsBack_collaborative _ (untimed_preimageAndKey _ _)
  · exact readsBack_unilateral _ untimed_nil

theorem Vhtlc.readsBack (c : Vhtlc) (path : VhtlcPath) : (c.leaf path).ReadsBack := by
  cases path with
  | claim => exact readsBack_collaborative _ (untimed_preimageAndKey _ _)
  | refund => exact readsBack_collaborative _ (untimed_multisig _)
  | refundWithoutReceiver =>
    refine readsBack_lockTime _ _ ?_
    rw [partsOps, partsOps, ops, List.append_nil]
    exact untimed_verifyOps _
  | unilateralClaim =>
    refine readsBack_unilateral _ ?_
    rw [guardOps, ops]
    exact untimed_hashLock _
  | unilateralRefund => exact readsBack_unilateral _ untimed_nil
  | unilateralRefundWithoutReceiver => exact readsBack_unilateral _ untimed_nil

namespace Contract

/-- The kinds of contract that are made from keys, locks and times. -/
def isParametric (contract : Contract) : Bool :=
  match contract.kind with
  | .payment | .hashLockedPayment | .vhtlc => true
  | _ => false

theorem readsBack_of_mem_leaves {contract : Contract} (h : contract.isParametric = true) {leaves : List Leaf}
    (hleaves : contract.leaves = .ok leaves) {leaf : Leaf} (hmem : leaf ∈ leaves) : leaf.ReadsBack := by
  cases contract with
  | payment c =>
    cases hleaves
    exact c.readsBack hmem
  | hashLockedPayment c =>
    cases hleaves
    exact c.readsBack hmem
  | vhtlc c =>
    cases hleaves
    obtain ⟨path, _, rfl⟩ := List.mem_map.mp hmem
    exact c.readsBack path
  | note c => cases h
  | explicit c => cases h
  | addressOnly c => cases h

theorem scripts_of_leaves {contract : Contract} (h : contract.isParametric = true) {leaves : List Leaf}
    (hleaves : contract.leaves = .ok leaves) : contract.scripts = .ok (leaves.map Leaf.script) := by
  cases contract with
  | explicit c => cases h
  | _ =>
    rw [scripts, hleaves]
    · rfl
    · intro _ hexplicit
      cases hexplicit

theorem exists_outputScript {contract : Contract} (h : contract.kind ≠ .addressOnly) {scripts : List Bytes}
    (hscripts : contract.scripts = .ok scripts) {commitment : Commitment}
    (hmake : Commitment.make scripts = .ok commitment) : ∃ script, contract.outputScript = .ok script := by
  have hcommitment : contract.commitment = .ok commitment := bind_eq_ok.mpr ⟨scripts, hscripts, hmake⟩
  cases contract with
  | addressOnly c => exact absurd rfl h
  | _ => exact ⟨commitment.outputScript, map_eq_ok.mpr ⟨commitment, hcommitment, rfl⟩⟩

end Contract

/-! ## Coins -/

/-- What is read of a leaf's script. -/
theorem Leaf.ReadsBack.ofOps {leaf : Leaf} (h : leaf.ReadsBack) :
    ∃ sequence, leaf.relativeLock?.mapM RelativeLock.toSequence = .ok sequence ∧
      (do SpendLocks.ofOps (← ScriptOp.read leaf.script)) =
        .ok ⟨sequence, leaf.absoluteLock?.filter fun time => time.toNat < 2 ^ 31⟩ := by
  have hread : ScriptOp.read leaf.script = .ok (leaf.ops.map ScriptOp.asRead) :=
    ScriptOp.read_build h.readable
  cases hlock : leaf.relativeLock? with
  | none =>
    refine ⟨none, rfl, ?_⟩
    rw [hread]
    show SpendLocks.ofOps _ = _
    rw [SpendLocks.ofOps, h.relative, hlock, h.absolute]
    rfl
  | some lock =>
    obtain ⟨delay, rfl⟩ := h.enforced lock hlock
    have hsequence : (some delay.lock).mapM RelativeLock.toSequence = .ok (some delay.sequence) := by
      rw [Option.mapM_some, delay.enforced]
      rfl
    refine ⟨some delay.sequence, hsequence, ?_⟩
    rw [hread]
    show SpendLocks.ofOps _ = _
    rw [SpendLocks.ofOps, h.relative, hlock, h.absolute]
    show (do let sequence ← delay.lock.toSequence.map some; _ : Except Error SpendLocks) = _
    rw [delay.enforced]
    rfl

/-- For an output and a script of the contract, all depends on what is read of the script. -/
theorem SpendLocks.ofSpend_of_mem {contract : Contract} {output : TxOut} {scripts : List Bytes} {leaf : Bytes}
    (hscript : contract.outputScript = .ok output.script) (hscripts : contract.scripts = .ok scripts)
    (hmem : leaf ∈ scripts) (outpoint : OutPoint) :
    ofSpend contract outpoint output leaf = (do ofOps (← ScriptOp.read leaf)) := by
  have hcontains : ¬ (!scripts.contains leaf) = true := by simpa using hmem
  rw [ofSpend, hscript, hscripts]
  simp only [bind, Except.bind]
  rw [if_neg (fun hne => hne rfl), if_neg hcontains]

/-- An output of a contract that is made from parameters gives a coin for each of its leaves, with the timelocks that
are read back. -/
theorem Coin.exists_make (contract : Contract) (h : contract.isParametric = true) {leaves : List Leaf}
    (hleaves : contract.leaves = .ok leaves) {leaf : Leaf} (hmem : leaf ∈ leaves) (wallet : String)
    (outpoint : OutPoint) (output : TxOut) (hscript : contract.outputScript = .ok output.script) :
    ∃ coin, Coin.make wallet contract outpoint output leaf.script = .ok coin ∧
      leaf.relativeLock?.mapM RelativeLock.toSequence = .ok coin.locks.sequence ∧
      coin.locks.lockTime = leaf.absoluteLock?.filter fun time => time.toNat < 2 ^ 31 := by
  obtain ⟨sequence, hsequence, hlocks⟩ := (contract.readsBack_of_mem_leaves h hleaves hmem).ofOps
  have hspend := SpendLocks.ofSpend_of_mem hscript (Contract.scripts_of_leaves h hleaves)
    (List.mem_map_of_mem hmem) outpoint
  rw [hlocks] at hspend
  exact ⟨_, make_eq_ok hspend, hsequence, rfl⟩

theorem filter_lt_eq_self_iff (time? : Option UInt32) (limit : Nat) :
    (time?.filter fun time => time.toNat < limit) = time? ↔ ∀ time, time? = some time → time.toNat < limit := by
  cases time? with
  | none => simp
  | some time => by_cases hshort : time.toNat < limit <;> simp [Option.filter_some, hshort]

/-- A coin has the sequence of its leaf's delay, and it has the lock time of its leaf exactly if that is below 2^31 or
there is none. -/
theorem Coin.lockTime_eq_absoluteLock?_iff (contract : Contract) (h : contract.isParametric = true)
    {leaves : List Leaf} (hleaves : contract.leaves = .ok leaves) {leaf : Leaf} (hmem : leaf ∈ leaves)
    (wallet : String) (outpoint : OutPoint) (output : TxOut) (hscript : contract.outputScript = .ok output.script) :
    ∃ coin, Coin.make wallet contract outpoint output leaf.script = .ok coin ∧
      leaf.relativeLock?.mapM RelativeLock.toSequence = .ok coin.locks.sequence ∧
      (coin.locks.lockTime = leaf.absoluteLock? ↔
        ∀ time, leaf.absoluteLock? = some time → time.toNat < 2 ^ 31) := by
  obtain ⟨coin, hmake, hsequence, hlockTime⟩ := Coin.exists_make contract h hleaves hmem wallet outpoint output hscript
  refine ⟨coin, hmake, hsequence, ?_⟩
  rw [hlockTime]
  exact filter_lt_eq_self_iff _ _

/-- A contract with the first refund time that its coins do not see. -/
def lateRefund : Vhtlc where
  server := unspendableKey
  sender := unspendableKey
  receiver := unspendableKey
  lock := .hash160 ⟨List.replicate 20 0, rfl⟩
  refundTime := 0x80000000
  claimDelay := .ofBlocks 1
  refundDelay := .ofBlocks 2
  refundAloneDelay := .ofBlocks 3
  refundTime_ne_zero := by decide

/-- The tree over six leaves. -/
def sixLeaves : TapTree :=
  .branch (.branch (.leaf 4) (.leaf 5)) (.branch (.branch (.leaf 0) (.leaf 1)) (.branch (.leaf 2) (.leaf 3)))

theorem assemble_sixLeaves : TapTree.assemble 6 = some sixLeaves := by
  simp [sixLeaves, TapTree.assemble, TapTree.pairUp, TapTree.combine]

theorem tweak?_lateRefund :
    ((sixLeaves.digest (lateRefund.leaves.map script)).toOption.bind fun root =>
      unspendableKey.tweak? (Commitment.tweak unspendableKey root)).isSome = true := by
  decide +kernel

theorem outputScript_lateRefund : ∃ script, (Contract.vhtlc lateRefund).outputScript = .ok script := by
  have hassemble : TapTree.assemble (lateRefund.leaves.map script).length = some sixLeaves := assemble_sixLeaves
  obtain ⟨commitment, hmake⟩ := Commitment.exists_make_of_digest hassemble (by decide) tweak?_lateRefund
  have hscripts : (Contract.vhtlc lateRefund).scripts = .ok (lateRefund.leaves.map script) :=
    Contract.scripts_of_leaves rfl rfl
  exact Contract.exists_outputScript (by rintro ⟨⟩) hscripts hmake

theorem absoluteLock?_lateRefund : (lateRefund.leaf .refundWithoutReceiver).absoluteLock? = some 0x80000000 := by
  decide +kernel

theorem Coin.lockTime_eq_absoluteLock?_iff_lateRefund :
    ∃ script, (Contract.vhtlc lateRefund).outputScript = .ok script ∧
      ∃ coin, Coin.make "" (.vhtlc lateRefund) ⟨.zero, 0⟩ ⟨⟨0⟩, script⟩
          (lateRefund.leaf .refundWithoutReceiver).script = .ok coin ∧
        (lateRefund.leaf .refundWithoutReceiver).relativeLock?.mapM RelativeLock.toSequence =
          .ok coin.locks.sequence ∧
        (coin.locks.lockTime = (lateRefund.leaf .refundWithoutReceiver).absoluteLock? ↔
          ∀ time, (lateRefund.leaf .refundWithoutReceiver).absoluteLock? = some time → time.toNat < 2 ^ 31) := by
  obtain ⟨script, hscript⟩ := outputScript_lateRefund
  exact ⟨script, hscript, Coin.lockTime_eq_absoluteLock?_iff (.vhtlc lateRefund) rfl rfl
    (List.mem_map_of_mem (by decide)) "" ⟨.zero, 0⟩ ⟨⟨0⟩, script⟩ hscript⟩

/-- Not every coin has the lock time of its leaf. -/
theorem Coin.not_forall_lockTime_eq :
    ¬ ∀ (contract : Contract) (leaves : List Leaf) (leaf : Leaf) (wallet : String) (outpoint : OutPoint)
      (output : TxOut) (coin : Coin), contract.isParametric = true → contract.leaves = .ok leaves → leaf ∈ leaves →
      Coin.make wallet contract outpoint output leaf.script = .ok coin →
      coin.locks.lockTime = leaf.absoluteLock? := by
  intro hall
  obtain ⟨script, hscript⟩ := outputScript_lateRefund
  have hmem : lateRefund.leaf .refundWithoutReceiver ∈ lateRefund.leaves := List.mem_map_of_mem (by decide)
  obtain ⟨coin, hmake, _, hlockTime⟩ := Coin.exists_make (.vhtlc lateRefund) rfl rfl hmem "" ⟨.zero, 0⟩
    ⟨⟨0⟩, script⟩ hscript
  have hsame := hall _ _ _ _ _ _ coin rfl rfl hmem hmake
  rw [hlockTime, absoluteLock?_lateRefund] at hsame
  cases hsame

end Vtxo
