import Vtxo.Proofs.Coin.Timelocks
import Vtxo.Proofs.Spend.SigningRuns
import Vtxo.Proofs.Taproot.Opening

/-!
# What holds of every coin

A coin is made from an output of its contract and one of the contract's scripts, and its timelocks are those of the
script. All that is changed later is what no check looks at, and a coin that went through a checkpoint is made again. So
every coin can be spent through its script, and its spend asks for the same timelocks before and behind a
checkpoint.

  1. `SpendLocks.ofSpend_eq_ok`: what the checks of a coin say.
  2. `Coin.committed`: every coin has a control block for its script.
  3. `Coin.throughCheckpoint_eq_ok`: the coin behind a checkpoint.
  4. `Coin.exists_make_of_ops`: the coins of a contract that lists its scripts.
-/

set_option autoImplicit false

namespace Vtxo

/-! ## The checks of a coin -/

theorem SpendLocks.ofSpend_eq_ok {contract : Contract} {outpoint : OutPoint} {output : TxOut} {leaf : Bytes}
    {locks : SpendLocks} :
    ofSpend contract outpoint output leaf = .ok locks ↔
      contract.outputScript = .ok output.script ∧ (∃ scripts, contract.scripts = .ok scripts ∧ leaf ∈ scripts) ∧
        (do ofOps (← ScriptOp.read leaf)) = .ok locks := by
  constructor
  · intro h
    rw [ofSpend] at h
    obtain ⟨script, hscript, h⟩ := bind_eq_ok.mp h
    obtain ⟨hsame, h⟩ := unless_eq_ok.mp h
    obtain ⟨scripts, hscripts, h⟩ := bind_eq_ok.mp h
    obtain ⟨hlisted, h⟩ := unless_eq_ok.mp h
    rw [ne_eq, Decidable.not_not] at hsame
    exact ⟨hsame ▸ hscript, ⟨scripts, hscripts, by simpa using hlisted⟩, h⟩
  · rintro ⟨hscript, ⟨scripts, hscripts, hmem⟩, hlocks⟩
    rw [ofSpend_of_mem hscript hscripts hmem, hlocks]

/-- An output script and scripts together come from a commitment. -/
theorem Contract.commitment_of_outputScript {contract : Contract} {script : Bytes} {scripts : List Bytes}
    (hscript : contract.outputScript = .ok script) (hscripts : contract.scripts = .ok scripts) :
    ∃ commitment, contract.commitment = .ok commitment ∧ Commitment.make scripts = .ok commitment := by
  have hmake : contract.commitment = Commitment.make scripts := by
    rw [commitment, hscripts]
    rfl
  have hexists : ∃ commitment, contract.commitment = .ok commitment := by
    cases contract with
    | addressOnly c => cases hscripts
    | _ =>
      obtain ⟨commitment, hcommitment, _⟩ := map_eq_ok.mp hscript
      exact ⟨commitment, hcommitment⟩
  obtain ⟨commitment, hcommitment⟩ := hexists
  exact ⟨commitment, hcommitment, hmake ▸ hcommitment⟩

namespace Coin

/-- Every coin's output commits to the script that the coin is spent through. -/
theorem committed (coin : Coin) : coin.Committed := by
  obtain ⟨hscript, ⟨scripts, hscripts, hmem⟩, _⟩ := SpendLocks.ofSpend_eq_ok.mp coin.checked
  obtain ⟨commitment, hcommitment, hmake⟩ := Contract.commitment_of_outputScript hscript hscripts
  obtain ⟨block, hblock⟩ := (Commitment.exists_controlBlock_of_make hmake coin.leaf).mpr hmem
  exact ⟨commitment, block, hcommitment, hblock⟩

/-! ## Behind a checkpoint -/

/-- The timelocks of a coin are those of its script, so they are the same for any output that can be spent through
it. -/
theorem ofSpend_leaf (coin : Coin) {contract : Contract} {output : TxOut} {scripts : List Bytes}
    (hscript : contract.outputScript = .ok output.script) (hscripts : contract.scripts = .ok scripts)
    (hmem : coin.leaf ∈ scripts) (outpoint : OutPoint) :
    SpendLocks.ofSpend contract outpoint output coin.leaf = .ok coin.locks := by
  obtain ⟨_, _, hlocks⟩ := SpendLocks.ofSpend_eq_ok.mp coin.checked
  exact SpendLocks.ofSpend_eq_ok.mpr ⟨hscript, ⟨scripts, hscripts, hmem⟩, hlocks⟩

theorem exists_ofSpend_of_make {wallet : String} {contract : Contract} {outpoint : OutPoint} {output : TxOut}
    {leaf : Bytes} {coin : Coin} (h : make wallet contract outpoint output leaf = .ok coin) :
    ∃ locks, SpendLocks.ofSpend contract outpoint output leaf = .ok locks := by
  unfold make at h
  split at h
  · cases h
  · next locks hlocks => exact ⟨locks, hlocks⟩

theorem leaf_of_make {wallet : String} {contract : Contract} {outpoint : OutPoint} {output : TxOut} {leaf : Bytes}
    {coin : Coin} (h : make wallet contract outpoint output leaf = .ok coin) : coin.leaf = leaf := by
  obtain ⟨locks, hlocks⟩ := exists_ofSpend_of_make h
  rw [make_eq_ok hlocks] at h
  cases h
  rfl

/-- A coin goes through any output of which it can spend the script, and keeps all but the output and its contract. -/
theorem throughCheckpoint_eq_ok {coin next : Coin} {contract : Contract} {outpoint : OutPoint} {output : TxOut} :
    coin.throughCheckpoint contract outpoint output = .ok next ↔
      ∃ h : SpendLocks.ofSpend contract outpoint output coin.leaf = .ok coin.locks,
        next = ⟨coin.wallet, contract, outpoint, output, coin.leaf, coin.locks, coin.birth, coin.expiry,
          coin.extraWitness, coin.swept, h⟩ := by
  constructor
  · intro h
    obtain ⟨made, hmade, rfl⟩ := map_eq_ok.mp h
    obtain ⟨locks, hspend⟩ := exists_ofSpend_of_make hmade
    obtain ⟨hscript, ⟨scripts, hscripts, hmem⟩, _⟩ := SpendLocks.ofSpend_eq_ok.mp hspend
    have hchecked := coin.ofSpend_leaf hscript hscripts hmem outpoint
    rw [make_eq_ok hchecked] at hmade
    cases hmade
    exact ⟨hchecked, rfl⟩
  · rintro ⟨h, rfl⟩
    rw [throughCheckpoint, make_eq_ok h]
    rfl

/-! ## Coins of listed scripts -/

/-- A contract of two scripts has an output where the internal key can be moved by the digest of their tree. -/
theorem exists_outputScript_two {contract : Contract} (hkind : contract.kind ≠ .addressOnly) {first second : Bytes}
    (hscripts : contract.scripts = .ok [first, second])
    (htweak : (((TapTree.branch (.leaf 0) (.leaf 1)).digest [first, second]).toOption.bind fun root =>
      unspendableKey.tweak? (Commitment.tweak unspendableKey root)).isSome = true) :
    ∃ script, contract.outputScript = .ok script := by
  have hassemble : TapTree.assemble [first, second].length = some (.branch (.leaf 0) (.leaf 1)) := by
    simp [TapTree.assemble, TapTree.pairUp, TapTree.combine]
  obtain ⟨commitment, hmake⟩ := Commitment.exists_make_of_digest hassemble (by decide) htweak
  exact Contract.exists_outputScript hkind hscripts hmake

/-- The coin of an output that is spent through operations has the timelocks that are read of them. -/
theorem exists_make_of_ops {contract : Explicit} {script : Bytes}
    (hscript : (Contract.explicit contract).outputScript = .ok script) {ops : List ScriptOp}
    (locks : SpendLocks) (hmem : ScriptOp.build ops ∈ contract.scripts) (hreadable : ∀ o ∈ ops, o.Readable)
    (hlocks : SpendLocks.ofOps (ops.map ScriptOp.asRead) = .ok locks) (wallet : String) (outpoint : OutPoint)
    (value : Amount) :
    ∃ coin, make wallet (.explicit contract) outpoint ⟨value, script⟩ (ScriptOp.build ops) = .ok coin ∧
      coin.locks = locks := by
  have hread : (do SpendLocks.ofOps (← ScriptOp.read (ScriptOp.build ops))) = .ok locks := by
    rw [ScriptOp.read_build hreadable]
    exact hlocks
  exact ⟨_, make_eq_ok (SpendLocks.ofSpend_eq_ok.mpr ⟨hscript, ⟨contract.scripts, rfl, hmem⟩, hread⟩), rfl⟩

end Coin

end Vtxo
