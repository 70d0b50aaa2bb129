import Mathlib.Data.List.Nodup
import Vtxo.Proofs.Coin.Committed
import Vtxo.Proofs.Spend.SendRun

/-!
# Coins, checkpoints and inputs of a payment

A payment keeps its coins, their checkpoints and the coins behind the checkpoints in lists beside the inputs of its
transaction. Checkpoints are found by the outpoints that the inputs spend, so the lists belong together item by item as
far as the names of transactions tell them apart; a coin that is given twice has one checkpoint.

  1. `Checkpoint.Carries`: a checkpoint moves its coin and keeps what the coin's spend asks for.
  2. `checkpoint_of_input`: the checkpoint that is found for an input.
  3. `buildPayment_linesUp`: the lists of every payment that was built.
-/

set_option autoImplicit false

namespace Vtxo.Spend

/-! ## One checkpoint -/

/-- The transaction spends the coin into its checkpoint contract, and nothing else into anything else. -/
structure MovesCoin (info : OperatorInfo) (coin : Coin) (tx : Transaction) : Prop where
  version : tx.version = transactionVersion
  inputs : tx.inputs = [⟨coin.outpoint, [], coin.inputSequence⟩]
  lockTime : tx.lockTime = coin.locks.lockTime.getD 0
  outputs : ∃ contract script, checkpointContract coin info = .ok contract ∧ contract.outputScript = .ok script ∧
    tx.outputs = [⟨coin.amount, script⟩, ⟨.zero, anchorOutput.script⟩]

/-- A checkpoint moves its coin, and the coin behind it is spent like the coin. -/
structure Checkpoint.Carries (info : OperatorInfo) (checkpoint : Checkpoint) : Prop where
  moves : MovesCoin info checkpoint.spent checkpoint.psbt.tx
  outpoint : checkpoint.output.outpoint = ⟨checkpoint.txid, 0⟩
  leaf : checkpoint.output.leaf = checkpoint.spent.leaf
  locks : checkpoint.output.locks = checkpoint.spent.locks
  swept : checkpoint.output.swept = checkpoint.spent.swept

theorem movesCoin_checkpointTransaction {info : OperatorInfo} {coin : Coin} {contract : Contract} {script : Bytes}
    (hcontract : checkpointContract coin info = .ok contract) (hscript : contract.outputScript = .ok script) :
    MovesCoin info coin (checkpointTransaction coin ⟨coin.amount, script⟩) :=
  ⟨rfl, rfl, rfl, contract, script, hcontract, hscript, rfl⟩

/-- There is one transaction that moves a coin. -/
theorem MovesCoin.tx_eq {info : OperatorInfo} {coin : Coin} {tx tx' : Transaction} (h : MovesCoin info coin tx)
    (h' : MovesCoin info coin tx') : tx = tx' := by
  obtain ⟨hversion, hinputs, hlockTime, contract, script, hcontract, hscript, houtputs⟩ := h
  obtain ⟨hversion', hinputs', hlockTime', contract', script', hcontract', hscript', houtputs'⟩ := h'
  rw [hcontract] at hcontract'
  cases hcontract'
  rw [hscript] at hscript'
  cases hscript'
  obtain ⟨version, inputs, outputs, lockTime⟩ := tx
  obtain ⟨version', inputs', outputs', lockTime'⟩ := tx'
  simp only at hversion hinputs hlockTime houtputs hversion' hinputs' hlockTime' houtputs'
  rw [hversion, hversion', hinputs, hinputs', hlockTime, hlockTime', houtputs, houtputs']

/-- Coins that the same transaction moves are the same output. -/
theorem MovesCoin.coin_eq {info : OperatorInfo} {coin other : Coin} {tx : Transaction} (h : MovesCoin info coin tx)
    (h' : MovesCoin info other tx) :
    other.outpoint = coin.outpoint ∧ other.inputSequence = coin.inputSequence ∧ other.amount = coin.amount := by
  have hinput : [(⟨other.outpoint, [], other.inputSequence⟩ : TxIn)] = [⟨coin.outpoint, [], coin.inputSequence⟩] :=
    h'.inputs.symm.trans h.inputs
  obtain ⟨_, _, _, _, houtputs⟩ := h.outputs
  obtain ⟨_, _, _, _, houtputs'⟩ := h'.outputs
  rw [houtputs] at houtputs'
  simp only [List.cons.injEq, TxIn.mk.injEq, TxOut.mk.injEq] at hinput houtputs'
  exact ⟨hinput.1.1, hinput.1.2.2, houtputs'.1.1.symm⟩

/-- The coin behind a checkpoint is spent with the sequence of the coin before it. -/
theorem Checkpoint.Carries.inputSequence {info : OperatorInfo} {checkpoint : Checkpoint} (h : checkpoint.Carries info) :
    checkpoint.output.inputSequence = checkpoint.spent.inputSequence := by
  rw [Coin.inputSequence, h.locks, ← Coin.inputSequence]

theorem tx_of_ofTransaction {tx : Transaction} {unsigned : Psbt} (h : Psbt.ofTransaction tx = .ok unsigned) :
    unsigned.tx = tx := by
  unfold Psbt.ofTransaction at h
  split at h
  · cases h
    rfl
  · cases h

/-- Every checkpoint that is built carries its coin. -/
theorem carries_of_ends {info : OperatorInfo} {coin : Coin} {exchanges : List Exchange} {checkpoint : Checkpoint}
    (h : (nextCheckpoint info coin).Ends exchanges (.ok checkpoint)) :
    checkpoint.spent = coin ∧ checkpoint.Carries info := by
  obtain ⟨building, _, hbuild⟩ := ends_nextCheckpoint_ok.mp h
  obtain ⟨contract, script, unsigned, hcontract, hscript, hunsigned, hsign, hnext, rfl⟩ :=
    ends_buildCheckpoint_ok.mp hbuild
  obtain ⟨_, houtput⟩ := Coin.throughCheckpoint_eq_ok.mp hnext
  have htx := (tx_of_ends_signAll hsign).trans (tx_of_ofTransaction hunsigned)
  refine ⟨rfl, ?_, ?_, ?_, ?_, ?_⟩
  · rw [htx]
    exact movesCoin_checkpointTransaction hcontract hscript
  · rw [houtput]
    rfl
  · rw [houtput]
  · rw [houtput]
  · rw [houtput]

/-! ## All checkpoints -/

/-- Different transactions that move these coins have different names. -/
def NamesTellApart (info : OperatorInfo) (coins : List Coin) : Prop :=
  ∀ coin ∈ coins, ∀ other ∈ coins, ∀ tx tx', MovesCoin info coin tx → MovesCoin info other tx' →
    tx.txid = tx'.txid → tx = tx'

/-- The checkpoints are those of the coins, in their order. -/
def BuiltFor (info : OperatorInfo) (coins : List Coin) (built : List Checkpoint) : Prop :=
  List.Forall₂ (fun coin checkpoint => checkpoint.spent = coin ∧ checkpoint.Carries info) coins built

theorem builtFor_of_ends {info : OperatorInfo} {coins : List Coin} {exchanges : List Exchange}
    {built : List Checkpoint} (h : (coins.mapM (nextCheckpoint info)).Ends exchanges (.ok built)) :
    BuiltFor info coins built :=
  (Attempt.ends_mapM_ok h).imp fun _ _ ⟨_, _, hrun⟩ => carries_of_ends hrun

variable {info : OperatorInfo} {coins : List Coin} {built : List Checkpoint}

theorem BuiltFor.of_mem (h : BuiltFor info coins built) {checkpoint : Checkpoint} (hmem : checkpoint ∈ built) :
    checkpoint.spent ∈ coins ∧ checkpoint.Carries info := by
  induction h with
  | nil => cases hmem
  | cons hfirst _ ih =>
    rcases List.mem_cons.mp hmem with rfl | hrest
    · obtain ⟨rfl, hcarries⟩ := hfirst
      exact ⟨List.mem_cons_self, hcarries⟩
    · obtain ⟨hcoin, hcarries⟩ := ih hrest
      exact ⟨List.mem_cons_of_mem _ hcoin, hcarries⟩

/-- Checkpoints of one name carry the same output. -/
theorem BuiltFor.spent_eq (h : BuiltFor info coins built) (hnames : NamesTellApart info coins) {a b : Checkpoint}
    (ha : a ∈ built) (hb : b ∈ built) (hname : b.txid = a.txid) :
    b.spent.outpoint = a.spent.outpoint ∧ b.spent.inputSequence = a.spent.inputSequence ∧
      b.spent.amount = a.spent.amount := by
  obtain ⟨hacoin, hacarries⟩ := h.of_mem ha
  obtain ⟨hbcoin, hbcarries⟩ := h.of_mem hb
  have htx : b.psbt.tx = a.psbt.tx := hnames _ hbcoin _ hacoin _ _ hbcarries.moves hacarries.moves hname
  exact hacarries.moves.coin_eq (htx ▸ hbcarries.moves)

/-- What is found for an input is a checkpoint that has the outpoint which the input spends. -/
theorem checkpointOf_eq_ok {input : TxIn} {checkpoint : Checkpoint} (h : checkpointOf built input = .ok checkpoint) :
    checkpoint ∈ built ∧ checkpoint.output.outpoint = input.outpoint := by
  rw [checkpointOf] at h
  split at h
  · next found hfound =>
    cases h
    exact ⟨List.mem_of_find?_eq_some hfound, by simpa using List.find?_some hfound⟩
  · cases h

/-- The input that was made for one checkpoint spends the checkpoint that is found for it, in the way that is recorded
with that one. -/
theorem checkpoint_of_input (h : BuiltFor info coins built) (hnames : NamesTellApart info coins)
    {own found : Checkpoint} (hown : own ∈ built) (hfound : checkpointOf built own.output.input = .ok found) :
    found ∈ built ∧ found.txid = own.txid ∧ own.output.input = ⟨⟨found.txid, 0⟩, [], found.output.inputSequence⟩ := by
  obtain ⟨hmem, houtpoint⟩ := checkpointOf_eq_ok hfound
  obtain ⟨_, howns⟩ := h.of_mem hown
  obtain ⟨_, hfounds⟩ := h.of_mem hmem
  have houtpoint : found.output.outpoint = own.output.outpoint := houtpoint
  have hname : found.txid = own.txid := by
    rw [hfounds.outpoint, howns.outpoint] at houtpoint
    exact congrArg OutPoint.txid houtpoint
  obtain ⟨_, hsequence, _⟩ := h.spent_eq hnames hown hmem hname
  refine ⟨hmem, hname, ?_⟩
  rw [Coin.input, howns.outpoint, hname, howns.inputSequence, hfounds.inputSequence, hsequence]

/-! ## The payment -/

/-- A coin of the payment, the input at its place, and the checkpoint at its place. -/
structure Aligned (info : OperatorInfo) (payment : OffchainPayment) (coin : Coin) (input : TxIn)
    (checkpoint : Checkpoint) : Prop where
  /-- The input spends the first output of the checkpoint, as the coin behind the checkpoint asks. -/
  spends : input = ⟨⟨checkpoint.txid, 0⟩, [], checkpoint.output.inputSequence⟩
  carries : checkpoint.Carries info
  /-- The coin of the checkpoint is the one at this place, or the same output. -/
  spent : checkpoint.spent.outpoint = coin.outpoint ∧ checkpoint.spent.amount = coin.amount
  /-- The name of the checkpoint leads to a coin that is the same output. -/
  found : ∃ moved, payment.coinOf? checkpoint.txid = some moved ∧ moved.outpoint = checkpoint.spent.outpoint ∧
    moved.amount = checkpoint.spent.amount

/-- The lists of a payment belong together. -/
structure LinesUp (info : OperatorInfo) (coins : List Coin) (payment : OffchainPayment) : Prop where
  inputs : payment.arkTx.tx.inputs.length = coins.length
  psbts : payment.checkpointPsbts.length = coins.length
  checkpointCoins : payment.checkpointCoins.length = coins.length
  spentCoins : payment.spentCoins.length = coins.length
  aligned : ∀ (i : Nat) (coin : Coin) (input : TxIn) (spent : Coin) (psbt : Psbt) (output : Coin),
    coins[i]? = some coin → payment.arkTx.tx.inputs[i]? = some input → payment.spentCoins[i]? = some spent →
    payment.checkpointPsbts[i]? = some psbt → payment.checkpointCoins[i]? = some output →
      Aligned info payment coin input ⟨spent, psbt, output⟩
  /-- Without repeated outpoints the coins of the checkpoints are those that were given. -/
  spent : (coins.map Coin.outpoint).Nodup → payment.spentCoins = coins

theorem inputs_of_paymentTransaction {outputs : List TxOut} {maxSubDust : Nat} {tx : Transaction}
    (h : paymentTransaction built outputs info maxSubDust = .ok tx) :
    tx.inputs = built.map fun checkpoint => checkpoint.output.input := by
  obtain ⟨_, _, h⟩ := bind_eq_ok.mp h
  obtain ⟨_, _, h⟩ := bind_eq_ok.mp h
  cases h
  exact List.map_map

/-- What the three lists of a payment hold at one place are the parts of one checkpoint. -/
theorem checkpoint_of_parts {payment : OffchainPayment} {i : Nat} {spent output : Coin} {psbt : Psbt}
    (hspent : payment.spentCoins[i]? = some spent) (hpsbt : payment.checkpointPsbts[i]? = some psbt)
    (houtput : payment.checkpointCoins[i]? = some output) : payment.checkpoints[i]? = some ⟨spent, psbt, output⟩ := by
  rw [OffchainPayment.spentCoins, List.getElem?_map] at hspent
  rw [OffchainPayment.checkpointPsbts, List.getElem?_map] at hpsbt
  rw [OffchainPayment.checkpointCoins, List.getElem?_map] at houtput
  obtain ⟨checkpoint, hcheckpoint, rfl⟩ := Option.map_eq_some_iff.mp hspent
  rw [hcheckpoint] at hpsbt houtput
  cases hpsbt
  cases houtput
  exact hcheckpoint

/-- The name of a checkpoint of the payment leads to its coin, or to the same output. -/
theorem exists_coinOf? (h : BuiltFor info coins built) (hnames : NamesTellApart info coins) {payment : OffchainPayment}
    (hsub : payment.checkpoints ⊆ built) {checkpoint : Checkpoint} (hmem : checkpoint ∈ payment.checkpoints) :
    ∃ moved, payment.coinOf? checkpoint.txid = some moved ∧ moved.outpoint = checkpoint.spent.outpoint ∧
      moved.amount = checkpoint.spent.amount := by
  rw [OffchainPayment.coinOf?_eq]
  cases hfind : payment.checkpoints.find? fun other => other.txid == checkpoint.txid with
  | none => exact absurd (beq_self_eq_true _) (List.find?_eq_none.mp hfind checkpoint hmem)
  | some other =>
    have hname : other.txid = checkpoint.txid := by simpa using List.find?_some hfind
    obtain ⟨houtpoint, _, hamount⟩ :=
      h.spent_eq hnames (hsub hmem) (hsub (List.mem_of_find?_eq_some hfind)) hname
    exact ⟨other.spent, rfl, houtpoint, hamount⟩

theorem BuiltFor.map_spent (h : BuiltFor info coins built) : built.map Checkpoint.spent = coins := by
  induction h with
  | nil => rfl
  | cons hfirst _ ih => rw [List.map_cons, hfirst.1, ih]

theorem aligned_of_found (h : BuiltFor info coins built) (hnames : NamesTellApart info coins)
    {payment : OffchainPayment} (hsub : payment.checkpoints ⊆ built) {own found : Checkpoint} (hown : own ∈ built)
    (hmem : found ∈ payment.checkpoints) (hfound : checkpointOf built own.output.input = .ok found) :
    Aligned info payment own.spent own.output.input found := by
  obtain ⟨hbuilt, hname, hspends⟩ := checkpoint_of_input h hnames hown hfound
  obtain ⟨_, hcarries⟩ := h.of_mem hbuilt
  obtain ⟨houtpoint, _, hamount⟩ := h.spent_eq hnames hown hbuilt hname
  exact ⟨hspends, hcarries, ⟨houtpoint, hamount⟩, exists_coinOf? h hnames hsub hmem⟩

/-- Where no outpoint is repeated, the coin of a checkpoint is the only one with its outpoint. -/
theorem map_spent_of_aligned (h : BuiltFor info coins built) {payment : OffchainPayment}
    (hsub : payment.checkpoints ⊆ built)
    (hplaces : List.Forall₂ (fun own found => Aligned info payment own.spent own.output.input found) built
      payment.checkpoints)
    (hdistinct : (coins.map Coin.outpoint).Nodup) : payment.spentCoins = coins := by
  rw [OffchainPayment.spentCoins, ← h.map_spent]
  refine List.ext_getElem (by simp [hplaces.length_eq]) fun i hi hi' => ?_
  rw [List.length_map] at hi hi'
  obtain ⟨hown, _⟩ := h.of_mem (built.getElem_mem hi')
  obtain ⟨hmem, _⟩ := h.of_mem (hsub (payment.checkpoints.getElem_mem hi))
  rw [List.getElem_map, List.getElem_map]
  exact List.inj_on_of_nodup_map hdistinct hmem hown (hplaces.get hi' hi).spent.1

/-- In every payment that was built, coins, inputs, checkpoints and the coins behind them belong together, place by
place. -/
theorem buildPayment_linesUp {outputs : List TxOut} {maxSubDust : Nat} {exchanges : List Exchange}
    {payment : OffchainPayment} (hnames : NamesTellApart info coins)
    (h : (buildPayment coins outputs info maxSubDust).Ends exchanges (.ok payment)) : LinesUp info coins payment := by
  obtain ⟨built, tx, unsigned, building, signing, _, _, _, hbuilt, htx, hunsigned, hcheckpoints, hsign, _⟩ :=
    ends_buildPayment_ok.mp h
  have hbuiltFor := builtFor_of_ends hbuilt
  have hinputs : payment.arkTx.tx.inputs = built.map fun checkpoint => checkpoint.output.input := by
    rw [tx_of_ends_signAll hsign, tx_of_ofTransaction hunsigned, inputs_of_paymentTransaction htx]
  rw [inputs_of_paymentTransaction htx] at hcheckpoints
  have hfound := List.forall₂_map_left_iff.mp (forall₂_of_mapM hcheckpoints)
  have hsub : payment.checkpoints ⊆ built := fun found hmem => by
    obtain ⟨i, hi, rfl⟩ := List.mem_iff_getElem.mp hmem
    exact (checkpointOf_eq_ok (hfound.get (hfound.length_eq ▸ hi) hi)).1
  have hplaces : List.Forall₂ (fun own found => Aligned info payment own.spent own.output.input found) built
      payment.checkpoints :=
    List.forall₂_iff_zip.mpr ⟨hfound.length_eq, fun hzip =>
      aligned_of_found hbuiltFor hnames hsub (List.of_mem_zip hzip).1 (List.of_mem_zip hzip).2
        ((List.forall₂_iff_zip.mp hfound).2 hzip)⟩
  have hlength : payment.checkpoints.length = coins.length := by
    rw [← hplaces.length_eq, ← hbuiltFor.map_spent, List.length_map]
  refine ⟨?_, ?_, ?_, ?_, ?_, map_spent_of_aligned hbuiltFor hsub hplaces⟩
  · rw [hinputs, ← hbuiltFor.map_spent, List.length_map, List.length_map]
  · rw [OffchainPayment.checkpointPsbts, List.length_map, hlength]
  · rw [OffchainPayment.checkpointCoins, List.length_map, hlength]
  · rw [OffchainPayment.spentCoins, List.length_map, hlength]
  · intro i coin input spent psbt output hcoin hinput hspent hpsbt houtput
    rw [hinputs, List.getElem?_map] at hinput
    rw [← hbuiltFor.map_spent, List.getElem?_map] at hcoin
    obtain ⟨own, hown, rfl⟩ := Option.map_eq_some_iff.mp hcoin
    rw [hown] at hinput
    cases hinput
    obtain ⟨hi, rfl⟩ := List.getElem?_eq_some_iff.mp hown
    obtain ⟨hi', hcheckpoint⟩ := List.getElem?_eq_some_iff.mp (checkpoint_of_parts hspent hpsbt houtput)
    exact hcheckpoint ▸ hplaces.get hi hi'

theorem namesTellApart_twoCoins : NamesTellApart sampleOperator [sentCoin 0, sentCoin 1] := by
  have hmoving (vout : UInt32) : MovesCoin sampleOperator (sentCoin vout) (moving vout) :=
    movesCoin_checkpointTransaction (checkpointContract_sentCoin vout) movedOutput.outputScript
  have hdistinct : (moving 0).txid ≠ (moving 1).txid := by
    rw [txid_moving.1, txid_moving.2]
    decide
  intro coin hcoin other hother tx tx' htx htx' hname
  rcases List.mem_pair.mp hcoin with rfl | rfl <;> rcases List.mem_pair.mp hother with rfl | rfl
  · exact htx.tx_eq htx'
  · rw [htx.tx_eq (hmoving 0), htx'.tx_eq (hmoving 1)] at hname
    exact absurd hname hdistinct
  · rw [htx.tx_eq (hmoving 1), htx'.tx_eq (hmoving 0)] at hname
    exact absurd hname.symm hdistinct
  · exact htx.tx_eq htx'

theorem buildPayment_linesUp_twoCoins :
    NamesTellApart sampleOperator [sentCoin 0, sentCoin 1] ∧
      ∃ exchanges payment, (buildPayment [sentCoin 0, sentCoin 1] [requestedOutput] sampleOperator
          Settings.default.maxSubDust).Ends exchanges (.ok payment) ∧
        LinesUp sampleOperator [sentCoin 0, sentCoin 1] payment := by
  obtain ⟨exchanges, payment, _, _, hbuild, _⟩ := exists_payment
  exact ⟨namesTellApart_twoCoins, exchanges, payment, hbuild, buildPayment_linesUp namesTellApart_twoCoins hbuild⟩

end Vtxo.Spend
