import Vtxo.Proofs.Spend.Alignment
import Vtxo.Proofs.Spend.CheckpointContract
import Vtxo.Proofs.Spend.DustPolicy
import Vtxo.Proofs.Spend.LockTimes

/-!
# Why a payment cannot be built

A wallet that signs and nobody who cancels leave little that can go wrong: every coin has a control block for its
script, every checkpoint is an output of its contract, and every input finds its checkpoint. What is left is for the
operator and for whoever asked for the payment to answer for.

  1. `Attempt.FailsOnly`, `Edit.FailsOnly`: the errors that are left when the answers are of a kind.
  2. `failsOnly_signAll`: signing does not fail.
  3. `buildPayment_failsOnly`: the faults that keep a payment from being built.
-/

set_option autoImplicit false

namespace Vtxo.Spend

open Attempt Edit

variable {α β : Type} {answers : Exchange → Prop} {blame : Error → Prop}

/-! ## Attempts that fail for known reasons only -/

namespace Attempt

/-- With answers of the given kind the attempt fails with errors of the given kind only. -/
def FailsOnly (attempt : Attempt α) (answers : Exchange → Prop) (blame : Error → Prop) : Prop :=
  ∀ (exchanges : List Exchange) (error : Error), (∀ exchange ∈ exchanges, answers exchange) →
    attempt.Ends exchanges (.error error) → blame error

theorem failsOnly_pure (value : α) : (pure value : Attempt α).FailsOnly answers blame := by
  intro exchanges error _ h
  cases (ends_pure.mp h).2

theorem failsOnly_ofExcept {value : Except Error α} (h : ∀ error, value = .error error → blame error) :
    (ofExcept value).FailsOnly answers blame := by
  intro exchanges error _ hrun
  exact h error (ends_ofExcept.mp hrun).2.symm

/-- One attempt after another fails where one of them does; the second one starts from a run of the first. -/
theorem failsOnly_bind {attempt : Attempt α} {f : α → Attempt β} (h : attempt.FailsOnly answers blame)
    (hf : ∀ value part, (∀ exchange ∈ part, answers exchange) → attempt.Ends part (.ok value) →
      (f value).FailsOnly answers blame) :
    (attempt >>= f).FailsOnly answers blame := by
  intro exchanges error hanswers hrun
  rcases ends_bind.mp hrun with ⟨value, before, after, rfl, hbefore, hafter⟩ | ⟨fault, hfail, herror⟩
  · obtain ⟨hfirst, hrest⟩ := List.forall_mem_append.mp hanswers
    exact hf value before hfirst hbefore after error hrest hafter
  · cases herror
    exact h _ _ hanswers hfail

/-- What asks nothing first fails where that has no value. -/
theorem failsOnly_ofExcept_bind {value : Except Error α} {f : α → Attempt β}
    (h : ∀ error, value = .error error → blame error)
    (hf : ∀ a, value = .ok a → (f a).FailsOnly answers blame) :
    (ofExcept value >>= f).FailsOnly answers blame :=
  failsOnly_bind (failsOnly_ofExcept h) fun a _ _ hrun => hf a (ends_ofExcept.mp hrun).2.symm

theorem failsOnly_ofExcept_bind_of_ok {value : Except Error α} {f : α → Attempt β} {a : α} (hvalue : value = .ok a)
    (hf : (f a).FailsOnly answers blame) : (ofExcept value >>= f).FailsOnly answers blame := by
  subst hvalue
  refine failsOnly_ofExcept_bind (fun error herror => ?_) fun b hb => ?_
  · cases herror
  · cases hb
    exact hf

theorem failsOnly_unless {condition : Prop} [Decidable condition] {error : Error} {rest : Attempt β}
    (h : condition → blame error) (hrest : ¬ condition → rest.FailsOnly answers blame) :
    (do if condition then throw error
        rest : Attempt β).FailsOnly answers blame := by
  intro exchanges fault hanswers hrun
  rcases ends_unless.mp hrun with ⟨hcondition, _, herror⟩ | ⟨hcondition, hrun⟩
  · cases herror
    exact h hcondition
  · exact hrest hcondition exchanges fault hanswers hrun

theorem failsOnly_mapM {f : α → Attempt β} {items : List α} (h : ∀ item ∈ items, (f item).FailsOnly answers blame) :
    (items.mapM f).FailsOnly answers blame := by
  induction items with
  | nil => exact failsOnly_pure _
  | cons item rest ih =>
    obtain ⟨hitem, hrest⟩ := List.forall_mem_cons.mp h
    rw [List.mapM_cons]
    exact failsOnly_bind hitem fun _ _ _ _ => failsOnly_bind (ih hrest) fun _ _ _ _ => failsOnly_pure _

end Attempt

/-! ## Edits that fail for known reasons only -/

namespace Edit

/-- The same for an edit of one transaction. -/
def FailsOnly (edit : Edit α) (before : Psbt) (answers : Exchange → Prop) (blame : Error → Prop) : Prop :=
  ∀ (exchanges : List Exchange) (error : Error) (after : Psbt), (∀ exchange ∈ exchanges, answers exchange) →
    edit.Takes before exchanges (.error error) after → blame error

variable {before : Psbt}

theorem failsOnly_pure (value : α) : (pure value : Edit α).FailsOnly before answers blame := by
  intro exchanges error after _ h
  cases (takes_pure.mp h).2.1

theorem failsOnly_set (psbt : Psbt) : (set psbt : Edit PUnit).FailsOnly before answers blame := by
  intro exchanges error after _ h
  cases (takes_set.mp h).2.1

theorem failsOnly_modify (change : Psbt → Psbt) : (modify change : Edit PUnit).FailsOnly before answers blame := by
  intro exchanges error after _ h
  cases (takes_modify.mp h).2.1

theorem failsOnly_attempt {a : Attempt α} (h : a.FailsOnly answers blame) :
    (attempt a).FailsOnly before answers blame := by
  intro exchanges error after hanswers hrun
  exact h _ _ hanswers (takes_attempt.mp hrun).1

theorem failsOnly_bind {edit : Edit α} {f : α → Edit β} (h : edit.FailsOnly before answers blame)
    (hf : ∀ value middle part, edit.Takes before part (.ok value) middle → (f value).FailsOnly middle answers blame) :
    (edit >>= f).FailsOnly before answers blame := by
  intro exchanges error after hanswers hrun
  rcases takes_bind.mp hrun with ⟨value, middle, first, rest, rfl, hfirst, hrest⟩ | ⟨fault, hfail, herror⟩
  · obtain ⟨_, hlater⟩ := List.forall_mem_append.mp hanswers
    exact hf value middle first hfirst rest error after hlater hrest
  · cases herror
    exact h _ _ _ hanswers hfail

theorem failsOnly_get_bind {f : Psbt → Edit β} (h : (f before).FailsOnly before answers blame) :
    ((get : Edit Psbt) >>= f).FailsOnly before answers blame := by
  intro exchanges error after hanswers hrun
  exact h _ _ _ hanswers (takes_get_bind.mp hrun)

/-- An invariant that each step keeps is there for each step. -/
theorem failsOnly_forM (Invariant : Psbt → Prop) {f : α → Edit PUnit} {items : List α}
    (h : ∀ item ∈ items, ∀ before, Invariant before → (f item).FailsOnly before answers blame)
    (hkept : ∀ item ∈ items, ∀ before part after, Invariant before → (f item).Takes before part (.ok ()) after →
      Invariant after) (hbefore : Invariant before) :
    (items.forM f).FailsOnly before answers blame := by
  induction items generalizing before with
  | nil => exact failsOnly_pure _
  | cons item rest ih =>
    refine failsOnly_bind (h item List.mem_cons_self before hbefore) fun _ middle part hrun => ?_
    have hmiddle := hkept item List.mem_cons_self before part middle hbefore hrun
    exact ih (fun other hmem => h other (List.mem_cons_of_mem _ hmem))
      (fun other hmem => hkept other (List.mem_cons_of_mem _ hmem)) hmiddle

theorem failsOnly_applyTo {edit : Edit α} (h : edit.FailsOnly before answers blame) :
    (edit.applyTo before).FailsOnly answers blame := by
  have hrun : (edit.applyTo before).run = (edit.run.run before).bind fun reached =>
      .done (reached.1.map fun _ => reached.2) := rfl
  intro exchanges error hanswers hends
  unfold Attempt.Ends at hends
  rw [hrun, Dialogue.run_bind] at hends
  obtain ⟨⟨reached, after⟩, first, rest, rfl, hfirst, hrest⟩ := hends
  obtain ⟨rfl, houtcome⟩ := Dialogue.run_done.mp hrest
  rw [List.append_nil] at hanswers
  cases reached with
  | ok value => cases houtcome
  | error fault =>
    cases houtcome
    exact h _ _ _ hanswers hfirst

end Edit

/-! ## Signing -/

theorem failsOnly_checkCancelled (cancellation : Cancellation) :
    (checkCancelled cancellation).FailsOnly Cooperative blame := by
  cases cancellation with
  | committed => exact Attempt.failsOnly_pure ()
  | watched =>
    intro exchanges error hanswers hrun
    rw [ends_checkCancelled_error hrun] at hanswers
    cases List.forall_mem_singleton.mp hanswers

theorem failsOnly_askSignature (wallet : String) (digest : Sized 32) :
    (askSignature wallet digest).FailsOnly Cooperative blame := by
  intro exchanges error hanswers hrun
  rw [run_ask.mp hrun] at hanswers
  obtain ⟨_, _, herror, _⟩ := List.forall_mem_singleton.mp hanswers
  cases herror

theorem failsOnly_signInput (kind : SighashType) (cancellation : Cancellation) (index : Nat) (coin : Coin)
    (digest : Sized 32) (psbt : Psbt) :
    (signInput kind cancellation index coin digest).FailsOnly psbt Cooperative blame := by
  refine Edit.failsOnly_bind (Edit.failsOnly_attempt ?_) fun _ _ _ _ => Edit.failsOnly_modify _
  refine Attempt.failsOnly_bind (failsOnly_checkCancelled cancellation) fun _ _ _ _ => ?_
  refine Attempt.failsOnly_bind (failsOnly_askSignature _ _) fun signed part hanswers hrun => ?_
  -- The answer was co-operative, so what is checked of it holds.
  rw [run_ask.mp hrun] at hanswers
  obtain ⟨key, signature, hsigned, hverify⟩ := List.forall_mem_singleton.mp hanswers
  cases hsigned
  refine Attempt.failsOnly_unless (fun hrefused => ?_) fun _ => Attempt.failsOnly_pure _
  rw [hverify] at hrefused
  cases hrefused

theorem failsOnly_prepareInputs {spends : List (Nat × Coin)} {psbt : Psbt}
    (h : ∀ spend ∈ spends, spend.1 < psbt.tx.inputs.length) :
    (prepareInputs spends).FailsOnly psbt Cooperative blame := by
  refine Edit.failsOnly_forM (fun prepared => prepared.tx = psbt.tx) ?_ ?_ rfl
  · intro spend hmem before hbefore
    refine Edit.failsOnly_get_bind (Edit.failsOnly_bind ?_ fun _ _ _ _ => Edit.failsOnly_set _)
    refine Edit.failsOnly_attempt (failsOnly_ofExcept fun error hfailed => ?_)
    obtain ⟨prepared, hprepared⟩ := exists_prepareInput spend.2.committed before (hbefore ▸ h spend hmem)
    rw [hprepared] at hfailed
    cases hfailed
  · intro spend _ before part after hbefore hrun
    exact (within_prepareInput .watched spend.1 spend.2 _ _ _ _ hrun).1.trans hbefore

/-- The default type covers all outputs, so there is a digest for every input. -/
theorem exists_digests {tx : Transaction} {prevouts : List TxOut} (h : prevouts.length = tx.inputs.length)
    (spends : List (Nat × Coin)) : ∃ messages, digests tx prevouts .default spends = .ok messages := by
  have hdigest : ∀ spend ∈ spends, ∃ digest,
      tx.sighash prevouts spend.1 (leafHash spend.2.leaf) .default = .ok digest ∧ True := by
    intro spend _
    rw [Transaction.sighash, Transaction.sighashMessage, if_neg (not_not_intro h)]
    exact ⟨_, rfl, trivial⟩
  obtain ⟨messages, hmessages, _⟩ := mapM_eq_ok hdigest
  exact ⟨messages, hmessages⟩

theorem failsOnly_signInputs {prevouts : List TxOut} {spends : List (Nat × Coin)} (cancellation : Cancellation)
    {psbt : Psbt} (hprevouts : prevouts.length = psbt.tx.inputs.length)
    (hspends : ∀ spend ∈ spends, spend.1 < psbt.tx.inputs.length) :
    (signInputs prevouts spends .default cancellation).FailsOnly psbt Cooperative blame := by
  refine Edit.failsOnly_bind (failsOnly_prepareInputs hspends) fun _ prepared part hprepare => ?_
  have htx : prepared.tx = psbt.tx := (within_prepareInputs cancellation spends _ _ _ _ hprepare).1
  refine Edit.failsOnly_get_bind (Edit.failsOnly_bind
    (Edit.failsOnly_attempt (failsOnly_ofExcept fun error hfailed => ?_)) fun _ _ _ _ => ?_)
  · obtain ⟨messages, hmessages⟩ := exists_digests hprevouts spends
    rw [htx, hmessages] at hfailed
    cases hfailed
  · exact Edit.failsOnly_forM (fun _ => True) (fun _ _ _ _ => failsOnly_signInput _ _ _ _ _ _)
      (fun _ _ _ _ _ _ _ => trivial) trivial

/-- Signing does not fail where there is one coin for each input. -/
theorem failsOnly_signAll {coins : List Coin} (cancellation : Cancellation) {psbt : Psbt}
    (h : coins.length = psbt.tx.inputs.length) :
    ((signAll coins .default cancellation).applyTo psbt).FailsOnly Cooperative blame := by
  refine Edit.failsOnly_applyTo (Edit.failsOnly_get_bind ?_)
  dsimp only
  rw [if_neg (not_not_intro (h.trans psbt.sized.symm))]
  refine failsOnly_signInputs cancellation (by rw [List.length_map, h]) fun spend hmem => ?_
  exact h ▸ lt_of_mem_enumerate hmem

/-! ## The faults that are left -/

/-- What keeps a payment from being built although everybody co-operates. -/
inductive BuildFault (info : OperatorInfo) (coins : List Coin) (outputs : List TxOut) (maxSubDust : Nat) :
    Error → Prop where
  /-- The operator's terms do not agree with each other. -/
  | terms {error : Error} : info.validate = .error error → BuildFault info coins outputs maxSubDust error
  /-- More outputs carry data or are below the dust limit than there may be. -/
  | subDust {error : Error} : applyDustPolicy outputs info.dust maxSubDust = .error error →
      maxSubDust < (outputs.countP fun output => isDataScript output.script) + outputs.countP (isSubDust info.dust) →
      BuildFault info coins outputs maxSubDust error
  /-- One coin waits for a height and another one for a time. -/
  | lockTimes {coin other : Coin} {height time : UInt32} : coin ∈ coins → other ∈ coins →
      coin.locks.lockTime = some height → height < lockTimeThreshold →
      other.locks.lockTime = some time → ¬ time < lockTimeThreshold →
      BuildFault info coins outputs maxSubDust (.spend .mixedLockTimes)
  /-- The digest of a checkpoint's two scripts is no number that the internal key can be moved by; one digest in about
  2^128 is none. Computing the output's key aborts there: the error stands for that, and no caller ever gets it. -/
  | outputKey {coin : Coin} {exit : ExitPath} : coin ∈ coins → info.checkpointExit = .ok exit →
      unspendableKey.tweak? (Commitment.tweak unspendableKey
        (branchHash (leafHash coin.leaf) (leafHash exit.leaf.script))) = none →
      BuildFault info coins outputs maxSubDust (.taproot .noOutputKey)

variable {info : OperatorInfo} {coins : List Coin} {outputs : List TxOut} {maxSubDust : Nat}

/-- The coins behind the checkpoints have the lock times of the coins before them. -/
theorem buildFault_of_combinedLockTime {built : List Checkpoint} (hbuilt : BuiltFor info coins built) {error : Error}
    (h : combinedLockTime (built.map Checkpoint.output) = .error error) :
    BuildFault info coins outputs maxSubDust error := by
  obtain ⟨rfl, a, ha, b, hb, hunits⟩ := mixed_of_combinedLockTime h
  have hcoin : ∀ time ∈ lockTimesOf (built.map Checkpoint.output),
      ∃ coin ∈ coins, coin.locks.lockTime = some time := by
    intro time hmem
    obtain ⟨_, hmap, htime⟩ := List.mem_filterMap.mp hmem
    obtain ⟨checkpoint, hcheckpoint, rfl⟩ := List.mem_map.mp hmap
    obtain ⟨hspent, hcarries⟩ := hbuilt.of_mem hcheckpoint
    exact ⟨checkpoint.spent, hspent, hcarries.locks ▸ htime⟩
  obtain ⟨coin, hmem, htime⟩ := hcoin a ha
  obtain ⟨other, hmem', htime'⟩ := hcoin b hb
  rw [sameUnit, beq_eq_false_iff_ne, ne_eq, decide_eq_decide] at hunits
  by_cases hheight : a < lockTimeThreshold
  · exact .lockTimes hmem hmem' htime hheight htime' fun hheight' => hunits (iff_of_true hheight hheight')
  · have hheight' : b < lockTimeThreshold :=
      Decidable.not_not.mp fun htime => hunits (iff_of_false hheight htime)
    exact .lockTimes hmem' hmem htime' hheight' htime hheight

/-! ## Checkpoints -/

/-- A checkpoint contract has an output unless no key commits to its scripts. -/
theorem buildFault_of_outputScript {coin : Coin} (hmem : coin ∈ coins) {exit : ExitPath}
    (hexit : info.checkpointExit = .ok exit) {error : Error}
    (h : (Contract.explicit (.pair (some info.signerKey) coin.leaf exit.leaf.script)).outputScript = .error error) :
    BuildFault info coins outputs maxSubDust error := by
  have hmake : Commitment.make [coin.leaf, exit.leaf.script] = .error error := map_eq_error.mp h
  have hassemble : TapTree.assemble [coin.leaf, exit.leaf.script].length = some (.branch (.leaf 0) (.leaf 1)) := by
    simp [TapTree.assemble, TapTree.pairUp, TapTree.combine]
  obtain ⟨rfl, htweak⟩ := Commitment.noOutputKey_of_make hassemble (by decide) hmake
  refine .outputKey hmem hexit ?_
  rw [branchHash_comm]
  exact htweak

theorem failsOnly_nextCheckpoint {coin : Coin} (hmem : coin ∈ coins) {exit : ExitPath}
    (hexit : info.checkpointExit = .ok exit) :
    (nextCheckpoint info coin).FailsOnly Cooperative (BuildFault info coins outputs maxSubDust) := by
  let contract : Contract := .explicit (.pair (some info.signerKey) coin.leaf exit.leaf.script)
  have hcontract : checkpointContract coin info = .ok contract := by
    rw [checkpointContract, hexit]
    rfl
  refine Attempt.failsOnly_bind (failsOnly_checkCancelled .watched) fun _ _ _ _ => ?_
  refine failsOnly_ofExcept_bind_of_ok hcontract ?_
  refine failsOnly_ofExcept_bind (fun error => buildFault_of_outputScript hmem hexit) fun script hscript => ?_
  obtain ⟨unsigned, hunsigned, htx⟩ := ofTransaction_checkpointTransaction coin ⟨coin.amount, script⟩
  refine failsOnly_ofExcept_bind_of_ok hunsigned ?_
  have hcount : [coin].length = unsigned.tx.inputs.length := by
    rw [htx]
    rfl
  refine Attempt.failsOnly_bind (failsOnly_signAll .watched hcount) fun psbt _ _ _ => ?_
  have hspend : SpendLocks.ofSpend contract ⟨psbt.txid, 0⟩ ⟨coin.amount, script⟩ coin.leaf = .ok coin.locks :=
    coin.ofSpend_leaf hscript rfl List.mem_cons_self _
  exact failsOnly_ofExcept_bind_of_ok (Coin.throughCheckpoint_eq_ok.mpr ⟨hspend, rfl⟩) (Attempt.failsOnly_pure _)

/-! ## Payments -/

theorem buildFault_of_paymentTransaction {built : List Checkpoint} (hbuilt : BuiltFor info coins built) {error : Error}
    (h : paymentTransaction built outputs info maxSubDust = .error error) :
    BuildFault info coins outputs maxSubDust error := by
  rcases bind_eq_error.mp h with hdust | ⟨_, _, h⟩
  · exact .subDust hdust (applyDustPolicy_eq_error.mp ⟨_, hdust⟩)
  · rcases bind_eq_error.mp h with hlockTime | ⟨_, _, h⟩
    · exact buildFault_of_combinedLockTime hbuilt hlockTime
    · cases h

/-- No input of a payment has a script. -/
theorem exists_ofTransaction_payment {built : List Checkpoint} {tx : Transaction}
    (h : paymentTransaction built outputs info maxSubDust = .ok tx) :
    ∃ unsigned, Psbt.ofTransaction tx = .ok unsigned := by
  have hscripts : (tx.inputs.all fun input => input.script.isEmpty) = true := by
    rw [inputs_of_paymentTransaction h, List.all_map, List.all_eq_true]
    exact fun _ _ => rfl
  exact ⟨_, if_pos hscripts⟩

/-- Each input of a payment spends a checkpoint. -/
theorem exists_checkpoints {built : List Checkpoint} {tx : Transaction}
    (h : paymentTransaction built outputs info maxSubDust = .ok tx) :
    ∃ checkpoints, tx.inputs.mapM (checkpointOf built) = .ok checkpoints := by
  have hfound : ∀ input ∈ tx.inputs, ∃ checkpoint, checkpointOf built input = .ok checkpoint ∧ True := by
    intro input hmem
    rw [inputs_of_paymentTransaction h] at hmem
    obtain ⟨own, hown, rfl⟩ := List.mem_map.mp hmem
    rw [checkpointOf]
    cases hfind : built.find? fun checkpoint => checkpoint.output.outpoint == own.output.input.outpoint with
    | none => exact absurd (beq_self_eq_true _) (List.find?_eq_none.mp hfind own hown)
    | some checkpoint => exact ⟨checkpoint, rfl, trivial⟩
  obtain ⟨checkpoints, hcheckpoints, _⟩ := mapM_eq_ok hfound
  exact ⟨checkpoints, hcheckpoints⟩

/-- A wallet that signs and nobody who cancels: what keeps a payment from being built are the operator's terms, too
many outputs below the dust limit, lock times that cannot be combined, or a checkpoint without an output key. -/
theorem buildPayment_failsOnly {info : OperatorInfo} {coins : List Coin} {outputs : List TxOut} {maxSubDust : Nat}
    (hcoins : coins ≠ []) (houtputs : outputs ≠ []) {exchanges : List Exchange} {error : Error}
    (hanswers : ∀ exchange ∈ exchanges, Cooperative exchange)
    (h : (buildPayment coins outputs info maxSubDust).Ends exchanges (.error error)) :
    BuildFault info coins outputs maxSubDust error := by
  suffices hfails : (buildPayment coins outputs info maxSubDust).FailsOnly Cooperative
      (BuildFault info coins outputs maxSubDust) from hfails exchanges error hanswers h
  refine failsOnly_unless (fun hnone => absurd (List.isEmpty_iff.mp hnone) hcoins) fun _ => ?_
  refine failsOnly_unless (fun hnone => absurd (List.isEmpty_iff.mp hnone) houtputs) fun _ => ?_
  refine failsOnly_ofExcept_bind (fun _ => .terms) fun _ hvalid => ?_
  obtain ⟨exit, hexit⟩ := OperatorInfo.validate_eq_ok.mp hvalid
  refine Attempt.failsOnly_bind (failsOnly_mapM fun coin hmem => failsOnly_nextCheckpoint hmem hexit)
    fun built _ _ hrun => ?_
  refine failsOnly_ofExcept_bind (fun _ => buildFault_of_paymentTransaction (builtFor_of_ends hrun)) fun tx htx => ?_
  obtain ⟨unsigned, hunsigned⟩ := exists_ofTransaction_payment htx
  obtain ⟨checkpoints, hcheckpoints⟩ := exists_checkpoints htx
  refine failsOnly_ofExcept_bind_of_ok hunsigned (failsOnly_ofExcept_bind_of_ok hcheckpoints ?_)
  refine Attempt.failsOnly_bind (failsOnly_checkCancelled .watched) fun _ _ _ _ => ?_
  have hcount : (checkpoints.map Checkpoint.output).length = unsigned.tx.inputs.length := by
    rw [List.length_map, tx_of_ofTransaction hunsigned, (forall₂_of_mapM hcheckpoints).length_eq]
  exact Attempt.failsOnly_bind (failsOnly_signAll .watched hcount) fun _ _ _ _ => Attempt.failsOnly_pure _

/-- An output below the dust limit of the operator. -/
def smallOutput : TxOut :=
  ⟨⟨100⟩, taprootScript unspendableKey⟩

theorem buildPayment_failsOnly_smallOutput :
    [sentCoin 0, sentCoin 1] ≠ [] ∧ [requestedOutput, smallOutput] ≠ [] ∧
      ∃ exchanges error, (∀ exchange ∈ exchanges, Cooperative exchange) ∧
        (buildPayment [sentCoin 0, sentCoin 1] [requestedOutput, smallOutput] sampleOperator 0).Ends exchanges
          (.error error) ∧
        error = .spend (.subDustBudget ⟨100⟩ ⟨330⟩ 0) ∧
        BuildFault sampleOperator [sentCoin 0, sentCoin 1] [requestedOutput, smallOutput] 0 error := by
  obtain ⟨building, first, second, hbuilding, _, _, _, _, _, hanswers⟩ := exists_checkpoints_twoCoins
  have hcoins : [sentCoin 0, sentCoin 1] ≠ [] := List.cons_ne_nil _ _
  have houtputs : [requestedOutput, smallOutput] ≠ [] := List.cons_ne_nil _ _
  have hdust : applyDustPolicy [requestedOutput, smallOutput] sampleOperator.dust 0 =
      .error (.spend (.subDustBudget ⟨100⟩ ⟨330⟩ 0)) := by decide +kernel
  have hrefused : paymentTransaction [first, second] [requestedOutput, smallOutput] sampleOperator 0 =
      .error (.spend (.subDustBudget ⟨100⟩ ⟨330⟩ 0)) := bind_eq_error.mpr (.inl hdust)
  have hends : (buildPayment [sentCoin 0, sentCoin 1] [requestedOutput, smallOutput] sampleOperator 0).Ends building
      (.error (.spend (.subDustBudget ⟨100⟩ ⟨330⟩ 0))) := by
    refine ends_bind.mpr (.inl ⟨(), [], building, rfl, ends_ofExcept.mpr ⟨rfl, validate_sampleOperator.symm⟩, ?_⟩)
    refine ends_bind.mpr (.inl ⟨[first, second], building, [], (List.append_nil _).symm, hbuilding, ?_⟩)
    exact ends_bind.mpr (.inr ⟨_, ends_ofExcept.mpr ⟨rfl, hrefused.symm⟩, rfl⟩)
  exact ⟨hcoins, houtputs, building, _, hanswers, hends, rfl,
    buildPayment_failsOnly hcoins houtputs hanswers hends⟩

end Vtxo.Spend
