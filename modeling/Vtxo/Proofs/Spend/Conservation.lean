import Vtxo.Proofs.Coin.Selection
import Vtxo.Proofs.Settlement.Conservation
import Vtxo.Proofs.Spend.Alignment
import Vtxo.Proofs.Spend.Courses
import Vtxo.Proofs.Spend.DustPolicy

/-!
# Payments conserve value

A payment of an amount passes its value on four times: from the available coins to the selected ones, from these to
their checkpoints, from the checkpoints to the inputs of the transaction, and from there to the recipient and the
change. What is below the dust limit is replaced on the way, and keeps its value and its key.

  1. `choosePayment_eq_ok`: the selected coins are worth the amount and the change.
  2. `underPolicy_outputTo`, `map_paidTo`: the outputs of a payment under the dust policy.
  3. `conserves_of_buildPayment`: a payment that is built from the selected coins conserves their value.
  4. `ends_pay`, `submission_of_course`: no other payment is submitted.
  5. `pay_conserves`: whatever the collaborators answer, what is submitted conserves value.
-/

set_option autoImplicit false

namespace Vtxo

open Settlement (worth worth_append)

/-! ## Selected coins -/

namespace Selection

/-- Positions that are selected are a choice. -/
theorem choice_of_select {amounts : List Amount} {target dust : Amount} {subDust maxSubDust : Nat}
    {positions : List Nat} (h : select amounts target dust subDust maxSubDust = .ok positions) :
    Choice (amounts.map Amount.toNat) target.toNat dust.toNat (subDust < maxSubDust) positions := by
  rw [select] at h
  split at h
  · cases h
  · next total hsum =>
    split at h
    · cases h
    · next hshort =>
      cases h
      have htotal : (amounts.map Amount.toNat).sum = total.toNat := Amount.sum?_eq_some.mp hsum
      exact choice_choose _ _ (htotal ▸ Nat.not_lt.mp hshort)

/-- The coins at positions that exist are worth the sum at these positions. -/
theorem worth_at {available : List Coin} {positions : List Nat} (h : ∀ i ∈ positions, i < available.length) :
    worth ((positions.filterMap fun i => available[i]?).map Coin.output) =
      sumAt (available.map fun coin => coin.amount.toNat) positions := by
  induction positions with
  | nil => rfl
  | cons i rest ih =>
    obtain ⟨hi, hrest⟩ := List.forall_mem_cons.mp h
    have hcoin : available[i]? = some available[i] := List.getElem?_eq_getElem hi
    have hamount : (available.map fun coin => coin.amount.toNat).getD i 0 = available[i].amount.toNat := by
      simp [List.getD, hcoin]
    rw [List.filterMap_cons_some hcoin, sumAt_cons, hamount, ← ih hrest]
    rfl

end Selection

namespace Spend

open Attempt

/-- The coins that are selected from the available ones to pay an amount. -/
def Selects (settings : Settings) (info : OperatorInfo) (available : List Coin) (amount : Amount) (coins : List Coin) :
    Prop :=
  ∃ positions, Selection.select (available.map Coin.amount) amount info.dust (if amount < info.dust then 1 else 0)
      settings.maxSubDust = .ok positions ∧
    coins = positions.filterMap fun i => available[i]?

/-- The selected coins reach the amount. -/
theorem Selects.reaches {settings : Settings} {info : OperatorInfo} {available coins : List Coin} {amount : Amount}
    (h : Selects settings info available amount coins) : amount.toNat ≤ worth (coins.map Coin.output) := by
  obtain ⟨positions, hselect, rfl⟩ := h
  have hchoice := Selection.choice_of_select hselect
  have hreaches := hchoice.reaches
  rw [List.map_map] at hreaches
  rw [Selection.worth_at fun i hi => by simpa using hchoice.below i hi]
  exact hreaches

theorem worth_map_output (coins : List Coin) :
    worth (coins.map Coin.output) = ((coins.map Coin.amount).map Amount.toNat).sum := by
  rw [worth, List.map_map, List.map_map]
  rfl

/-- The selected coins are worth the amount and a rest, and the rest is returned. -/
theorem choosePayment_eq_ok {settings : Settings} {info : OperatorInfo} {available coins : List Coin}
    {recipient change : Address} {amount : Amount} {outputs : List TxOut}
    (h : choosePayment settings info available recipient amount change = .ok (coins, outputs)) :
    Selects settings info available amount coins ∧
      ∃ rest : Amount, worth (coins.map Coin.output) = amount.toNat + rest.toNat ∧
        outputs = outputTo recipient amount :: if rest = .zero then [] else [outputTo change rest] := by
  obtain ⟨positions, hselect, h⟩ := bind_eq_ok.mp h
  simp only at h
  split at h
  · cases h
  · next total hsum =>
    cases h
    have hselects : Selects settings info available amount (positions.filterMap fun i => available[i]?) :=
      ⟨positions, hselect, rfl⟩
    have hworth : worth ((positions.filterMap fun i => available[i]?).map Coin.output) = total.toNat := by
      rw [worth_map_output, Amount.sum?_eq_some.mp hsum]
    have hreaches : amount.toNat ≤ total.toNat := hworth ▸ hselects.reaches
    have hrest : total.sub? amount = some (.ofNat (total.toNat - amount.toNat)) := if_pos hreaches
    refine ⟨hselects, _, hworth.trans (Amount.sub?_eq_some.mp hrest), ?_⟩
    rw [changeOutput, hrest]

/-! ## Outputs below the dust limit -/

/-- The output of a transaction for an address: it pays to the output key, or commits to it if the value is below the
dust limit. -/
def paidTo (dust : Amount) (address : Address) (value : Amount) : TxOut :=
  ⟨value, if value < dust then address.subDustScript else address.outputScript⟩

theorem isSubDust_outputTo (dust : Amount) (address : Address) (value : Amount) :
    isSubDust dust (outputTo address value) = decide (value < dust) := by
  rw [isSubDust, outputTo, Address.outputScript, isTaprootScript_taprootScript, Bool.true_and]

theorem underPolicy_outputTo (dust : Amount) (address : Address) (value : Amount) :
    underPolicy dust (outputTo address value) = paidTo dust address value := by
  rw [underPolicy, isSubDust_outputTo, paidTo]
  by_cases h : value < dust
  · rw [if_pos (decide_eq_true h), if_pos h]
    rfl
  · rw [if_neg (by simpa using h), if_neg h]
    rfl

/-- The outputs of a payment: the amount, the change if there is any, and the anchor. -/
def paymentOutputs (dust : Amount) (recipient : Address) (amount : Amount) (change : Address) (rest : Amount) :
    List TxOut :=
  paidTo dust recipient amount :: ((if rest = .zero then [] else [paidTo dust change rest]) ++ [anchorOutput])

theorem map_paidTo (dust : Amount) (recipient : Address) (amount : Amount) (change : Address) (rest : Amount) :
    (outputTo recipient amount :: if rest = .zero then [] else [outputTo change rest]).map (underPolicy dust) ++
      [anchorOutput] = paymentOutputs dust recipient amount change rest := by
  rw [paymentOutputs, List.map_cons, underPolicy_outputTo, List.cons_append]
  by_cases hrest : rest = .zero
  · rw [if_pos hrest, if_pos hrest]
    rfl
  · rw [if_neg hrest, if_neg hrest, List.map_cons, List.map_nil, underPolicy_outputTo]

theorem worth_paymentOutputs (dust : Amount) (recipient : Address) (amount : Amount) (change : Address)
    (rest : Amount) : worth (paymentOutputs dust recipient amount change rest) = amount.toNat + rest.toNat := by
  have hanchor : worth [anchorOutput] = 0 := rfl
  have hchange : worth (if rest = .zero then [] else [paidTo dust change rest]) = rest.toNat := by
    by_cases hrest : rest = .zero
    · rw [if_pos hrest, hrest]
      rfl
    · rw [if_neg hrest]
      exact Nat.add_zero _
  calc worth (paymentOutputs dust recipient amount change rest)
      = amount.toNat + worth ((if rest = .zero then [] else [paidTo dust change rest]) ++ [anchorOutput]) := rfl
    _ = amount.toNat + rest.toNat := by rw [worth_append, hchange, hanchor, Nat.add_zero]

/-! ## Spent outputs -/

/-- The output that an input spends, looked up by name among some transactions. -/
def spentOutput? (txs : List Psbt) (input : TxIn) : Option TxOut :=
  (txs.find? fun psbt => psbt.txid == input.outpoint.txid).bind fun psbt =>
    psbt.tx.outputs[input.outpoint.vout.toNat]?

section

variable {info : OperatorInfo} {coins : List Coin} {built : List Checkpoint}

/-- Each coin is moved by the transaction of its checkpoint. -/
theorem BuiltFor.moves (h : BuiltFor info coins built) :
    List.Forall₂ (MovesCoin info) coins (built.map fun own => own.psbt.tx) := by
  refine List.forall₂_map_right_iff.mpr (h.imp fun coin own hown => ?_)
  obtain ⟨rfl, hcarries⟩ := hown
  exact hcarries.moves

theorem BuiltFor.map_outpoint (h : BuiltFor info coins built) :
    (built.map fun own => own.output.input).map TxIn.outpoint =
      (built.map fun own => own.psbt.tx).map fun tx => ⟨tx.txid, 0⟩ := by
  rw [List.map_map, List.map_map]
  exact List.map_congr_left fun own hown => (h.of_mem hown).2.outpoint

/-- Transactions that move coins have first outputs that are worth the coins. -/
theorem worth_moved {moved : List Transaction} (h : List.Forall₂ (MovesCoin info) coins moved) :
    worth (moved.filterMap fun tx => tx.outputs.head?) = worth (coins.map Coin.output) := by
  induction h with
  | nil => rfl
  | @cons coin tx rest others hmoves _ ih =>
    obtain ⟨_, script, _, _, houtputs⟩ := hmoves.outputs
    have hfirst : tx.outputs.head? = some ⟨coin.amount, script⟩ := by rw [houtputs, List.head?_cons]
    have hsplit : ((tx :: others).filterMap fun tx => tx.outputs.head?) =
        ⟨coin.amount, script⟩ :: others.filterMap fun tx => tx.outputs.head? := List.filterMap_cons_some hfirst
    calc worth ((tx :: others).filterMap fun tx => tx.outputs.head?)
        = coin.amount.toNat + worth (others.filterMap fun tx => tx.outputs.head?) := by rw [hsplit]; rfl
      _ = coin.amount.toNat + worth (rest.map Coin.output) := by rw [ih]

/-- The checkpoints that are found for the inputs are some that were built, and each name of one is among them. -/
theorem checkpoints_of_inputs (h : BuiltFor info coins built) (hnames : NamesTellApart info coins)
    {checkpoints : List Checkpoint}
    (hfound : (built.map fun own => own.output.input).mapM (checkpointOf built) = .ok checkpoints) :
    checkpoints ⊆ built ∧ ∀ own ∈ built, ∃ found ∈ checkpoints, found.txid = own.txid := by
  have hfound := List.forall₂_map_left_iff.mp (forall₂_of_mapM hfound)
  constructor
  · intro found hmem
    obtain ⟨i, hi, rfl⟩ := List.mem_iff_getElem.mp hmem
    exact (checkpointOf_eq_ok (hfound.get (hfound.length_eq ▸ hi) hi)).1
  · intro own hown
    obtain ⟨i, hi, rfl⟩ := List.mem_iff_getElem.mp hown
    have hi' : i < checkpoints.length := hfound.length_eq ▸ hi
    obtain ⟨_, hname, _⟩ := checkpoint_of_input h hnames hown (hfound.get hi hi')
    exact ⟨_, checkpoints.getElem_mem hi', hname⟩

/-- The input of a checkpoint spends an output of the value of the checkpoint's coin. -/
theorem exists_spentOutput? (h : BuiltFor info coins built) (hnames : NamesTellApart info coins)
    {submitted : List Checkpoint} (hsub : submitted ⊆ built) {own : Checkpoint} (hown : own ∈ built)
    (hsubmitted : ∃ found ∈ submitted, found.txid = own.txid) :
    ∃ output, spentOutput? (submitted.map Checkpoint.psbt) own.output.input = some output ∧
      output.value = own.spent.amount := by
  obtain ⟨_, hcarries⟩ := h.of_mem hown
  have hinput : own.output.input.outpoint = ⟨own.txid, 0⟩ := hcarries.outpoint
  have hlookup : (submitted.map Checkpoint.psbt).find? (fun psbt => psbt.txid == own.txid) =
      (submitted.find? fun other => other.txid == own.txid).map Checkpoint.psbt := List.find?_map
  rw [spentOutput?, hinput, hlookup]
  cases hfind : submitted.find? fun other => other.txid == own.txid with
  | none =>
    obtain ⟨found, hmem, hname⟩ := hsubmitted
    exact absurd (beq_iff_eq.mpr hname) (List.find?_eq_none.mp hfind found hmem)
  | some other =>
    have hname : other.txid = own.txid := by simpa using List.find?_some hfind
    have hmem := hsub (List.mem_of_find?_eq_some hfind)
    obtain ⟨_, _, hamount⟩ := h.spent_eq hnames hown hmem hname
    obtain ⟨_, hmoves⟩ := h.of_mem hmem
    obtain ⟨_, script, _, _, houtputs⟩ := hmoves.moves.outputs
    have hfirst : (0 : UInt32).toNat = 0 := rfl
    refine ⟨⟨other.spent.amount, script⟩, ?_, hamount⟩
    rw [Option.map_some, Option.bind_some, houtputs, hfirst, List.getElem?_cons_zero]

/-- All inputs together spend outputs that are worth the coins of their checkpoints. -/
theorem exists_spentOutputs {txs : List Psbt} {checkpoints : List Checkpoint}
    (h : ∀ own ∈ checkpoints, ∃ output, spentOutput? txs own.output.input = some output ∧
      output.value = own.spent.amount) :
    ∃ spent : List TxOut, (checkpoints.map fun own => own.output.input).map (spentOutput? txs) = spent.map some ∧
      worth spent = worth ((checkpoints.map Checkpoint.spent).map Coin.output) := by
  induction checkpoints with
  | nil => exact ⟨[], rfl, rfl⟩
  | cons own rest ih =>
    obtain ⟨⟨output, houtput, hvalue⟩, hrest⟩ := List.forall_mem_cons.mp h
    obtain ⟨others, hothers, hworth⟩ := ih hrest
    refine ⟨output :: others, ?_, ?_⟩
    · rw [List.map_cons, List.map_cons, List.map_cons, houtput, hothers]
    · calc worth (output :: others) = output.value.toNat + worth others := rfl
        _ = own.spent.amount.toNat + worth ((rest.map Checkpoint.spent).map Coin.output) := by rw [hvalue, hworth]

end

/-! ## What is submitted -/

/-- What the transaction of a payment and its checkpoints do with the value of the coins. -/
structure Conserves (info : OperatorInfo) (recipient : Address) (amount : Amount) (change : Address)
    (coins : List Coin) (tx : Transaction) (checkpoints : List Psbt) : Prop where
  /-- The amount is paid, and what the coins are worth beyond it is returned. -/
  pays : ∃ rest : Amount, worth (coins.map Coin.output) = amount.toNat + rest.toNat ∧
    tx.outputs = paymentOutputs info.dust recipient amount change rest
  total : worth tx.outputs = worth (coins.map Coin.output)
  /-- The inputs name the first outputs of the transactions that move the coins. -/
  spends : ∃ moved : List Transaction, List.Forall₂ (MovesCoin info) coins moved ∧
    tx.inputs.map TxIn.outpoint = moved.map (fun tx => ⟨tx.txid, 0⟩) ∧
    worth tx.outputs = worth (moved.filterMap fun tx => tx.outputs.head?)
  /-- As far as names tell these transactions apart, the outputs are found in the checkpoints that are submitted. -/
  found : NamesTellApart info coins → ∃ spent : List TxOut,
    tx.inputs.map (spentOutput? checkpoints) = spent.map some ∧ worth tx.outputs = worth spent

/-- A payment that is built for an amount and the rest of its coins conserves value. -/
theorem conserves_of_buildPayment {info : OperatorInfo} {recipient change : Address} {amount rest : Amount}
    {coins : List Coin} {maxSubDust : Nat} {exchanges : List Exchange} {payment : OffchainPayment}
    (hworth : worth (coins.map Coin.output) = amount.toNat + rest.toNat)
    (h : (buildPayment coins (outputTo recipient amount :: if rest = .zero then [] else [outputTo change rest]) info
      maxSubDust).Ends exchanges (.ok payment)) :
    Conserves info recipient amount change coins payment.arkTx.tx payment.checkpointPsbts := by
  obtain ⟨built, tx, unsigned, _, _, _, _, _, hbuilt, htx, hunsigned, hcheckpoints, hsign, _⟩ :=
    ends_buildPayment_ok.mp h
  have hbuilt := builtFor_of_ends hbuilt
  have hinputs := inputs_of_paymentTransaction htx
  have houtputs : tx.outputs = paymentOutputs info.dust recipient amount change rest := by
    obtain ⟨allowed, hallowed, htx⟩ := bind_eq_ok.mp htx
    obtain ⟨_, _, htx⟩ := bind_eq_ok.mp htx
    cases htx
    rw [(applyDustPolicy_eq_ok.mp hallowed).2, map_paidTo]
  have htotal : worth tx.outputs = worth (coins.map Coin.output) := by
    rw [houtputs, worth_paymentOutputs, hworth]
  rw [(tx_of_ends_signAll hsign).trans (tx_of_ofTransaction hunsigned)]
  refine ⟨⟨rest, hworth, houtputs⟩, htotal, ⟨_, hbuilt.moves, ?_, ?_⟩, fun hnames => ?_⟩
  · rw [hinputs, hbuilt.map_outpoint]
  · rw [htotal, worth_moved hbuilt.moves]
  · rw [hinputs] at hcheckpoints ⊢
    obtain ⟨hsub, hsubmitted⟩ := checkpoints_of_inputs hbuilt hnames hcheckpoints
    obtain ⟨spent, hlookup, hspent⟩ := exists_spentOutputs fun own hown =>
      exists_spentOutput? hbuilt hnames hsub hown (hsubmitted own hown)
    rw [hbuilt.map_spent] at hspent
    exact ⟨spent, hlookup, htotal.trans hspent.symm⟩

/-- While the locks are held, nothing is submitted but the payment that was built. -/
theorem submission_of_sendLocked {settings : Settings} {info : OperatorInfo} {coins : List Coin} {outputs : List TxOut}
    {exchanges : List Exchange} {outcome : Except Error Receipt} {arkTx : Psbt} {checkpoints : List Psbt}
    {answer : Except Error Submitted} (h : (sendLocked settings info coins outputs).Ends exchanges outcome)
    (hmem : ⟨.submit arkTx checkpoints, answer⟩ ∈ exchanges) :
    ∃ building payment, (buildPayment coins outputs info settings.maxSubDust).Ends building (.ok payment) ∧
      arkTx = payment.arkTx ∧ checkpoints = payment.checkpointPsbts := by
  have hasks := asks_buildPayment coins outputs info settings.maxSubDust
  rcases (ends_bind.mp h).symm with ⟨_, hbuild, _⟩ | ⟨payment, building, _, rfl, hbuild, h⟩
  · exact (hasks _ _ hbuild _ hmem).elim
  refine ⟨building, payment, hbuild, ?_⟩
  rcases List.mem_append.mp hmem with hmem | hmem
  · exact (hasks _ _ hbuild _ hmem).elim
  unfold submitPayment at h
  rcases (ends_bind.mp h).symm with ⟨_, hlook, _⟩ | ⟨_, _, _, rfl, hlook, h⟩
  · exact (asks_checkCancelled .watched _ _ hlook _ hmem).elim
  rcases List.mem_append.mp hmem with hmem | hmem
  · exact (asks_checkCancelled .watched _ _ hlook _ hmem).elim
  rcases (ends_bind.mp h).symm with ⟨_, hsubmit, _⟩ | ⟨_, _, _, rfl, hsubmit, h⟩
  · rw [run_ask.mp hsubmit] at hmem
    cases List.mem_singleton.mp hmem
    exact ⟨rfl, rfl⟩
  rcases List.mem_append.mp hmem with hmem | hmem
  · rw [run_ask.mp hsubmit] at hmem
    cases List.mem_singleton.mp hmem
    exact ⟨rfl, rfl⟩
  rcases ends_afterSubmit h with hsigning | ⟨_, _, _, _, hsigning, rfl⟩
  · exact (hsigning _ hmem).elim
  rcases List.mem_append.mp hmem with hmem | hmem
  · exact (hsigning _ hmem).elim
  · cases List.mem_singleton.mp hmem

/-- A send that comes to a submission holds the locks then, and submits the payment that was built. -/
theorem submission_of_course {settings : Settings} {coins : List Coin} {outputs : List TxOut}
    {exchanges : List Exchange} {outcome : Except Error Receipt} {arkTx : Psbt} {checkpoints : List Psbt}
    {answer : Except Error Submitted} (h : Course settings coins outputs exchanges outcome)
    (hmem : ⟨.submit arkTx checkpoints, answer⟩ ∈ exchanges) :
    ∃ info building payment, exchanges.head? = some ⟨.operatorInfo, .ok info⟩ ∧
      (buildPayment coins outputs info settings.maxSubDust).Ends building (.ok payment) ∧
      arkTx = payment.arkTx ∧ checkpoints = payment.checkpointPsbts := by
  cases h with
  | declined hfirst => exact (hfirst _ hmem).elim
  | refused => simp [preamble] at hmem
  | @held info now locked outcome withdrawn _ _ hlocked =>
    have hmem : ⟨.submit arkTx checkpoints, answer⟩ ∈ locked := by
      rcases List.mem_append.mp hmem with hmem | hmem
      · simp [preamble] at hmem
      rcases List.mem_cons.mp hmem with hmem | hmem
      · cases hmem
      rcases List.mem_append.mp hmem with hmem | hmem
      · exact hmem
      · rw [concluding] at hmem
        split at hmem <;> simp at hmem
    obtain ⟨building, payment, hbuild, rfl, rfl⟩ := submission_of_sendLocked hlocked hmem
    exact ⟨info, building, payment, rfl, hbuild, rfl, rfl⟩

section

variable {settings : Settings} {available : List Coin} {recipient change : Address} {amount : Amount}
  {exchanges : List Exchange} {outcome : Except Error Receipt}

theorem ends_askOperatorInfo_bind {f : OperatorInfo → Attempt Receipt} {info : OperatorInfo} {after : List Exchange} :
    (askOperatorInfo >>= f).Ends (⟨.operatorInfo, .ok info⟩ :: after) outcome ↔ (f info).Ends after outcome := by
  constructor
  · intro h
    rcases ends_bind.mp h with ⟨terms, _, rest, hexchanges, hinfo, hrest⟩ | ⟨_, hinfo, _⟩
    · rw [run_ask.mp hinfo] at hexchanges
      cases hexchanges
      exact hrest
    · cases run_ask.mp hinfo
  · intro h
    exact ends_bind.mpr (.inl ⟨info, [_], after, rfl, run_ask.mpr rfl, h⟩)

/-- Under the terms of an operator, a payment of an amount is a send of what is chosen under them. -/
theorem ends_pay_iff {info : OperatorInfo} {coins : List Coin} {outputs : List TxOut} {after : List Exchange}
    (hchoose : choosePayment settings info available recipient amount change = .ok (coins, outputs)) :
    (pay settings available recipient amount change).Ends (⟨.operatorInfo, .ok info⟩ :: after) outcome ↔
      (send settings coins outputs).Ends (⟨.operatorInfo, .ok info⟩ :: after) outcome := by
  unfold pay send
  rw [ends_askOperatorInfo_bind, ends_askOperatorInfo_bind, hchoose]
  rfl

/-- A payment of an amount fails on the operator's terms, or it is a send of what is chosen under them. -/
theorem ends_pay (h : (pay settings available recipient amount change).Ends exchanges outcome) :
    (∃ reply, exchanges = [⟨.operatorInfo, reply⟩]) ∨
      ∃ info coins outputs, exchanges.head? = some ⟨.operatorInfo, .ok info⟩ ∧
        choosePayment settings info available recipient amount change = .ok (coins, outputs) ∧
        (send settings coins outputs).Ends exchanges outcome := by
  have hrun := h
  unfold pay at hrun
  rcases (ends_bind.mp hrun).symm with ⟨_, hinfo, _⟩ | ⟨info, first, after, rfl, hinfo, hrest⟩
  · exact .inl ⟨_, run_ask.mp hinfo⟩
  rw [run_ask.mp hinfo] at h ⊢
  rcases (ends_ofExcept_bind.mp hrest).symm with ⟨_, _, rfl, _⟩ | ⟨_, _, hrest⟩
  · exact .inl ⟨_, rfl⟩
  rcases (ends_ofExcept_bind.mp hrest).symm with ⟨_, _, rfl, _⟩ | ⟨⟨coins, outputs⟩, hchoose, _⟩
  · exact .inl ⟨_, rfl⟩
  · exact .inr ⟨info, coins, outputs, rfl, hchoose, (ends_pay_iff hchoose).mp h⟩

/-- Whatever the collaborators answer, a payment of an amount that is submitted pays the amount to the recipient,
returns the rest of the selected coins, if there is any, and adds nothing but the anchor. So its outputs are worth what
the selected coins are worth, and what the outputs of the checkpoints are worth that its inputs spend. -/
theorem pay_conserves {arkTx : Psbt} {checkpoints : List Psbt} {answer : Except Error Submitted}
    (h : (pay settings available recipient amount change).Ends exchanges outcome)
    (hsubmit : ⟨.submit arkTx checkpoints, answer⟩ ∈ exchanges) :
    ∃ (info : OperatorInfo) (coins : List Coin), exchanges.head? = some ⟨.operatorInfo, .ok info⟩ ∧
      Selects settings info available amount coins ∧
      Conserves info recipient amount change coins arkTx.tx checkpoints := by
  rcases ends_pay h with ⟨reply, rfl⟩ | ⟨info, coins, outputs, hinfo, hchoose, hsend⟩
  · cases List.mem_singleton.mp hsubmit
  obtain ⟨hselects, rest, hworth, rfl⟩ := choosePayment_eq_ok hchoose
  obtain ⟨terms, building, payment, hterms, hbuild, rfl, rfl⟩ := submission_of_course (course_of_ends hsend) hsubmit
  rw [hinfo] at hterms
  cases hterms
  exact ⟨info, coins, hinfo, hselects, conserves_of_buildPayment hworth hbuild⟩

end

/-! ## A payment that leaves change

Of two coins that are worth 2000 satoshi, 1800 are paid. The change of 200 is below the dust limit.
-/

def payee : Address :=
  .ofKeys unspendableKey unspendableKey

def changeAddress : Address :=
  .ofKeys unspendableKey ownerKey

/-- The transaction that pays. -/
def payingWithChange : Transaction :=
  ⟨transactionVersion, [(movedCoin firstName).input, (movedCoin secondName).input],
    paymentOutputs sampleOperator.dust payee ⟨1800⟩ changeAddress ⟨200⟩, 0⟩

def payingWithChangeDigests : List (Sized 32) :=
  [digestOf 0x2575599b7daf4a4b0ef7d82f30d6b6b4316f81b19a5a5b2b0fae9aac4b949f12,
    digestOf 0xa80efe90c4adf6381dc8917847ef6a8a69b0e3326141a4572b1f4d673f9739c4]

theorem digests_payingWithChange :
    digests payingWithChange [movedOutput.output, movedOutput.output] .default
      (enumerate [movedCoin firstName, movedCoin secondName]) = .ok payingWithChangeDigests := by
  decide +kernel

theorem verify_payingWithChange :
    ∀ digest ∈ payingWithChangeDigests, Schnorr.verify ownerKey digest (ownerSignature digest) = true := by
  decide +kernel

theorem choosePayment_withChange :
    choosePayment Settings.default sampleOperator [sentCoin 0, sentCoin 1] payee ⟨1800⟩ changeAddress =
      .ok ([sentCoin 0, sentCoin 1], [outputTo payee ⟨1800⟩, outputTo changeAddress ⟨200⟩]) := rfl

theorem exists_payment_withChange :
    ∃ exchanges payment, (buildPayment [sentCoin 0, sentCoin 1] [outputTo payee ⟨1800⟩, outputTo changeAddress ⟨200⟩]
      sampleOperator Settings.default.maxSubDust).Ends exchanges (.ok payment) := by
  have hpolicy : applyDustPolicy [outputTo payee ⟨1800⟩, outputTo changeAddress ⟨200⟩] sampleOperator.dust
      Settings.default.maxSubDust = .ok [paidTo sampleOperator.dust payee ⟨1800⟩,
        paidTo sampleOperator.dust changeAddress ⟨200⟩] := rfl
  obtain ⟨exchanges, payment, _, _, hbuild, _⟩ := exists_payment_of (List.cons_ne_nil _ _)
    (fun built hmoved => by rw [paymentTransaction, hpolicy, hmoved]; rfl) digests_payingWithChange
    fun digest hmem => ⟨ownerKey, ownerSignature digest, verify_payingWithChange digest hmem⟩
  exact ⟨exchanges, payment, hbuild⟩

/-- It comes to its submission, which the operator declines. -/
theorem exists_pay_withChange :
    ∃ exchanges arkTx checkpoints, (pay Settings.default [sentCoin 0, sentCoin 1] payee ⟨1800⟩ changeAddress).Ends
      exchanges (.error .cancelled) ∧ ⟨.submit arkTx checkpoints, .error .cancelled⟩ ∈ exchanges ∧
      exchanges.head? = some ⟨.operatorInfo, .ok sampleOperator⟩ := by
  obtain ⟨building, payment, hbuild⟩ := exists_payment_withChange
  let submitting : List Exchange :=
    [⟨.cancelled, false⟩, ⟨.submit payment.arkTx payment.checkpointPsbts, .error .cancelled⟩]
  have hsubmit : (submitPayment payment).Ends submitting (.error .cancelled) :=
    ends_bind.mpr (.inl ⟨(), [_], _, rfl, ends_checkCancelled_ok.mpr rfl,
      ends_bind.mpr (.inr ⟨.cancelled, run_ask.mpr rfl, rfl⟩)⟩)
  have hlocked : (sendLocked Settings.default sampleOperator [sentCoin 0, sentCoin 1]
      [outputTo payee ⟨1800⟩, outputTo changeAddress ⟨200⟩]).Ends (building ++ submitting) (.error .cancelled) :=
    ends_bind.mpr (.inl ⟨payment, building, submitting, rfl, hbuild, hsubmit⟩)
  have hcheck : checkCoins [sentCoin 0, sentCoin 1] ⟨0, 0⟩ = .ok () := by decide +kernel
  have hsend := ends_send_held validate_sampleOperator hcheck hlocked (.ok 0)
  refine ⟨_, payment.arkTx, payment.checkpointPsbts, (ends_pay_iff choosePayment_withChange).mpr hsend, ?_, rfl⟩
  simp [submitting]

theorem pay_conserves_withChange :
    ∃ exchanges arkTx checkpoints,
      (pay Settings.default [sentCoin 0, sentCoin 1] payee ⟨1800⟩ changeAddress).Ends exchanges (.error .cancelled) ∧
      ⟨.submit arkTx checkpoints, .error .cancelled⟩ ∈ exchanges ∧
      Conserves sampleOperator payee ⟨1800⟩ changeAddress [sentCoin 0, sentCoin 1] arkTx.tx checkpoints ∧
      arkTx.tx.outputs = [⟨⟨1800⟩, payee.outputScript⟩, ⟨⟨200⟩, changeAddress.subDustScript⟩, anchorOutput] ∧
      ∃ spent : List TxOut, arkTx.tx.inputs.map (spentOutput? checkpoints) = spent.map some ∧ worth spent = 2000 := by
  obtain ⟨exchanges, arkTx, checkpoints, hpay, hsubmit, hfirst⟩ := exists_pay_withChange
  obtain ⟨info, coins, hinfo, ⟨positions, hselect, rfl⟩, hconserves⟩ := pay_conserves hpay hsubmit
  rw [hfirst] at hinfo
  cases hinfo
  have hselected : Selection.select ([sentCoin 0, sentCoin 1].map Coin.amount) ⟨1800⟩ sampleOperator.dust
      (if (⟨1800⟩ : Amount) < sampleOperator.dust then 1 else 0) Settings.default.maxSubDust = .ok [0, 1] := rfl
  rw [hselected] at hselect
  cases hselect
  have hconserves : Conserves sampleOperator payee ⟨1800⟩ changeAddress [sentCoin 0, sentCoin 1] arkTx.tx
      checkpoints := hconserves
  obtain ⟨rest, hworth, houtputs⟩ := hconserves.pays
  have htwo : worth ([sentCoin 0, sentCoin 1].map Coin.output) = 2000 := rfl
  have hrest : rest.toNat = 200 := Nat.add_left_cancel (hworth.symm.trans htwo)
  obtain rfl : rest = ⟨200⟩ := Amount.toNat_inj.mp hrest
  obtain ⟨spent, hlookup, hsame⟩ := hconserves.found namesTellApart_twoCoins
  exact ⟨exchanges, arkTx, checkpoints, hpay, hsubmit, hconserves, houtputs, spent, hlookup,
    hsame.symm.trans (hconserves.total.trans htwo)⟩

end Spend

end Vtxo
