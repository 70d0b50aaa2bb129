import Mathlib.Data.List.Perm.Subperm
import Vtxo.Proofs.Spend.SendRun

/-!
# What a send finalizes

A send is meant to finalize every checkpoint it submitted, once. Of the list that the operator returns it checks the
length, and for each entry that it is a checkpoint of the payment. An operator that returns one checkpoint in the place
of another passes both checks, and then the one is finalized twice and the other never.

  1. `ends_submitPayment_names`: what is finalized is what the operator returned, in its order.
  2. `finalizesEachOnce_iff`: a send keeps its purpose exactly where the operator returned nothing too often.
-/

set_option autoImplicit false

namespace Vtxo.Spend

open Attempt

/-- The checkpoints that an exchange hands to the operator to sign, and the operator's answer. -/
def submission? : Exchange → Option (List Psbt × Except Error Submitted)
  | ⟨.submit _ checkpoints, answer⟩ => some (checkpoints, answer)
  | _ => none

/-- The checkpoints that an exchange completes. -/
def finalization? : Exchange → Option (List Psbt)
  | ⟨.finalize _ checkpoints, _⟩ => some checkpoints
  | _ => none

/-- There is one submission and one finalization, and what was submitted is what was finalized and what was reported,
up to the order. -/
def FinalizesEachOnce (exchanges : List Exchange) (receipt : Receipt) : Prop :=
  ∃ (submitted finalized : List Psbt) (answer : Except Error Submitted),
    exchanges.filterMap submission? = [(submitted, answer)] ∧
    exchanges.filterMap finalization? = [finalized] ∧
    (finalized.map Psbt.txid).Perm (submitted.map Psbt.txid) ∧
    receipt.checkpointTxids.Perm (submitted.map Psbt.txid)

/-- The operator returned no checkpoint more often than it was submitted. -/
def ReturnsNoneTooOften (exchanges : List Exchange) : Prop :=
  ∀ (submitted : List Psbt) (reply : Submitted),
    (submitted, .ok reply) ∈ exchanges.filterMap submission? →
    ∀ txid, (reply.checkpoints.map Psbt.txid).count txid ≤ (submitted.map Psbt.txid).count txid

/-! ## Exchanges that do neither -/

theorem submission?_of_permits {cancellation : Cancellation} {exchange : Exchange}
    (h : cancellation.permits exchange.1) : submission? exchange = none := by
  obtain ⟨request, answer⟩ := exchange
  cases request <;> first | rfl | exact h.elim

theorem finalization?_of_permits {cancellation : Cancellation} {exchange : Exchange}
    (h : cancellation.permits exchange.1) : finalization? exchange = none := by
  obtain ⟨request, answer⟩ := exchange
  cases request <;> first | rfl | exact h.elim

theorem filterMap_of_asks {α β : Type} {f : Exchange → Option α} {attempt : Attempt β}
    {asks : Request → Prop} {exchanges : List Exchange} {outcome : Except Error β}
    (h : attempt.Asks asks) (hf : ∀ {exchange : Exchange}, asks exchange.1 → f exchange = none)
    (hrun : attempt.Ends exchanges outcome) : exchanges.filterMap f = [] :=
  List.filterMap_eq_nil_iff.mpr fun exchange hmem => hf (h _ _ hrun exchange hmem)

/-! ## What is finalized -/

/-- Each checkpoint that the operator returned is signed under the name it has, which is one of the payment's. -/
theorem names_of_cosigning {payment : OffchainPayment} {returned signed : List Psbt}
    {exchanges : List Exchange}
    (h : (returned.mapM (cosignCheckpoint payment)).Ends exchanges (.ok signed)) :
    signed.map Psbt.txid = returned.map Psbt.txid ∧
      returned.map Psbt.txid ⊆ payment.checkpointPsbts.map Psbt.txid := by
  have hparts := ends_mapM_ok h
  clear h
  induction hparts with
  | nil => simp
  | cons hpart _ ih =>
    obtain ⟨_, _, hrun⟩ := hpart
    obtain ⟨htx, hmem⟩ := ends_cosignCheckpoint_ok hrun
    obtain ⟨hnames, hsub⟩ := ih
    constructor
    · rw [List.map_cons, List.map_cons, hnames, Psbt.txid, Psbt.txid, htx]
    · exact List.cons_subset.mpr ⟨hmem, hsub⟩

/-- What is finalized and reported is what the operator returned. -/
theorem ends_submitPayment_names {payment : OffchainPayment} {exchanges : List Exchange} {receipt : Receipt}
    (h : (submitPayment payment).Ends exchanges (.ok receipt)) :
    ∃ (reply : Submitted) (finalized : List Psbt),
      exchanges.filterMap submission? = [(payment.checkpointPsbts, .ok reply)] ∧
      exchanges.filterMap finalization? = [finalized] ∧
      reply.checkpoints.length = payment.checkpointPsbts.length ∧
      finalized.map Psbt.txid = reply.checkpoints.map Psbt.txid ∧
      receipt.checkpointTxids = reply.checkpoints.map Psbt.txid := by
  obtain ⟨returned, finalized, cosigning, hcount, hcosign, rfl, rfl⟩ := ends_submitPayment_ok.mp h
  obtain ⟨hnames, _⟩ := names_of_cosigning hcosign
  have hsubmit := filterMap_of_asks (asks_cosigning payment returned) submission?_of_permits hcosign
  have hfinalize := filterMap_of_asks (asks_cosigning payment returned) finalization?_of_permits hcosign
  refine ⟨⟨payment.arkTxid, returned⟩, finalized, ?_, ?_, hcount, hnames, hnames⟩
  · simp [List.filterMap_cons, submission?, hsubmit]
  · simp [List.filterMap_cons, finalization?, hfinalize]

/-- Around the submission of its payment, a send neither submits nor finalizes. -/
theorem ends_send_names {settings : Settings} {coins : List Coin} {outputs : List TxOut}
    {exchanges : List Exchange} {receipt : Receipt}
    (h : (send settings coins outputs).Ends exchanges (.ok receipt)) :
    ∃ (submitted finalized : List Psbt) (reply : Submitted),
      exchanges.filterMap submission? = [(submitted, .ok reply)] ∧
      exchanges.filterMap finalization? = [finalized] ∧
      reply.checkpoints.length = submitted.length ∧
      finalized.map Psbt.txid = reply.checkpoints.map Psbt.txid ∧
      receipt.checkpointTxids = reply.checkpoints.map Psbt.txid := by
  obtain ⟨info, now, payment, building, submitting, withdrawn, _, _, hbuild, hsubmit, rfl⟩ :=
    ends_send_ok.mp h
  have hbuilding := asks_buildPayment coins outputs info settings.maxSubDust
  obtain ⟨reply, finalized, hsubmission, hfinalization, hnames⟩ := ends_submitPayment_names hsubmit
  refine ⟨payment.checkpointPsbts, finalized, reply, ?_, ?_, hnames⟩
  · rw [List.filterMap_append, List.filterMap_append, List.filterMap_append, hsubmission,
      filterMap_of_asks hbuilding submission?_of_permits hbuild]
    rfl
  · rw [List.filterMap_append, List.filterMap_append, List.filterMap_append, hfinalization,
      filterMap_of_asks hbuilding finalization?_of_permits hbuild]
    rfl

/-- Whatever the coins, the outputs and the answers are: a send that succeeds finalizes and reports what it submitted,
each once, exactly where the operator returned no checkpoint more often than it was submitted. -/
theorem finalizesEachOnce_iff {settings : Settings} {coins : List Coin} {outputs : List TxOut}
    {exchanges : List Exchange} {receipt : Receipt}
    (h : (send settings coins outputs).Ends exchanges (.ok receipt)) :
    FinalizesEachOnce exchanges receipt ↔ ReturnsNoneTooOften exchanges := by
  obtain ⟨submitted, finalized, reply, hsubmission, hfinalization, hlength, hnames, hreported⟩ :=
    ends_send_names h
  unfold FinalizesEachOnce ReturnsNoneTooOften
  rw [hsubmission, hfinalization]
  constructor
  · rintro ⟨_, _, _, hone, _, _, hperm⟩ _ _ hmem txid
    obtain ⟨rfl, _⟩ := Prod.mk.inj (List.head_eq_of_cons_eq hone)
    obtain ⟨rfl, hreply⟩ := Prod.mk.inj (List.mem_singleton.mp hmem)
    cases hreply
    rw [hreported] at hperm
    exact Nat.le_of_eq (hperm.count_eq txid)
  · intro hcount
    -- Equally many names, none of them too often: no room is left for one to be missing.
    have hsubperm : (reply.checkpoints.map Psbt.txid).Subperm (submitted.map Psbt.txid) :=
      List.subperm_ext_iff.mpr fun txid _ => hcount submitted reply (List.mem_singleton.mpr rfl) txid
    have hperm : (reply.checkpoints.map Psbt.txid).Perm (submitted.map Psbt.txid) :=
      hsubperm.perm_of_length_le (by simp [hlength])
    exact ⟨submitted, finalized, .ok reply, rfl, rfl, hnames ▸ hperm, hreported ▸ hperm⟩

/-- An operator that returns the first of two checkpoints twice is not noticed. -/
theorem exists_send_repeating :
    ∃ exchanges receipt submitted answer,
      (send Settings.default [sentCoin 0, sentCoin 1] [requestedOutput]).Ends exchanges (.ok receipt) ∧
      (submitted, answer) ∈ exchanges.filterMap submission? ∧
      ⟨digestOf secondName⟩ ∈ submitted.map Psbt.txid ∧ ⟨digestOf secondName⟩ ∉ receipt.checkpointTxids := by
  obtain ⟨building, payment, first, second, hbuild, hcheckpoints, hspent, hfirstTx, hsecondTx⟩ := exists_payment
  have hcoin : payment.coinOf? first.psbt.txid = some (sentCoin 0) := by
    simp [OffchainPayment.coinOf?_eq, hcheckpoints, Checkpoint.txid, hspent]
  obtain ⟨part, signed, hsign, hanswers⟩ := exists_signed_moving .committed hfirstTx digests_moving_first
    (signed_of_mem (by simp))
  have hone : (cosignCheckpoint payment first.psbt).Ends part (.ok signed) := by
    rw [cosignCheckpoint_eq hcoin]
    exact hsign
  obtain ⟨cosigning, hcosign, _⟩ : ∃ exchanges, ([first.psbt, first.psbt].mapM (cosignCheckpoint payment)).Ends
      exchanges (.ok [signed, signed]) ∧ ∀ exchange ∈ exchanges, Cooperative exchange :=
    exists_ends_mapM (.cons ⟨part, hone, hanswers⟩ (.cons ⟨part, hone, hanswers⟩ .nil))
  have hpsbts : payment.checkpointPsbts = [first.psbt, second.psbt] := by
    simp [OffchainPayment.checkpointPsbts, hcheckpoints]
  have hsubmit := ends_submitPayment_ok.mpr ⟨[first.psbt, first.psbt], [signed, signed], cosigning,
    by simp [hpsbts], hcosign, rfl, rfl⟩
  have hsend := ends_send_ok.mpr ⟨sampleOperator, ⟨0, 0⟩, payment, building, _, .ok 0, validate_sampleOperator, rfl,
    hbuild, hsubmit, rfl⟩
  have hfirstName : signed.txid = ⟨digestOf firstName⟩ := by
    rw [Psbt.txid, tx_of_ends_signAll hsign, hfirstTx, txid_moving.1]
  have hsecondName : second.psbt.txid = ⟨digestOf secondName⟩ := by
    rw [Psbt.txid, hsecondTx, txid_moving.2]
  let exchange : Exchange :=
    ⟨.submit payment.arkTx payment.checkpointPsbts, .ok ⟨payment.arkTxid, [first.psbt, first.psbt]⟩⟩
  refine ⟨_, _, _, _, hsend, List.mem_filterMap.mpr ⟨exchange, by simp [exchange], rfl⟩, ?_, ?_⟩
  · simp [hpsbts, hsecondName]
  · have hdistinct : (⟨digestOf secondName⟩ : Txid) ≠ ⟨digestOf firstName⟩ := by decide
    simp [hfirstName, hdistinct]

theorem exists_unfinalized :
    ∃ exchanges receipt,
      (send Settings.default [sentCoin 0, sentCoin 1] [requestedOutput]).Ends exchanges (.ok receipt) ∧
      ¬ FinalizesEachOnce exchanges receipt := by
  obtain ⟨exchanges, receipt, submitted, answer, hsend, hmem, hsubmitted, hmissing⟩ := exists_send_repeating
  refine ⟨exchanges, receipt, hsend, ?_⟩
  rintro ⟨_, _, _, hsubmission, _, _, hreported⟩
  rw [hsubmission] at hmem
  cases List.mem_singleton.mp hmem
  exact hmissing (hreported.mem_iff.mpr hsubmitted)

theorem finalizesEachOnce_iff_repeating :
    ∃ exchanges receipt,
      (send Settings.default [sentCoin 0, sentCoin 1] [requestedOutput]).Ends exchanges (.ok receipt) ∧
      (FinalizesEachOnce exchanges receipt ↔ ReturnsNoneTooOften exchanges) ∧
      ¬ FinalizesEachOnce exchanges receipt := by
  obtain ⟨exchanges, receipt, hsend, hunfinalized⟩ := exists_unfinalized
  exact ⟨exchanges, receipt, hsend, finalizesEachOnce_iff hsend, hunfinalized⟩

/-- Not every send that succeeds finalizes each checkpoint once. -/
theorem not_forall_finalizesEachOnce :
    ¬ ∀ (settings : Settings) (coins : List Coin) (outputs : List TxOut) (exchanges : List Exchange)
      (receipt : Receipt), (send settings coins outputs).Ends exchanges (.ok receipt) →
      FinalizesEachOnce exchanges receipt := by
  intro hall
  obtain ⟨exchanges, receipt, hsend, hunfinalized⟩ := exists_unfinalized
  exact hunfinalized (hall _ _ _ _ _ hsend)

end Vtxo.Spend
