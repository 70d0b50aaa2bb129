import Vtxo.Proofs.Spend.Collaborators
import Vtxo.Proofs.Spend.Finalization

/-!
# A send that is cancelled

Before its submission a send looks at the cancellation again and again, and the first look that notices it ends the
send; the last look comes immediately before the submission. After that nothing looks any more. So a send that is
cancelled while a call before the submission is under way is given up, and one that is cancelled later goes on as if
nothing had happened.

  1. `heeds_buildPayment`: no payment is built once a cancellation was noticed.
  2. `decides_send`: every run of a send is given up, or is one that noticed nothing and submits right after a look.
  3. `carryOut_send`: what a cancellation does to a send, by the call during which it happens.
-/

set_option autoImplicit false

namespace Vtxo.Spend

open Attempt Edit

/-! ## Heeding a cancellation -/

namespace Attempt

variable {α β : Type}

/-- The attempt does not succeed once a look noticed a cancellation. -/
def Heeds (attempt : Attempt α) : Prop :=
  ∀ (exchanges : List Exchange) (value : α), attempt.Ends exchanges (.ok value) →
    ∀ exchange ∈ exchanges, noticesCancellation exchange = false

theorem noticesCancellation_of_ne {exchange : Exchange} (h : exchange.1 ≠ .cancelled) :
    noticesCancellation exchange = false := by
  obtain ⟨request, answer⟩ := exchange
  cases request <;> first | rfl | exact absurd rfl h

theorem heeds_of_asks {attempt : Attempt α} (h : attempt.Asks (· ≠ .cancelled)) : attempt.Heeds :=
  fun _ _ hrun exchange hmem => noticesCancellation_of_ne (h _ _ hrun exchange hmem)

theorem heeds_ofExcept (value : Except Error α) : (ofExcept value).Heeds :=
  heeds_of_asks (asks_ofExcept value)

theorem heeds_checkCancelled (cancellation : Cancellation) : (checkCancelled cancellation).Heeds := by
  intro exchanges _ hrun exchange hmem
  rw [ends_checkCancelled_ok.mp hrun] at hmem
  cases cancellation with
  | watched =>
    rw [List.mem_singleton.mp hmem]
    rfl
  | committed => cases hmem

theorem heeds_bind {attempt : Attempt α} {f : α → Attempt β} (h : attempt.Heeds) (hf : ∀ value, (f value).Heeds) :
    (attempt >>= f).Heeds := by
  intro exchanges result hrun
  obtain ⟨value, before, after, rfl, hbefore, hafter⟩ := ends_bind_ok.mp hrun
  exact List.forall_mem_append.mpr ⟨h _ _ hbefore, hf value _ _ hafter⟩

theorem heeds_unless {condition : Prop} [Decidable condition] {error : Error} {rest : Attempt β} (h : rest.Heeds) :
    (do if condition then throw error
        rest : Attempt β).Heeds := by
  intro exchanges result hrun
  exact h _ _ (ends_unless_ok.mp hrun).2

theorem heeds_mapM {f : α → Attempt β} (h : ∀ item, (f item).Heeds) (items : List α) : (items.mapM f).Heeds := by
  induction items with
  | nil => exact heeds_of_asks (asks_pure _)
  | cons item rest ih =>
    rw [List.mapM_cons]
    exact heeds_bind (h item) fun _ => heeds_bind ih fun _ => heeds_of_asks (asks_pure _)

end Attempt

namespace Edit

variable {α β : Type}

/-- The edit does not succeed once a look noticed a cancellation. -/
def Heeds (edit : Edit α) : Prop :=
  ∀ (before after : Psbt) (exchanges : List Exchange) (value : α), edit.Takes before exchanges (.ok value) after →
    ∀ exchange ∈ exchanges, noticesCancellation exchange = false

theorem heeds_attempt {a : Attempt α} (h : a.Heeds) : (attempt a).Heeds :=
  fun _ _ _ _ hrun => h _ _ (takes_attempt.mp hrun).1

/-- What stays within the limits of committed signing does not look at the cancellation. -/
theorem heeds_of_within {edit : Edit α} (h : edit.Within (signingLimits .committed)) : edit.Heeds := by
  intro before after exchanges value hrun exchange hmem
  refine noticesCancellation_of_ne fun hlook => ?_
  have hpermits : Cancellation.permits .committed exchange.1 := (h _ _ _ _ hrun).2 exchange hmem
  rw [hlook] at hpermits
  cases hpermits

theorem heeds_bind {edit : Edit α} {f : α → Edit β} (h : edit.Heeds) (hf : ∀ value, (f value).Heeds) :
    (edit >>= f).Heeds := by
  intro before after exchanges result hrun
  obtain ⟨value, middle, first, rest, rfl, hfirst, hrest⟩ := takes_bind_ok.mp hrun
  exact List.forall_mem_append.mpr ⟨h _ _ _ _ hfirst, hf value _ _ _ _ hrest⟩

theorem heeds_forM {f : α → Edit PUnit} (h : ∀ item, (f item).Heeds) (items : List α) : (items.forM f).Heeds := by
  induction items with
  | nil => exact heeds_of_within (within_pure _)
  | cons item rest ih => exact heeds_bind (h item) fun _ => ih

theorem heeds_applyTo {edit : Edit α} (h : edit.Heeds) (psbt : Psbt) : (edit.applyTo psbt).Heeds := by
  intro exchanges edited hrun
  obtain ⟨value, htakes⟩ := ends_applyTo_ok.mp hrun
  exact h _ _ _ _ htakes

end Edit

theorem heeds_signInput (kind : SighashType) (cancellation : Cancellation) (index : Nat) (coin : Coin)
    (digest : Sized 32) : (signInput kind cancellation index coin digest).Heeds := by
  refine Edit.heeds_bind (heeds_attempt ?_) fun _ => heeds_of_within (within_modify fun _ => rfl)
  refine Attempt.heeds_bind (heeds_checkCancelled cancellation) fun _ => ?_
  refine Attempt.heeds_bind (heeds_of_asks ?_) fun _ => heeds_unless (heeds_of_asks (asks_pure _))
  exact asks_single (.sign coin.wallet digest) (by simp) fun _ _ hrun => ⟨_, run_ask.mp hrun⟩

theorem heeds_signAll (coins : List Coin) (kind : SighashType) (cancellation : Cancellation) :
    (signAll coins kind cancellation).Heeds := by
  have hsignInputs : ∀ prevouts spends, (signInputs prevouts spends kind cancellation).Heeds := by
    intro prevouts spends
    refine Edit.heeds_bind (heeds_of_within (within_prepareInputs .committed spends)) fun _ => ?_
    refine Edit.heeds_bind (heeds_of_within within_get) fun _ => ?_
    refine Edit.heeds_bind (heeds_of_within (within_ofExcept _)) fun messages => Edit.heeds_forM (fun item => ?_) _
    obtain ⟨⟨index, coin⟩, digest⟩ := item
    exact heeds_signInput kind cancellation index coin digest
  refine Edit.heeds_bind (heeds_of_within within_get) fun psbt => ?_
  dsimp only
  split
  · exact Edit.heeds_bind (heeds_of_within (within_throw _)) fun _ => hsignInputs _ _
  · exact hsignInputs _ _

theorem heeds_nextCheckpoint (info : OperatorInfo) (coin : Coin) : (nextCheckpoint info coin).Heeds :=
  Attempt.heeds_bind (heeds_checkCancelled .watched) fun _ =>
    Attempt.heeds_bind (heeds_ofExcept _) fun _ => Attempt.heeds_bind (heeds_ofExcept _) fun _ =>
      Attempt.heeds_bind (heeds_ofExcept _) fun _ =>
        Attempt.heeds_bind (heeds_applyTo (heeds_signAll _ _ _) _) fun _ =>
          Attempt.heeds_bind (heeds_ofExcept _) fun _ => heeds_of_asks (asks_pure _)

/-- No payment is built once a cancellation was noticed. -/
theorem heeds_buildPayment (coins : List Coin) (outputs : List TxOut) (info : OperatorInfo) (maxSubDust : Nat) :
    (buildPayment coins outputs info maxSubDust).Heeds := by
  refine heeds_unless (heeds_unless ?_)
  refine Attempt.heeds_bind (heeds_ofExcept _) fun _ => ?_
  refine Attempt.heeds_bind (heeds_mapM (heeds_nextCheckpoint info) coins) fun built => ?_
  refine Attempt.heeds_bind (heeds_ofExcept _) fun tx => Attempt.heeds_bind (heeds_ofExcept _) fun unsigned => ?_
  refine Attempt.heeds_bind (heeds_ofExcept _) fun checkpoints => ?_
  exact Attempt.heeds_bind (heeds_checkCancelled .watched) fun _ =>
    Attempt.heeds_bind (heeds_applyTo (heeds_signAll _ _ _) _) fun _ => heeds_of_asks (asks_pure _)

/-! ## Given up, or submitted -/

/-- Whether the question is a submission. -/
def Request.isSubmit : Request → Bool
  | .submit _ _ => true
  | _ => false

/-- Whether the question makes a payment final, or follows from one that is. -/
def Request.concludes : Request → Bool
  | .submit _ _ | .finalize _ _ | .cancelIntents _ => true
  | _ => false

theorem Request.concludes_of_isSubmit {request : Request} (h : request.isSubmit = true) : request.concludes = true := by
  cases request <;> first | rfl | cases h

/-- A send that failed and left nothing behind: the operator and the intents heard nothing of it, and the last call
released the locks, if they had been taken. -/
structure GivenUp (calls : List Exchange) (outcome : Except Error Receipt) : Prop where
  unheard : ∀ call ∈ calls, call.1.concludes = false
  failed : ∃ error, outcome = .error error
  released : ∀ outpoints seconds, (⟨.lock outpoints seconds, .ok ()⟩ : Exchange) ∈ calls →
    calls.getLast? = some ⟨.release outpoints, ()⟩

/-- The exchanges of a send that submitted immediately after a look, and of which no look noticed a cancellation. -/
def Submits (exchanges : List Exchange) : Prop :=
  (∃ before arkTx checkpoints reply after,
    exchanges = before ++ ⟨.cancelled, false⟩ :: ⟨.submit arkTx checkpoints, reply⟩ :: after) ∧
  ∀ exchange ∈ exchanges, noticesCancellation exchange = false

theorem Submits.append_left {first rest : List Exchange} (h : Submits rest)
    (hfirst : ∀ exchange ∈ first, noticesCancellation exchange = false) : Submits (first ++ rest) := by
  obtain ⟨⟨before, arkTx, checkpoints, reply, after, rfl⟩, hnone⟩ := h
  exact ⟨⟨first ++ before, arkTx, checkpoints, reply, after, (List.append_assoc ..).symm⟩,
    List.forall_mem_append.mpr ⟨hfirst, hnone⟩⟩

theorem Submits.append_right {first rest : List Exchange} (h : Submits first)
    (hrest : ∀ exchange ∈ rest, noticesCancellation exchange = false) : Submits (first ++ rest) := by
  obtain ⟨⟨before, arkTx, checkpoints, reply, after, rfl⟩, hnone⟩ := h
  exact ⟨⟨before, arkTx, checkpoints, reply, after ++ rest, by simp⟩, List.forall_mem_append.mpr ⟨hnone, hrest⟩⟩

/-- Every run of the attempt is given up or submits. -/
def Decides (attempt : Attempt Receipt) : Prop :=
  ∀ (exchanges : List Exchange) (outcome : Except Error Receipt), attempt.Ends exchanges outcome →
    GivenUp (callsOf exchanges) outcome ∨ Submits exchanges

/-- The questions that come before the locks. -/
def Request.isFirst : Request → Prop
  | .operatorInfo | .chainTime | .cancelled => True
  | _ => False

theorem concludes_of_isFirst {request : Request} (h : request.isFirst) : request.concludes = false := by
  cases request <;> first | rfl | exact h.elim

theorem mem_callsOf {exchanges : List Exchange} {call : Exchange} (h : call ∈ callsOf exchanges) : call ∈ exchanges :=
  (List.mem_filter.mp h).1

/-- What comes before the locks does not keep a send from being given up. -/
theorem GivenUp.append {first rest : List Exchange} {outcome : Except Error Receipt}
    (h : GivenUp (callsOf rest) outcome) (hfirst : ∀ exchange ∈ first, exchange.1.isFirst) :
    GivenUp (callsOf (first ++ rest)) outcome := by
  rw [callsOf_append]
  refine ⟨List.forall_mem_append.mpr ⟨?_, h.unheard⟩, h.failed, ?_⟩
  · exact fun call hmem => concludes_of_isFirst (hfirst call (mem_callsOf hmem))
  · intro outpoints seconds hlock
    rcases List.mem_append.mp hlock with hlock | hlock
    · exact (hfirst _ (mem_callsOf hlock)).elim
    · rw [List.getLast?_append, h.released outpoints seconds hlock, Option.some_or]

/-- A failure before the locks are taken. -/
theorem givenUp_nil (error : Error) : GivenUp (callsOf []) (.error error) :=
  ⟨fun _ hmem => absurd hmem List.not_mem_nil, ⟨error, rfl⟩, fun _ _ hmem => absurd hmem List.not_mem_nil⟩

theorem decides_bind {α : Type} {attempt : Attempt α} {f : α → Attempt Receipt} (hasks : attempt.Asks Request.isFirst)
    (hheeds : attempt.Heeds) (hf : ∀ value, Decides (f value)) : Decides (attempt >>= f) := by
  intro exchanges outcome hrun
  rcases ends_bind.mp hrun with ⟨value, first, rest, rfl, hfirst, hrest⟩ | ⟨error, hfailed, rfl⟩
  · exact (hf value _ _ hrest).imp (fun h => h.append (hasks _ _ hfirst)) fun h => h.append_left (hheeds _ _ hfirst)
  · have happend := (givenUp_nil error).append (hasks _ _ hfailed)
    rw [List.append_nil] at happend
    exact .inl happend

theorem decides_bind_single {α : Type} (request : Request) {attempt : Attempt α} {f : α → Attempt Receipt}
    (hfirst : request.isFirst) (hcall : request ≠ .cancelled)
    (hruns : ∀ exchanges outcome, attempt.Ends exchanges outcome → ∃ reply, exchanges = [⟨request, reply⟩])
    (hf : ∀ value, Decides (f value)) : Decides (attempt >>= f) :=
  decides_bind (asks_single request hfirst hruns) (heeds_of_asks (asks_single request hcall hruns)) hf

/-! ## Around the submission -/

/-- Nothing looks at the cancellation after the operator has answered. -/
theorem asks_afterSubmit (payment : OffchainPayment) (submitted : Submitted) :
    (do if submitted.arkTxid ≠ payment.arkTxid then
          throw (.operator (.wrongArkTx submitted.arkTxid payment.arkTxid))
        let finalized ← cosignCheckpoints payment submitted.checkpoints
        askFinalize submitted.arkTxid finalized
        return ⟨submitted.arkTxid, finalized.map Psbt.txid⟩ : Attempt Receipt).Asks (· ≠ .cancelled) := by
  have hcosigning : (cosignCheckpoints payment submitted.checkpoints).Asks (· ≠ .cancelled) := by
    refine asks_unless ((asks_cosigning payment submitted.checkpoints).imp ?_)
    rintro _ hpermits rfl
    cases hpermits
  refine asks_unless (asks_bind hcosigning fun finalized => asks_bind ?_ fun _ => asks_pure _)
  exact asks_single (.finalize submitted.arkTxid finalized) (by simp) fun _ _ hrun => ⟨_, run_ask.mp hrun⟩

theorem ends_submitPayment {payment : OffchainPayment} {exchanges : List Exchange} {outcome : Except Error Receipt}
    (h : (submitPayment payment).Ends exchanges outcome) :
    (exchanges = [⟨.cancelled, true⟩] ∧ ∃ error, outcome = .error error) ∨ Submits exchanges := by
  unfold submitPayment at h
  rcases ends_bind.mp h with ⟨_, _, rest, rfl, hlook, hrest⟩ | ⟨error, hlook, rfl⟩
  · rw [ends_checkCancelled_ok.mp hlook]
    obtain ⟨reply, after, rfl, hafter⟩ : ∃ reply after,
        rest = ⟨.submit payment.arkTx payment.checkpointPsbts, reply⟩ :: after ∧
          ∀ exchange ∈ after, noticesCancellation exchange = false := by
      rcases ends_bind.mp hrest with ⟨submitted, _, after, rfl, hsubmit, hafter⟩ | ⟨error, hsubmit, rfl⟩
      · rw [run_ask.mp hsubmit]
        refine ⟨_, after, rfl, fun exchange hmem => noticesCancellation_of_ne ?_⟩
        exact asks_afterSubmit payment submitted _ _ hafter exchange hmem
      · exact ⟨_, [], run_ask.mp hsubmit, by simp⟩
    refine .inr ⟨⟨[], _, _, reply, after, rfl⟩, ?_⟩
    exact List.forall_mem_append.mpr ⟨by simp [Cancellation.look, noticesCancellation],
      List.forall_mem_cons.mpr ⟨rfl, hafter⟩⟩
  · exact .inl ⟨ends_checkCancelled_error hlook, error, rfl⟩

/-- While the locks are held, a send fails with nothing but signatures asked for, or it submits. -/
theorem ends_sendLocked {settings : Settings} {info : OperatorInfo} {coins : List Coin} {outputs : List TxOut}
    {exchanges : List Exchange} {outcome : Except Error Receipt}
    (h : (sendLocked settings info coins outputs).Ends exchanges outcome) :
    ((∀ exchange ∈ exchanges, Cancellation.permits .watched exchange.1) ∧ ∃ error, outcome = .error error) ∨
      Submits exchanges := by
  have hasks := asks_buildPayment coins outputs info settings.maxSubDust
  rcases ends_bind.mp h with ⟨payment, building, submitting, rfl, hbuild, hsubmit⟩ | ⟨error, hbuild, rfl⟩
  · rcases ends_submitPayment hsubmit with ⟨rfl, hfailed⟩ | hsubmits
    · refine .inl ⟨List.forall_mem_append.mpr ⟨hasks _ _ hbuild, ?_⟩, hfailed⟩
      exact List.forall_mem_singleton.mpr rfl
    · exact .inr (hsubmits.append_left (heeds_buildPayment _ _ _ _ _ _ hbuild))
  · exact .inl ⟨hasks _ _ hbuild, error, rfl⟩

/-- The end of a send asks nothing about the cancellation, and after a failure it releases the locks only. -/
theorem run_conclude {outpoints : List OutPoint} {outcome result : Except Error Receipt} {exchanges : List Exchange}
    (h : Dialogue.Run (conclude outpoints outcome) exchanges result) :
    result = outcome ∧ (∀ exchange ∈ exchanges, noticesCancellation exchange = false) ∧
      ∀ error, outcome = .error error → exchanges = [⟨.release outpoints, ()⟩] := by
  obtain ⟨rfl, withdrawn, rfl⟩ := run_conclude_iff.mp h
  cases result with
  | ok receipt =>
    refine ⟨rfl, ?_, fun _ herror => absurd herror (by rintro ⟨⟩)⟩
    exact List.forall_mem_cons.mpr ⟨rfl, List.forall_mem_singleton.mpr rfl⟩
  | error error => exact ⟨rfl, List.forall_mem_singleton.mpr rfl, fun _ _ => rfl⟩

/-! ## The whole send -/

theorem concludes_of_permits {cancellation : Cancellation} {request : Request} (h : cancellation.permits request) :
    request.concludes = false := by
  cases request <;> first | rfl | exact h.elim

/-- A send that fails while it holds the locks releases them. -/
theorem givenUp_of_released {outpoints : List OutPoint} {seconds : Nat} {building : List Exchange} {error : Error}
    (h : ∀ exchange ∈ building, Cancellation.permits .watched exchange.1) :
    GivenUp (callsOf (⟨.lock outpoints seconds, .ok ()⟩ :: (building ++ [⟨.release outpoints, ()⟩])))
      (.error error) := by
  have hcalls : callsOf (⟨.lock outpoints seconds, .ok ()⟩ :: (building ++ [⟨.release outpoints, ()⟩])) =
      ⟨.lock outpoints seconds, .ok ()⟩ :: (callsOf building ++ [⟨.release outpoints, ()⟩]) := by
    rw [callsOf_cons, callsOf_append]
    rfl
  rw [hcalls]
  refine ⟨?_, ⟨error, rfl⟩, fun others limit hlock => ?_⟩
  · refine List.forall_mem_cons.mpr ⟨rfl, List.forall_mem_append.mpr ⟨?_, List.forall_mem_singleton.mpr rfl⟩⟩
    exact fun call hmem => concludes_of_permits (h call (mem_callsOf hmem))
  · rw [List.getLast?_cons, List.getLast?_concat, Option.getD_some]
    rcases List.mem_cons.mp hlock with hsame | hlock
    · cases hsame
      rfl
    · rcases List.mem_append.mp hlock with hlock | hlock
      · exact (h _ (mem_callsOf hlock)).elim
      · cases List.mem_singleton.mp hlock

theorem decides_sendUnder (settings : Settings) (info : OperatorInfo) (coins : List Coin) (outputs : List TxOut) :
    Decides (sendUnder settings info coins outputs) := by
  have hlook : (checkCancelled .watched).Asks Request.isFirst := by
    intro exchanges outcome hrun
    cases outcome with
    | ok _ =>
      rw [ends_checkCancelled_ok.mp hrun]
      exact List.forall_mem_singleton.mpr trivial
    | error error =>
      rw [ends_checkCancelled_error hrun]
      exact List.forall_mem_singleton.mpr trivial
  refine decides_bind_single .chainTime trivial (by simp) (fun _ _ hrun => ⟨_, run_ask.mp hrun⟩) fun now => ?_
  refine decides_bind (asks_ofExcept _) (heeds_ofExcept _) fun _ => ?_
  refine decides_bind hlook (heeds_checkCancelled .watched) fun _ => ?_
  intro exchanges outcome hrun
  rcases ends_bind.mp hrun with ⟨_, _, rest, rfl, hlock, hrest⟩ | ⟨error, hlock, rfl⟩
  · obtain ⟨_, locked, concluding, rfl, hlocked, hconclude⟩ := Dialogue.run_bind.mp hrest
    obtain ⟨rfl, hquiet, hreleased⟩ := run_conclude hconclude
    rw [run_ask.mp hlock]
    rcases ends_sendLocked hlocked with ⟨hpermits, error, rfl⟩ | hsubmits
    · rw [hreleased error rfl]
      exact .inl (givenUp_of_released hpermits)
    · exact .inr ((hsubmits.append_right hquiet).append_left (List.forall_mem_singleton.mpr rfl))
  · rw [run_ask.mp hlock]
    refine .inl ⟨List.forall_mem_singleton.mpr rfl, ⟨error, rfl⟩, fun outpoints seconds hmem => ?_⟩
    cases List.mem_singleton.mp hmem

/-- Every run of a send is given up, or submits immediately after a look and noticed nothing. -/
theorem decides_send (settings : Settings) (coins : List Coin) (outputs : List TxOut) :
    Decides (send settings coins outputs) := by
  refine decides_bind_single .operatorInfo trivial (by simp) (fun _ _ hrun => ⟨_, run_ask.mp hrun⟩) fun info => ?_
  exact decides_bind (asks_ofExcept _) (heeds_ofExcept _) fun _ => decides_sendUnder settings info coins outputs

/-- A send that succeeds submits and noticed no cancellation. -/
theorem submits_of_ends_send_ok {settings : Settings} {coins : List Coin} {outputs : List TxOut}
    {exchanges : List Exchange} {receipt : Receipt} (h : (send settings coins outputs).Ends exchanges (.ok receipt)) :
    Submits exchanges := by
  rcases decides_send settings coins outputs _ _ h with hgivenUp | hsubmits
  · obtain ⟨error, herror⟩ := hgivenUp.failed
    cases herror
  · exact hsubmits

/-- A send and its collaborators, and a cancellation during the call with some number. Until then the calls are those of
the send that is not cancelled. If none of them is the submission, the send is given up; if one of them is, all goes on
as without a cancellation. -/
theorem carryOut_send (settings : Settings) (coins : List Coin) (outputs : List TxOut) (collaborators : Collaborators)
    (number : Nat) :
    let disturbed := collaborators.carryOut (some number) (send settings coins outputs).run []
    let undisturbed := collaborators.carryOut none (send settings coins outputs).run []
    disturbed.2.take number = undisturbed.2.take number ∧
    ((∀ call ∈ disturbed.2.take number, call.1.isSubmit = false) → GivenUp disturbed.2 disturbed.1) ∧
    ((∃ call ∈ disturbed.2.take number, call.1.isSubmit = true) → disturbed = undisturbed) := by
  intro disturbed undisturbed
  obtain ⟨exchanges, hrun, hanswered, hcalls⟩ :=
    Collaborators.exists_run collaborators (some number) (send settings coins outputs).run []
  have hcalls : disturbed.2 = callsOf exchanges := hcalls
  refine ⟨Collaborators.take_carryOut collaborators number _ [], ?_⟩
  rcases decides_send settings coins outputs _ _ hrun with hgivenUp | hsubmits
  · rw [hcalls]
    refine ⟨fun _ => hgivenUp, ?_⟩
    rintro ⟨call, hmem, hsubmit⟩
    have hunheard := hgivenUp.unheard call (List.mem_of_mem_take hmem)
    rw [Request.concludes_of_isSubmit hsubmit] at hunheard
    cases hunheard
  · have hsame : disturbed = undisturbed := by
      have hwithout := Collaborators.carryOut_of_run hrun (hanswered.without_cancellation hsubmits.2)
      have hdisturbed : disturbed = (disturbed.1, callsOf exchanges) := Prod.ext rfl hcalls
      exact hdisturbed.trans hwithout.symm
    refine ⟨fun hnone => ?_, fun _ => hsame⟩
    -- The look before the submission did not notice the cancellation, which therefore comes later.
    obtain ⟨before, arkTx, checkpoints, reply, after, rfl⟩ := hsubmits.1
    obtain ⟨-, hlook, -⟩ := Collaborators.answered_append.mp hanswered
    have hlater : (callsOf before).length < number := Collaborators.lt_of_unnoticed hlook
    have hsubmission : (⟨.submit arkTx checkpoints, reply⟩ : Exchange) ∈ disturbed.2.take number := by
      obtain ⟨more, rfl⟩ := Nat.exists_eq_add_of_lt hlater
      have hsplit : callsOf (before ++ ⟨.cancelled, false⟩ :: ⟨.submit arkTx checkpoints, reply⟩ :: after) =
          callsOf before ++ ⟨.submit arkTx checkpoints, reply⟩ :: callsOf after := callsOf_append ..
      rw [hcalls, hsplit, Nat.add_assoc, List.take_length_add_append, List.take_succ_cons]
      exact List.mem_append_right _ List.mem_cons_self
    cases hnone _ hsubmission

/-- A send of two coins that succeeds, if it is not cancelled. If it is cancelled while it takes the locks, it is given
up and releases them; if it is cancelled during its last call, it succeeds all the same. -/
theorem carryOut_send_twoCoins :
    ∃ (collaborators : Collaborators) (last : Nat),
      let cancelledDuring (number : Nat) :=
        collaborators.carryOut (some number) (send Settings.default [sentCoin 0, sentCoin 1] [requestedOutput]).run []
      let outpoints := [sentCoin 0, sentCoin 1].map Coin.outpoint
      (∃ error, (cancelledDuring 3).1 = .error error) ∧
      (⟨.lock outpoints Settings.default.lockSeconds, .ok ()⟩ : Exchange) ∈ (cancelledDuring 3).2 ∧
      (cancelledDuring 3).2.getLast? = some ⟨.release outpoints, ()⟩ ∧
      ∃ receipt, (cancelledDuring last).1 = .ok receipt := by
  obtain ⟨exchanges, receipt, _, _, hsend, _⟩ := exists_send_repeating
  obtain ⟨⟨before, arkTx, checkpoints, reply, after, hsubmission⟩, hnone⟩ := submits_of_ends_send_ok hsend
  obtain ⟨collaborators, hanswered⟩ := Collaborators.exists_answered hnone
  have hundisturbed := Collaborators.carryOut_of_run hsend hanswered
  obtain ⟨info, now, payment, building, submitting, withdrawn, _, _, _, _, hcourse⟩ := ends_send_ok.mp hsend
  refine ⟨collaborators, (callsOf exchanges).length, ?_⟩
  intro cancelledDuring outpoints
  obtain ⟨htakeEarly, hearly, _⟩ :=
    carryOut_send Settings.default [sentCoin 0, sentCoin 1] [requestedOutput] collaborators 3
  obtain ⟨htakeLate, _, hlate⟩ :=
    carryOut_send Settings.default [sentCoin 0, sentCoin 1] [requestedOutput] collaborators (callsOf exchanges).length
  have hopening : (cancelledDuring 3).2.take 3 =
      callsOf (opening Settings.default info now [sentCoin 0, sentCoin 1]) := by
    rw [htakeEarly, hundisturbed, hcourse, List.append_assoc, List.append_assoc, callsOf_append]
    rfl
  have hall : (cancelledDuring (callsOf exchanges).length).2.take (callsOf exchanges).length = callsOf exchanges := by
    rw [htakeLate, hundisturbed]
    exact List.take_length
  have hgivenUp : GivenUp (cancelledDuring 3).2 (cancelledDuring 3).1 := by
    refine hearly ?_
    rw [hopening]
    simp [opening, callsOf, Request.isCall, Request.isSubmit]
  have hlocked : (⟨.lock outpoints Settings.default.lockSeconds, .ok ()⟩ : Exchange) ∈ (cancelledDuring 3).2 := by
    refine List.mem_of_mem_take (i := 3) ?_
    rw [hopening]
    simp [opening, callsOf, Request.isCall, outpoints]
  refine ⟨hgivenUp.failed, hlocked, hgivenUp.released _ _ hlocked, receipt, ?_⟩
  have hsubmitted : ∃ call ∈ callsOf exchanges, call.1.isSubmit = true := by
    refine ⟨⟨.submit arkTx checkpoints, reply⟩, ?_, rfl⟩
    rw [hsubmission]
    exact List.mem_filter.mpr ⟨by simp, rfl⟩
  rw [← hall] at hsubmitted
  exact (congrArg Prod.fst (hlate hsubmitted)).trans (congrArg Prod.fst hundisturbed)

end Vtxo.Spend
