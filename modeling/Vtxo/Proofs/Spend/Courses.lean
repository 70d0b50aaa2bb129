import Vtxo.Proofs.Spend.Cancellation

/-!
# The courses of a send

However the wallet, the operator, the chain, the locks and the store of intents answer, a send takes one of a few
courses. It fails before it asks for locks, or it is refused the locks, or it holds them, and then it concludes in the
same way whatever happened meanwhile. While it holds them, it comes to no submission, or to one, or to one that was
accepted and a finalization.

  1. `heldCourse_of_ends`: the courses of a send while it holds the locks.
  2. `course_of_ends`, `ends_send_held`: the courses of a whole send.
-/

set_option autoImplicit false

namespace Vtxo.Spend

open Attempt

/-! ## Courses while the locks are held -/

/-- The courses of a send that holds the locks. -/
inductive HeldCourse : List Exchange → Prop where
  /-- There is no payment to submit, or the send was cancelled. -/
  | withheld {exchanges : List Exchange}
      (hexchanges : ∀ exchange ∈ exchanges, Cancellation.permits .watched exchange.1) : HeldCourse exchanges
  /-- The payment was submitted and is not finalized. -/
  | submitted {before after : List Exchange} {arkTx : Psbt} {checkpoints : List Psbt} {reply : Except Error Submitted}
      (hbefore : ∀ exchange ∈ before, Cancellation.permits .watched exchange.1)
      (hafter : ∀ exchange ∈ after, Cancellation.permits .committed exchange.1) :
      HeldCourse (before ++ ⟨.submit arkTx checkpoints, reply⟩ :: after)
  /-- The operator accepted the payment under its own name, and it was finalized. -/
  | finalized {before signing : List Exchange} {arkTx : Psbt} {checkpoints finalized : List Psbt}
      {submitted : Submitted} {answer : Except Error Unit}
      (hbefore : ∀ exchange ∈ before, Cancellation.permits .watched exchange.1)
      (hsigning : ∀ exchange ∈ signing, Cancellation.permits .committed exchange.1)
      (hname : submitted.arkTxid = arkTx.txid) :
      HeldCourse (before ++ ⟨.submit arkTx checkpoints, .ok submitted⟩ ::
        (signing ++ [⟨.finalize arkTx.txid finalized, answer⟩]))

/-- After the operator has answered, a send signs again at most, or it finalizes what it submitted. -/
theorem ends_afterSubmit {payment : OffchainPayment} {submitted : Submitted} {exchanges : List Exchange}
    {outcome : Except Error Receipt}
    (h : (do if submitted.arkTxid ≠ payment.arkTxid then
               throw (.operator (.wrongArkTx submitted.arkTxid payment.arkTxid))
             let finalized ← cosignCheckpoints payment submitted.checkpoints
             askFinalize submitted.arkTxid finalized
             return ⟨submitted.arkTxid, finalized.map Psbt.txid⟩ : Attempt Receipt).Ends exchanges outcome) :
    (∀ exchange ∈ exchanges, Cancellation.permits .committed exchange.1) ∨
      ∃ signing finalized answer, submitted.arkTxid = payment.arkTxid ∧
        (∀ exchange ∈ signing, Cancellation.permits .committed exchange.1) ∧
        exchanges = signing ++ [⟨.finalize payment.arkTxid finalized, answer⟩] := by
  have hcosigning : (cosignCheckpoints payment submitted.checkpoints).Asks (Cancellation.permits .committed) :=
    asks_unless (asks_cosigning payment submitted.checkpoints)
  rcases ends_unless.mp h with ⟨_, rfl, _⟩ | ⟨hname, h⟩
  · exact .inl (List.forall_mem_nil _)
  rw [not_not.mp hname] at h
  rcases (ends_bind.mp h).symm with ⟨_, hsigning, _⟩ | ⟨finalized, signing, _, rfl, hsigning, h⟩
  · exact .inl (hcosigning _ _ hsigning)
  rcases ends_bind.mp h with ⟨_, _, _, rfl, hfinalize, hdone⟩ | ⟨_, hfinalize, _⟩
  · rw [run_ask.mp hfinalize, (ends_pure.mp hdone).1]
    exact .inr ⟨signing, finalized, _, not_not.mp hname, hcosigning _ _ hsigning, rfl⟩
  · rw [run_ask.mp hfinalize]
    exact .inr ⟨signing, finalized, _, not_not.mp hname, hcosigning _ _ hsigning, rfl⟩

theorem heldCourse_of_ends {settings : Settings} {info : OperatorInfo} {coins : List Coin} {outputs : List TxOut}
    {exchanges : List Exchange} {outcome : Except Error Receipt}
    (h : (sendLocked settings info coins outputs).Ends exchanges outcome) : HeldCourse exchanges := by
  have hasks := asks_buildPayment coins outputs info settings.maxSubDust
  rcases (ends_bind.mp h).symm with ⟨_, hbuild, _⟩ | ⟨payment, building, _, rfl, hbuild, h⟩
  · exact .withheld (hasks _ _ hbuild)
  unfold submitPayment at h
  rcases (ends_bind.mp h).symm with ⟨_, hlook, _⟩ | ⟨_, look, _, rfl, hlook, h⟩
  · exact .withheld (List.forall_mem_append.mpr ⟨hasks _ _ hbuild, asks_checkCancelled .watched _ _ hlook⟩)
  have hbefore : ∀ exchange ∈ building ++ look, Cancellation.permits .watched exchange.1 :=
    List.forall_mem_append.mpr ⟨hasks _ _ hbuild, asks_checkCancelled .watched _ _ hlook⟩
  rw [← List.append_assoc]
  rcases (ends_bind.mp h).symm with ⟨_, hsubmit, _⟩ | ⟨submitted, _, _, rfl, hsubmit, h⟩ <;> rw [run_ask.mp hsubmit]
  · exact .submitted hbefore (List.forall_mem_nil _)
  rcases ends_afterSubmit h with hsigning | ⟨signing, finalized, answer, hname, hsigning, rfl⟩
  · exact .submitted hbefore hsigning
  · exact .finalized hbefore hsigning hname

/-! ## Courses of a whole send -/

/-- What comes before the locks are asked for. -/
def preamble (info : OperatorInfo) (now : ChainTime) : List Exchange :=
  [⟨.operatorInfo, .ok info⟩, ⟨.chainTime, .ok now⟩, ⟨.cancelled, false⟩]

/-- The exchanges of a send that was granted its locks, by what was asked while it held them. -/
def whole (settings : Settings) (info : OperatorInfo) (now : ChainTime) (coins : List Coin) (locked : List Exchange)
    (outcome : Except Error Receipt) (withdrawn : Except Error Nat) : List Exchange :=
  preamble info now ++ ⟨.lock (coins.map Coin.outpoint) settings.lockSeconds, .ok ()⟩ ::
    (locked ++ concluding (coins.map Coin.outpoint) outcome withdrawn)

/-- The courses of a send. -/
inductive Course (settings : Settings) (coins : List Coin) (outputs : List TxOut) :
    List Exchange → Except Error Receipt → Prop where
  /-- The send fails before it asks for locks. -/
  | declined {exchanges : List Exchange} {error : Error} (hfirst : ∀ exchange ∈ exchanges, exchange.1.isFirst) :
      Course settings coins outputs exchanges (.error error)
  /-- The locks are not granted. -/
  | refused {info : OperatorInfo} {now : ChainTime} {error : Error} (hcheck : checkCoins coins now = .ok ()) :
      Course settings coins outputs
        (preamble info now ++ [⟨.lock (coins.map Coin.outpoint) settings.lockSeconds, .error error⟩]) (.error error)
  /-- The locks are granted; whatever comes of it, they are released. -/
  | held {info : OperatorInfo} {now : ChainTime} {locked : List Exchange} {outcome : Except Error Receipt}
      {withdrawn : Except Error Nat} (hvalid : info.validate = .ok ()) (hcheck : checkCoins coins now = .ok ())
      (hlocked : (sendLocked settings info coins outputs).Ends locked outcome) :
      Course settings coins outputs (whole settings info now coins locked outcome withdrawn) outcome

section

variable {settings : Settings} {coins : List Coin} {outputs : List TxOut} {exchanges : List Exchange}
  {outcome : Except Error Receipt}

theorem course_of_ends (h : (send settings coins outputs).Ends exchanges outcome) :
    Course settings coins outputs exchanges outcome := by
  unfold send sendUnder at h
  -- Each step but the last declines, or leaves the rest to the next one.
  rcases (ends_bind.mp h).symm with ⟨_, hinfo, rfl⟩ | ⟨info, _, _, rfl, hinfo, h⟩ <;> rw [run_ask.mp hinfo]
  · exact .declined (by simp [Request.isFirst])
  rcases (ends_ofExcept_bind.mp h).symm with ⟨_, _, rfl, rfl⟩ | ⟨_, hvalid, h⟩
  · exact .declined (by simp [Request.isFirst])
  rcases (ends_bind.mp h).symm with ⟨_, htime, rfl⟩ | ⟨now, _, _, rfl, htime, h⟩ <;> rw [run_ask.mp htime]
  · exact .declined (by simp [Request.isFirst])
  rcases (ends_ofExcept_bind.mp h).symm with ⟨_, _, rfl, rfl⟩ | ⟨_, hcheck, h⟩
  · exact .declined (by simp [Request.isFirst])
  rcases (ends_bind.mp h).symm with ⟨_, hlook, rfl⟩ | ⟨_, _, _, rfl, hlook, h⟩
  · rw [ends_checkCancelled_error hlook]
    exact .declined (by simp [Request.isFirst])
  rw [ends_checkCancelled_ok.mp hlook]
  rcases (ends_bind.mp h).symm with ⟨_, hlock, rfl⟩ | ⟨_, _, _, rfl, hlock, h⟩ <;> rw [run_ask.mp hlock]
  · exact .refused hcheck
  obtain ⟨_, locked, _, rfl, hlocked, hconclude⟩ := Dialogue.run_bind.mp h
  obtain ⟨rfl, withdrawn, rfl⟩ := run_conclude_iff.mp hconclude
  exact .held hvalid hcheck hlocked

theorem ends_send_held {info : OperatorInfo} {now : ChainTime} {locked : List Exchange}
    (hvalid : info.validate = .ok ()) (hcheck : checkCoins coins now = .ok ())
    (hlocked : (sendLocked settings info coins outputs).Ends locked outcome) (withdrawn : Except Error Nat) :
    (send settings coins outputs).Ends (whole settings info now coins locked outcome withdrawn) outcome := by
  refine ends_bind.mpr (.inl ⟨info, [_], _, rfl, run_ask.mpr rfl, ?_⟩)
  refine ends_ofExcept_bind.mpr (.inl ⟨(), hvalid, ?_⟩)
  refine ends_bind.mpr (.inl ⟨now, [_], _, rfl, run_ask.mpr rfl, ?_⟩)
  refine ends_ofExcept_bind.mpr (.inl ⟨(), hcheck, ?_⟩)
  refine ends_bind.mpr (.inl ⟨(), [_], _, rfl, ends_checkCancelled_ok.mpr rfl, ?_⟩)
  refine ends_bind.mpr (.inl ⟨(), [_], _, rfl, run_ask.mpr rfl, ?_⟩)
  exact Dialogue.run_bind.mpr ⟨outcome, locked, _, rfl, hlocked, run_conclude_iff.mpr ⟨rfl, withdrawn, rfl⟩⟩

end

end Vtxo.Spend
