import Vtxo.Proofs.Spend.Courses
import Vtxo.Proofs.Spend.ServedLocks

/-!
# The protocol of a send

Coins that cannot be sent are declined before anything is locked. Locks that were granted are released once, on every
way out, and no others are. Between the two there is at most one submission, and a finalization only of what the
operator accepted under its own name. Intents are withdrawn after a success, and what comes of that changes nothing.

  1. `followsProtocol_of_unlocked`: sends that get no locks.
  2. `followsProtocol_of_held`: sends that hold the locks.
  3. `followsProtocol_send`: every send, whatever the answers are.
-/

set_option autoImplicit false

namespace Vtxo.Spend

/-! ## The protocol -/

/-- The outpoints that an exchange releases. -/
def release? : Exchange → Option (List OutPoint)
  | ⟨.release outpoints, _⟩ => some outpoints
  | _ => none

/-- The outpoints whose intents an exchange withdraws. -/
def withdrawal? : Exchange → Option (List OutPoint)
  | ⟨.cancelIntents outpoints, _⟩ => some outpoints
  | _ => none

/-- Whatever is finalized was submitted before and was accepted by the operator under the name it has. -/
def FinalizesAccepted (exchanges : List Exchange) : Prop :=
  ∀ (before after : List Exchange) (arkTxid : Txid) (finalized : List Psbt) (answer : Except Error Unit),
    exchanges = before ++ ⟨.finalize arkTxid finalized, answer⟩ :: after →
    ∃ (arkTx : Psbt) (checkpoints : List Psbt) (submitted : Submitted),
      (⟨.submit arkTx checkpoints, .ok submitted⟩ : Exchange) ∈ before ∧
      submitted.arkTxid = arkTx.txid ∧ arkTxid = arkTx.txid

/-- The protocol that the exchanges of a send and its outcome follow. -/
structure FollowsProtocol (settings : Settings) (coins : List Coin) (outputs : List TxOut)
    (exchanges : List Exchange) (outcome : Except Error Receipt) : Prop where
  /-- Nothing is locked, signed or submitted if a coin has expired or an outpoint occurs twice. -/
  declined : (∃ now coin, (⟨.chainTime, .ok now⟩ : Exchange) ∈ exchanges ∧ coin ∈ coins ∧ coin.isExpired now = true) ∨
      ¬ (coins.map Coin.outpoint).Nodup →
    ∀ exchange ∈ exchanges, exchange.1.isFirst
  /-- Nothing is released, signed or submitted if locks were refused. -/
  refused : ∀ (outpoints : List OutPoint) (seconds : Nat) (error : Error),
    (⟨.lock outpoints seconds, .error error⟩ : Exchange) ∈ exchanges →
    ∀ exchange ∈ exchanges, exchange.1.isFirst ∨ exchange.1 = .lock outpoints seconds
  /-- Locks are asked for on the coins' outpoints. -/
  locks : ∀ (outpoints : List OutPoint) (seconds : Nat) (answer : Except Error Unit),
    (⟨.lock outpoints seconds, answer⟩ : Exchange) ∈ exchanges →
    outpoints = coins.map Coin.outpoint ∧ seconds = settings.lockSeconds
  /-- Locks that were granted are released after that, once. -/
  released : ∀ (before after : List Exchange) (outpoints : List OutPoint) (seconds : Nat),
    exchanges = before ++ ⟨.lock outpoints seconds, .ok ()⟩ :: after →
    before.filterMap release? = [] ∧ after.filterMap release? = [outpoints]
  /-- Only locks that were granted are released. -/
  releasesOwn : ∀ (before after : List Exchange) (outpoints : List OutPoint),
    exchanges = before ++ ⟨.release outpoints, ()⟩ :: after →
    ∃ seconds, (⟨.lock outpoints seconds, .ok ()⟩ : Exchange) ∈ before
  /-- A lock table that serves the send has the same active locks before and after, unless some of them ran out. -/
  restores : ∀ (clock : Clock) (start finish : Nat) (table final : LockTable),
    Serves clock start table exchanges finish final →
    (∀ hold ∈ (table.prune start).holds, finish < hold.ends) →
    ∀ hold, hold ∈ (final.prune finish).holds ↔ hold ∈ (table.prune start).holds
  submitsOnce : exchanges.countP (fun exchange => exchange.1.isSubmit) ≤ 1
  finalizes : FinalizesAccepted exchanges
  /-- The intents that spend the coins are withdrawn once after a success, and not after a failure. -/
  withdraws : exchanges.filterMap withdrawal? = if outcome.toBool then [coins.map Coin.outpoint] else []
  /-- Had the store of intents answered otherwise, the outcome would be the same. -/
  indifferent : ∀ (before after : List Exchange) (outpoints : List OutPoint) (answer other : Except Error Nat),
    exchanges = before ++ ⟨.cancelIntents outpoints, answer⟩ :: after →
    (send settings coins outputs).Ends (before ++ ⟨.cancelIntents outpoints, other⟩ :: after) outcome

/-! ## Exchanges that conclude nothing -/

theorem finalization?_of_unheard {exchange : Exchange} (h : exchange.1.concludes = false) :
    finalization? exchange = none := by
  obtain ⟨request, answer⟩ := exchange
  cases request <;> first | rfl | cases h

theorem withdrawal?_of_unheard {exchange : Exchange} (h : exchange.1.concludes = false) :
    withdrawal? exchange = none := by
  obtain ⟨request, answer⟩ := exchange
  cases request <;> first | rfl | cases h

theorem countP_isSubmit_of_unheard {exchanges : List Exchange}
    (h : ∀ exchange ∈ exchanges, exchange.1.concludes = false) :
    exchanges.countP (fun exchange => exchange.1.isSubmit) = 0 := by
  refine List.countP_eq_zero.mpr fun exchange hmem hsubmit => ?_
  have hunheard := h exchange hmem
  rw [Request.concludes_of_isSubmit hsubmit] at hunheard
  cases hunheard

/-! ## What is finalized was accepted -/

theorem finalizesAccepted_of_none {exchanges : List Exchange}
    (h : ∀ exchange ∈ exchanges, finalization? exchange = none) : FinalizesAccepted exchanges := by
  rintro before after arkTxid finalized answer rfl
  cases h ⟨.finalize arkTxid finalized, answer⟩ (by simp)

theorem FinalizesAccepted.append {first rest : List Exchange} (hfirst : FinalizesAccepted first)
    (hrest : FinalizesAccepted rest) : FinalizesAccepted (first ++ rest) := by
  intro before after arkTxid finalized answer hsplit
  rcases List.append_eq_append_iff.mp hsplit with ⟨between, rfl, hlate⟩ | ⟨between, rfl, hearly⟩
  · obtain ⟨arkTx, checkpoints, submitted, hmem, haccepted⟩ := hrest _ _ _ _ _ hlate
    exact ⟨arkTx, checkpoints, submitted, List.mem_append_right _ hmem, haccepted⟩
  · cases between with
    | nil =>
      obtain ⟨_, _, _, hmem, _⟩ := hrest [] after arkTxid finalized answer hearly.symm
      cases hmem
    | cons exchange others =>
      obtain ⟨rfl, _⟩ := List.cons.inj hearly
      exact hfirst _ _ _ _ _ rfl

/-- The questions that are asked while the locks are held. -/
def Request.isHeld : Request → Prop
  | .sign _ _ | .cancelled | .submit _ _ | .finalize _ _ => True
  | _ => False

theorem isHeld_of_permits {cancellation : Cancellation} {request : Request} (h : cancellation.permits request) :
    request.isHeld := by
  cases request <;> trivial

namespace HeldCourse

variable {exchanges : List Exchange}

theorem finalizes (h : HeldCourse exchanges) : FinalizesAccepted exchanges := by
  cases h with
  | withheld h => exact finalizesAccepted_of_none fun exchange hmem => finalization?_of_permits (h exchange hmem)
  | submitted hbefore hafter =>
    refine finalizesAccepted_of_none (List.forall_mem_append.mpr ⟨?_, List.forall_mem_cons.mpr ⟨rfl, ?_⟩⟩)
    · exact fun exchange hmem => finalization?_of_permits (hbefore exchange hmem)
    · exact fun exchange hmem => finalization?_of_permits (hafter exchange hmem)
  | @finalized before signing arkTx checkpoints final submitted answer hbefore hsigning hname =>
    intro earlier later arkTxid finalized reply hsplit
    -- The finalization is the last exchange, and there is no other.
    have hnone : (⟨.finalize arkTxid finalized, reply⟩ : Exchange) ∉
        before ++ ⟨.submit arkTx checkpoints, .ok submitted⟩ :: signing := by
      intro hmem
      rcases List.mem_append.mp hmem with hmem | hmem
      · exact hbefore _ hmem
      · rcases List.mem_cons.mp hmem with heq | hmem
        · cases heq
        · exact hsigning _ hmem
    rw [← List.cons_append, ← List.append_assoc] at hsplit
    obtain ⟨rfl, hsame, _⟩ := (List.append_cons_inj_of_notMem hnone List.not_mem_nil).mp hsplit
    cases hsame
    exact ⟨arkTx, checkpoints, submitted, by simp, hname, rfl⟩

theorem submitsOnce (h : HeldCourse exchanges) : exchanges.countP (fun exchange => exchange.1.isSubmit) ≤ 1 := by
  have hnone : ∀ {cancellation : Cancellation} {part : List Exchange},
      (∀ exchange ∈ part, cancellation.permits exchange.1) →
      part.countP (fun exchange => exchange.1.isSubmit) = 0 :=
    fun hpermits => countP_isSubmit_of_unheard fun exchange hmem => concludes_of_permits (hpermits exchange hmem)
  cases h with
  | withheld h =>
    rw [hnone h]
    exact Nat.zero_le 1
  | submitted hbefore hafter =>
    rw [List.countP_append, List.countP_cons, hnone hbefore, hnone hafter]
    exact Nat.le_refl 1
  | finalized hbefore hsigning =>
    rw [List.countP_append, List.countP_cons, List.countP_append, hnone hbefore, hnone hsigning]
    exact Nat.le_refl 1

/-- While the locks are held, nothing is asked about locks or intents. -/
theorem isHeld (h : HeldCourse exchanges) : ∀ exchange ∈ exchanges, exchange.1.isHeld := by
  have hpermitted : ∀ {cancellation : Cancellation} {part : List Exchange},
      (∀ exchange ∈ part, cancellation.permits exchange.1) → ∀ exchange ∈ part, exchange.1.isHeld :=
    fun hpermits exchange hmem => isHeld_of_permits (hpermits exchange hmem)
  cases h with
  | withheld h => exact hpermitted h
  | submitted hbefore hafter =>
    exact List.forall_mem_append.mpr ⟨hpermitted hbefore, List.forall_mem_cons.mpr ⟨trivial, hpermitted hafter⟩⟩
  | finalized hbefore hsigning =>
    refine List.forall_mem_append.mpr ⟨hpermitted hbefore, List.forall_mem_cons.mpr ⟨trivial, ?_⟩⟩
    exact List.forall_mem_append.mpr ⟨hpermitted hsigning, List.forall_mem_singleton.mpr trivial⟩

end HeldCourse

/-! ## Sends that get no locks -/

theorem checkCoins_eq_ok {coins : List Coin} {now : ChainTime} :
    checkCoins coins now = .ok () ↔
      (∀ coin ∈ coins, coin.isExpired now = false) ∧ (coins.map Coin.outpoint).Nodup := by
  unfold checkCoins
  split
  · next expired hfound =>
    have hexpired := List.find?_some hfound
    refine ⟨(by rintro ⟨⟩), fun h => ?_⟩
    rw [h.1 expired (List.mem_of_find?_eq_some hfound)] at hexpired
    cases hexpired
  · next hnone =>
    have hall : ∀ coin ∈ coins, coin.isExpired now = false := by simpa using hnone
    split
    · next repeated hrepeated =>
      refine ⟨(by rintro ⟨⟩), fun h => ?_⟩
      have hnone := firstRepeated?_eq_none.mpr ⟨h.2, fun outpoint _ => (List.not_mem_nil : outpoint ∉ [])⟩
      rw [hnone] at hrepeated
      cases hrepeated
    · next hnone => exact ⟨fun _ => ⟨hall, (firstRepeated?_eq_none.mp hnone).1⟩, fun _ => rfl⟩

section

variable {settings : Settings} {coins : List Coin} {outputs : List TxOut} {exchanges : List Exchange} {error : Error}

/-- What is asked when no locks are granted: what comes before, and for the locks. -/
def Unlocked (settings : Settings) (coins : List Coin) (exchange : Exchange) : Prop :=
  exchange.1.isFirst ∨ ∃ error, exchange = ⟨.lock (coins.map Coin.outpoint) settings.lockSeconds, .error error⟩

theorem Unlocked.unheard {exchange : Exchange} (h : Unlocked settings coins exchange) :
    exchange.1.concludes = false := by
  rcases h with hfirst | ⟨_, rfl⟩
  · exact concludes_of_isFirst hfirst
  · rfl

theorem bracketed_of_unlocked (h : ∀ exchange ∈ exchanges, Unlocked settings coins exchange) :
    Bracketed exchanges := by
  induction exchanges with
  | nil => exact .nil
  | cons exchange rest ih =>
    obtain ⟨hexchange, hrest⟩ := List.forall_mem_cons.mp h
    rcases hexchange with hfirst | ⟨error, rfl⟩
    · refine .other ?_ (ih hrest)
      obtain ⟨request, answer⟩ := exchange
      cases request <;> first | rfl | exact hfirst.elim
    · exact .refused (ih hrest)

/-- A send that gets no locks follows the protocol. -/
theorem followsProtocol_of_unlocked (h : ∀ exchange ∈ exchanges, Unlocked settings coins exchange)
    (hdeclined : (∃ now coin, (⟨.chainTime, .ok now⟩ : Exchange) ∈ exchanges ∧ coin ∈ coins ∧
        coin.isExpired now = true) ∨ ¬ (coins.map Coin.outpoint).Nodup →
      ∀ exchange ∈ exchanges, exchange.1.isFirst) :
    FollowsProtocol settings coins outputs exchanges (.error error) where
  declined := hdeclined
  refused := by
    intro outpoints seconds fault hmem exchange hexchange
    rcases h _ hmem with hfirst | ⟨_, hsame⟩
    · exact hfirst.elim
    · cases hsame
      refine (h exchange hexchange).imp_right ?_
      rintro ⟨_, rfl⟩
      rfl
  locks := by
    intro outpoints seconds answer hmem
    rcases h _ hmem with hfirst | ⟨_, hsame⟩
    · exact hfirst.elim
    · cases hsame
      exact ⟨rfl, rfl⟩
  released := by
    rintro before after outpoints seconds rfl
    rcases h ⟨.lock outpoints seconds, .ok ()⟩ (by simp) with hfirst | ⟨_, hsame⟩
    · exact hfirst.elim
    · cases hsame
  releasesOwn := by
    rintro before after outpoints rfl
    rcases h ⟨.release outpoints, ()⟩ (by simp) with hfirst | ⟨_, hsame⟩
    · exact hfirst.elim
    · cases hsame
  restores := by
    intro clock start finish table final hserves hlasting
    exact (sameFrom_of_bracketed (bracketed_of_unlocked h) hserves).mem_holds_iff hserves.le hlasting
  submitsOnce := by
    rw [countP_isSubmit_of_unheard fun exchange hmem => (h exchange hmem).unheard]
    exact Nat.zero_le 1
  finalizes :=
    finalizesAccepted_of_none fun exchange hmem => finalization?_of_unheard (h exchange hmem).unheard
  withdraws := List.filterMap_eq_nil_iff.mpr fun exchange hmem => withdrawal?_of_unheard (h exchange hmem).unheard
  indifferent := by
    rintro before after outpoints answer other rfl
    cases (h ⟨.cancelIntents outpoints, answer⟩ (by simp)).unheard

end

/-! ## Sends that hold the locks -/

section

variable {settings : Settings} {coins : List Coin} {outputs : List TxOut} {info : OperatorInfo} {now : ChainTime}
  {locked : List Exchange} {outcome : Except Error Receipt} {withdrawn : Except Error Nat}

theorem eq_of_mem_concluding {outpoints : List OutPoint} {exchange : Exchange}
    (h : exchange ∈ concluding outpoints outcome withdrawn) :
    exchange = ⟨.release outpoints, ()⟩ ∨
      (exchange = ⟨.cancelIntents outpoints, withdrawn⟩ ∧ outcome.toBool = true) := by
  rcases List.mem_cons.mp h with rfl | hmem
  · exact .inl rfl
  · split at hmem
    · next hok => exact .inr ⟨List.mem_singleton.mp hmem, hok⟩
    · cases hmem

theorem mem_whole {exchange : Exchange} (hheld : ∀ exchange ∈ locked, exchange.1.isHeld)
    (h : exchange ∈ whole settings info now coins locked outcome withdrawn) :
    exchange ∈ preamble info now ∨
      exchange = ⟨.lock (coins.map Coin.outpoint) settings.lockSeconds, .ok ()⟩ ∨ exchange.1.isHeld ∨
      exchange = ⟨.release (coins.map Coin.outpoint), ()⟩ ∨
      (exchange = ⟨.cancelIntents (coins.map Coin.outpoint), withdrawn⟩ ∧ outcome.toBool = true) := by
  rcases List.mem_append.mp h with hmem | hmem
  · exact .inl hmem
  · rcases List.mem_cons.mp hmem with hlock | hmem
    · exact .inr (.inl hlock)
    · rcases List.mem_append.mp hmem with hmem | hmem
      · exact .inr (.inr (.inl (hheld exchange hmem)))
      · exact .inr (.inr (.inr (eq_of_mem_concluding hmem)))

theorem isFirst_of_mem_preamble {exchange : Exchange} (h : exchange ∈ preamble info now) : exchange.1.isFirst := by
  have hall : ∀ exchange ∈ preamble info now, exchange.1.isFirst := by simp [preamble, Request.isFirst]
  exact hall exchange h

theorem chainTime_of_mem_whole (hheld : ∀ exchange ∈ locked, exchange.1.isHeld) {time : ChainTime}
    (h : (⟨.chainTime, .ok time⟩ : Exchange) ∈ whole settings info now coins locked outcome withdrawn) :
    time = now := by
  rcases mem_whole hheld h with hmem | hsame | hmem | hsame | ⟨hsame, _⟩
  · simpa [preamble] using hmem
  · cases hsame
  · exact hmem.elim
  · cases hsame
  · cases hsame

theorem lock_of_mem_whole (hheld : ∀ exchange ∈ locked, exchange.1.isHeld) {outpoints : List OutPoint} {seconds : Nat}
    {answer : Except Error Unit}
    (h : (⟨.lock outpoints seconds, answer⟩ : Exchange) ∈ whole settings info now coins locked outcome withdrawn) :
    outpoints = coins.map Coin.outpoint ∧ seconds = settings.lockSeconds ∧ answer = .ok () := by
  rcases mem_whole hheld h with hmem | hsame | hmem | hsame | ⟨hsame, _⟩
  · exact (isFirst_of_mem_preamble hmem).elim
  · cases hsame
    exact ⟨rfl, rfl, rfl⟩
  · exact hmem.elim
  · cases hsame
  · cases hsame

theorem release?_of_isHeld {exchange : Exchange} (h : exchange.1.isHeld) : release? exchange = none := by
  obtain ⟨request, answer⟩ := exchange
  cases request <;> first | rfl | exact h.elim

theorem isLocking_of_isHeld {request : Request} (h : request.isHeld) : request.isLocking = false := by
  cases request <;> first | rfl | exact h.elim

theorem released_whole (hheld : ∀ exchange ∈ locked, exchange.1.isHeld) {before after : List Exchange}
    {outpoints : List OutPoint} {seconds : Nat}
    (h : whole settings info now coins locked outcome withdrawn =
      before ++ ⟨.lock outpoints seconds, .ok ()⟩ :: after) :
    before.filterMap release? = [] ∧ after.filterMap release? = [outpoints] := by
  have hfirst : (⟨.lock outpoints seconds, .ok ()⟩ : Exchange) ∉ preamble info now :=
    fun hmem => isFirst_of_mem_preamble hmem
  have hrest : (⟨.lock outpoints seconds, .ok ()⟩ : Exchange) ∉
      locked ++ concluding (coins.map Coin.outpoint) outcome withdrawn := by
    intro hmem
    rcases List.mem_append.mp hmem with hmem | hmem
    · exact hheld _ hmem
    · rcases eq_of_mem_concluding hmem with hsame | ⟨hsame, _⟩ <;> cases hsame
  obtain ⟨rfl, hsame, rfl⟩ := (List.append_cons_inj_of_notMem hfirst hrest).mp h
  cases hsame
  refine ⟨rfl, ?_⟩
  have hnone : locked.filterMap release? = [] :=
    List.filterMap_eq_nil_iff.mpr fun exchange hmem => release?_of_isHeld (hheld exchange hmem)
  rw [List.filterMap_append, hnone]
  cases outcome <;> rfl

theorem releasesOwn_whole (hheld : ∀ exchange ∈ locked, exchange.1.isHeld) {before after : List Exchange}
    {outpoints : List OutPoint}
    (h : whole settings info now coins locked outcome withdrawn = before ++ ⟨.release outpoints, ()⟩ :: after) :
    ∃ seconds, (⟨.lock outpoints seconds, .ok ()⟩ : Exchange) ∈ before := by
  have hwhole : whole settings info now coins locked outcome withdrawn =
      (preamble info now ++ ⟨.lock (coins.map Coin.outpoint) settings.lockSeconds, .ok ()⟩ :: locked) ++
        concluding (coins.map Coin.outpoint) outcome withdrawn := by
    simp [whole]
  have hfirst : (⟨.release outpoints, ()⟩ : Exchange) ∉
      preamble info now ++ ⟨.lock (coins.map Coin.outpoint) settings.lockSeconds, .ok ()⟩ :: locked := by
    intro hmem
    rcases List.mem_append.mp hmem with hmem | hmem
    · exact isFirst_of_mem_preamble hmem
    · rcases List.mem_cons.mp hmem with hsame | hmem
      · cases hsame
      · exact hheld _ hmem
  have hrest : (⟨.release outpoints, ()⟩ : Exchange) ∉
      if outcome.toBool then [⟨.cancelIntents (coins.map Coin.outpoint), withdrawn⟩] else [] := by
    split <;> simp
  rw [hwhole] at h
  obtain ⟨rfl, hsame, _⟩ := (List.append_cons_inj_of_notMem hfirst hrest).mp h
  cases hsame
  exact ⟨settings.lockSeconds, by simp⟩

theorem bracketed_whole (hheld : ∀ exchange ∈ locked, exchange.1.isHeld) :
    Bracketed (whole settings info now coins locked outcome withdrawn) := by
  have hduring : Bracketed locked := bracketed_of_other fun exchange hmem => isLocking_of_isHeld (hheld exchange hmem)
  have hafter : Bracketed (if outcome.toBool then [⟨.cancelIntents (coins.map Coin.outpoint), withdrawn⟩] else []) := by
    split
    · exact .other rfl .nil
    · exact .nil
  exact (Bracketed.granted hduring hafter).append_left (by simp [preamble, Request.isLocking])

theorem withdraws_whole (hheld : ∀ exchange ∈ locked, exchange.1.isHeld) :
    (whole settings info now coins locked outcome withdrawn).filterMap withdrawal? =
      if outcome.toBool then [coins.map Coin.outpoint] else [] := by
  have hnone : locked.filterMap withdrawal? = [] := by
    refine List.filterMap_eq_nil_iff.mpr fun exchange hmem => ?_
    have hexchange := hheld exchange hmem
    obtain ⟨request, answer⟩ := exchange
    cases request <;> first | rfl | exact hexchange.elim
  rw [whole, List.filterMap_append, List.filterMap_cons_none rfl, List.filterMap_append, hnone]
  cases outcome <;> rfl

theorem submitsOnce_whole (h : HeldCourse locked) :
    (whole settings info now coins locked outcome withdrawn).countP (fun exchange => exchange.1.isSubmit) ≤ 1 := by
  have hopening : (preamble info now).countP (fun exchange => exchange.1.isSubmit) = 0 := rfl
  have hclosing : (concluding (coins.map Coin.outpoint) outcome withdrawn).countP
      (fun exchange => exchange.1.isSubmit) = 0 := by
    cases outcome <;> rfl
  rw [whole, List.countP_append, List.countP_cons, List.countP_append, hopening, hclosing, Nat.zero_add]
  exact h.submitsOnce

theorem finalizes_whole (h : HeldCourse locked) :
    FinalizesAccepted (whole settings info now coins locked outcome withdrawn) := by
  have hclosing : FinalizesAccepted (concluding (coins.map Coin.outpoint) outcome withdrawn) := by
    refine finalizesAccepted_of_none fun exchange hmem => ?_
    rcases eq_of_mem_concluding hmem with rfl | ⟨rfl, _⟩ <;> rfl
  have hlocking : FinalizesAccepted [⟨.lock (coins.map Coin.outpoint) settings.lockSeconds, .ok ()⟩] :=
    finalizesAccepted_of_none (List.forall_mem_singleton.mpr rfl)
  have hopening : FinalizesAccepted (preamble info now) :=
    finalizesAccepted_of_none (List.forall_mem_cons.mpr ⟨rfl, List.forall_mem_cons.mpr ⟨rfl,
      List.forall_mem_singleton.mpr rfl⟩⟩)
  exact hopening.append (hlocking.append (h.finalizes.append hclosing))

/-- The answer of the store of intents is the last exchange, if there is one. -/
theorem answered_otherwise (hheld : ∀ exchange ∈ locked, exchange.1.isHeld) {before after : List Exchange}
    {outpoints : List OutPoint} {answer : Except Error Nat} (other : Except Error Nat)
    (h : whole settings info now coins locked outcome withdrawn =
      before ++ ⟨.cancelIntents outpoints, answer⟩ :: after) :
    before ++ ⟨.cancelIntents outpoints, other⟩ :: after = whole settings info now coins locked outcome other := by
  have hfirst : (⟨.cancelIntents outpoints, answer⟩ : Exchange) ∉
      preamble info now ++ ⟨.lock (coins.map Coin.outpoint) settings.lockSeconds, .ok ()⟩ ::
        (locked ++ [⟨.release (coins.map Coin.outpoint), ()⟩]) := by
    intro hmem
    rcases List.mem_append.mp hmem with hmem | hmem
    · exact isFirst_of_mem_preamble hmem
    · rcases List.mem_cons.mp hmem with hsame | hmem
      · cases hsame
      · rcases List.mem_append.mp hmem with hmem | hmem
        · exact hheld _ hmem
        · cases List.mem_singleton.mp hmem
  cases outcome with
  | error error =>
    refine absurd ?_ hfirst
    have hmem : (⟨.cancelIntents outpoints, answer⟩ : Exchange) ∈
        whole settings info now coins locked (.error error) withdrawn := by
      rw [h]
      simp
    exact hmem
  | ok receipt =>
    have hwhole : ∀ withdrawn, whole settings info now coins locked (.ok receipt) withdrawn =
        (preamble info now ++ ⟨.lock (coins.map Coin.outpoint) settings.lockSeconds, .ok ()⟩ ::
          (locked ++ [⟨.release (coins.map Coin.outpoint), ()⟩])) ++
          [⟨.cancelIntents (coins.map Coin.outpoint), withdrawn⟩] := by
      intro withdrawn
      simp [whole, concluding, Except.toBool]
    rw [hwhole] at h
    obtain ⟨rfl, hsame, rfl⟩ := (List.append_cons_inj_of_notMem hfirst List.not_mem_nil).mp h
    cases hsame
    exact (hwhole other).symm

/-- A send that holds the locks follows the protocol. -/
theorem followsProtocol_of_held (hvalid : info.validate = .ok ()) (hcheck : checkCoins coins now = .ok ())
    (hlocked : (sendLocked settings info coins outputs).Ends locked outcome) :
    FollowsProtocol settings coins outputs (whole settings info now coins locked outcome withdrawn) outcome := by
  have hcourse := heldCourse_of_ends hlocked
  have hheld := hcourse.isHeld
  obtain ⟨hunexpired, hdistinct⟩ := checkCoins_eq_ok.mp hcheck
  constructor
  case declined =>
    rintro (⟨time, coin, hmem, hcoin, hexpired⟩ | hrepeated)
    · rw [chainTime_of_mem_whole hheld hmem, hunexpired coin hcoin] at hexpired
      cases hexpired
    · exact absurd hdistinct hrepeated
  case refused =>
    intro outpoints seconds error hmem
    cases (lock_of_mem_whole hheld hmem).2.2
  case locks =>
    intro outpoints seconds answer hmem
    obtain ⟨houtpoints, hseconds, _⟩ := lock_of_mem_whole hheld hmem
    exact ⟨houtpoints, hseconds⟩
  case released => exact fun _ _ _ _ => released_whole hheld
  case releasesOwn => exact fun _ _ _ => releasesOwn_whole hheld
  case restores =>
    intro clock start finish table final hserves hlasting
    exact (sameFrom_of_bracketed (bracketed_whole hheld) hserves).mem_holds_iff hserves.le hlasting
  case submitsOnce => exact submitsOnce_whole hcourse
  case finalizes => exact finalizes_whole hcourse
  case withdraws => exact withdraws_whole hheld
  case indifferent =>
    intro before after outpoints answer other hsplit
    rw [answered_otherwise hheld other hsplit]
    exact ends_send_held hvalid hcheck hlocked other

end

/-- However it is answered, a send follows the protocol. -/
theorem followsProtocol_send {settings : Settings} {coins : List Coin} {outputs : List TxOut}
    {exchanges : List Exchange} {outcome : Except Error Receipt}
    (h : (send settings coins outputs).Ends exchanges outcome) :
    FollowsProtocol settings coins outputs exchanges outcome := by
  cases course_of_ends h with
  | declined hfirst =>
    exact followsProtocol_of_unlocked (fun exchange hmem => .inl (hfirst exchange hmem)) fun _ => hfirst
  | @refused info now error hcheck =>
    refine followsProtocol_of_unlocked (List.forall_mem_append.mpr ⟨?_, ?_⟩) fun hdeclined => ?_
    · exact fun exchange hmem => .inl (isFirst_of_mem_preamble hmem)
    · exact List.forall_mem_singleton.mpr (.inr ⟨error, rfl⟩)
    · obtain ⟨hunexpired, hdistinct⟩ := checkCoins_eq_ok.mp hcheck
      rcases hdeclined with ⟨time, coin, hmem, hcoin, hexpired⟩ | hrepeated
      · have htime : time = now := by simpa [preamble] using hmem
        rw [htime, hunexpired coin hcoin] at hexpired
        cases hexpired
      · exact absurd hdistinct hrepeated
  | held hvalid hcheck hlocked => exact followsProtocol_of_held hvalid hcheck hlocked

/-- A table without locks can serve a send that holds its locks, if the clock can show when they end. -/
theorem exists_serves_whole {clock : Clock} {settings : Settings}
    (hfits : settings.lockSeconds * clock.perSecond ≤ clock.last) (info : OperatorInfo) (now : ChainTime)
    (coins : List Coin) {locked : List Exchange} (hheld : ∀ exchange ∈ locked, exchange.1.isHeld)
    (outcome : Except Error Receipt) (withdrawn : Except Error Nat) :
    ∃ final, Serves clock 0 .empty (whole settings info now coins locked outcome withdrawn) 0 final := by
  let outpoints := coins.map Coin.outpoint
  let attempted := LockTable.empty.lock clock 0 outpoints (settings.lockSeconds * clock.perSecond)
  have hgranted : attempted.2 = .answered (.ok ()) :=
    LockTable.lock_eq_granted_iff.mpr ⟨fun _ _ => rfl, by rwa [Nat.zero_add]⟩
  have hclosing : Serves clock 0 attempted.1 (concluding outpoints outcome withdrawn) 0
      (attempted.1.release outpoints) := by
    refine .release (Nat.le_refl 0) ?_
    split
    · exact .other rfl (.done (Nat.le_refl 0))
    · exact .done (Nat.le_refl 0)
  refine ⟨_, Serves.append_left (.lock (Nat.le_refl 0) hgranted (hclosing.append_left ?_)) ?_⟩
  · exact fun exchange hmem => isLocking_of_isHeld (hheld exchange hmem)
  · simp [preamble, Request.isLocking]

/-- A send of two coins that succeeds, with a table that served it. -/
theorem followsProtocol_send_twoCoins :
    ∃ exchanges receipt final,
      (send Settings.default [sentCoin 0, sentCoin 1] [requestedOutput]).Ends exchanges (.ok receipt) ∧
      Serves .monotonic 0 .empty exchanges 0 final ∧
      FollowsProtocol Settings.default [sentCoin 0, sentCoin 1] [requestedOutput] exchanges (.ok receipt) := by
  obtain ⟨exchanges, receipt, _, _, hsend, _⟩ := exists_send_repeating
  obtain ⟨final, hserves⟩ : ∃ final, Serves .monotonic 0 .empty exchanges 0 final := by
    cases course_of_ends hsend with
    | held _ _ hlocked =>
      exact exists_serves_whole (by decide) _ _ _ (heldCourse_of_ends hlocked).isHeld _ _
  exact ⟨exchanges, receipt, final, hsend, hserves, followsProtocol_send hsend⟩

end Vtxo.Spend
