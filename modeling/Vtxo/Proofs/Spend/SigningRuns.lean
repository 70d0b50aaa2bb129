import Vtxo.Proofs.Spend.Runs

/-!
# What signing asks and changes

Signing asks for signatures and, as long as a cancellation has an effect, whether there was one. It changes what is
known about the inputs of a transaction, never the transaction, so the name of what is signed is known before.

  1. `within_signInputs`, `within_signAll`: the limits of signing, whatever the answers are.
  2. `ends_checkCancelled_ok`: what a look at the cancellation leaves behind when it does not end the attempt.
  3. `exists_ends_signAll`: what it takes for signing to succeed.
-/

set_option autoImplicit false

namespace Vtxo

/-- The coin's output commits to the script that the coin is spent through. -/
def Coin.Committed (coin : Coin) : Prop :=
  ∃ commitment block, coin.contract.commitment = .ok commitment ∧ commitment.controlBlock coin.leaf = .ok block

theorem exists_prepareInput {coin : Coin} (h : coin.Committed) (psbt : Psbt) {index : Nat}
    (hindex : index < psbt.tx.inputs.length) : ∃ prepared, psbt.prepareInput index coin = .ok prepared := by
  obtain ⟨commitment, block, hcommitment, hblock⟩ := h
  have hposition : ¬ psbt.inputs.length ≤ index := by
    rw [psbt.sized]
    omega
  refine ⟨psbt.modifyInput index (coin.prepare commitment block), ?_⟩
  unfold Psbt.prepareInput
  simp only [hcommitment, hblock, hposition, if_false, bind, Except.bind, pure, Except.pure]

end Vtxo

namespace Vtxo.Spend

open Attempt Edit

/-! ## Cancellation -/

namespace Cancellation

/-- What may be asked while signing. -/
def permits (cancellation : Cancellation) : Request → Prop
  | .sign _ _ => True
  | .cancelled => cancellation = .watched
  | _ => False

/-- The look at a cancellation that has not happened. -/
def look : Cancellation → List Exchange
  | .watched => [⟨.cancelled, false⟩]
  | .committed => []

end Cancellation

theorem checkCancelled_watched :
    checkCancelled .watched =
      ((ExceptT.lift (Request.ask .cancelled) : Attempt Bool) >>= fun cancelled =>
        if cancelled then throw .cancelled else pure ()) :=
  rfl

theorem ends_checkCancelled_ok {cancellation : Cancellation} {exchanges : List Exchange} :
    (checkCancelled cancellation).Ends exchanges (.ok ()) ↔ exchanges = cancellation.look := by
  cases cancellation with
  | committed => exact ends_pure.trans (by simp [Cancellation.look])
  | watched =>
    rw [checkCancelled_watched, ends_bind_ok]
    constructor
    · rintro ⟨cancelled, before, after, rfl, hask, hrest⟩
      obtain ⟨answer, hanswer, hask⟩ := ends_lift.mp hask
      cases hanswer
      cases run_ask.mp hask
      cases cancelled with
      | true => cases (ends_throw.mp hrest).2
      | false =>
        obtain ⟨rfl, _⟩ := ends_pure.mp hrest
        rfl
    · rintro rfl
      refine ⟨false, _, [], rfl, ends_lift.mpr ⟨false, rfl, run_ask.mpr rfl⟩, ends_pure.mpr ⟨rfl, rfl⟩⟩

theorem ends_checkCancelled_error {exchanges : List Exchange} {error : Error}
    (h : (checkCancelled .watched).Ends exchanges (.error error)) : exchanges = [⟨.cancelled, true⟩] := by
  rw [checkCancelled_watched] at h
  rcases ends_bind.mp h with ⟨cancelled, first, rest, rfl, hask, hrest⟩ | ⟨_, hask, _⟩
  · obtain ⟨answer, hanswer, hask⟩ := ends_lift.mp hask
    cases hanswer
    cases run_ask.mp hask
    cases cancelled with
    | true =>
      rw [(ends_throw.mp hrest).1]
      rfl
    | false => cases (ends_pure.mp hrest).2
  · obtain ⟨_, hanswer, _⟩ := ends_lift.mp hask
    cases hanswer

/-- A look at the cancellation asks nothing else, and nothing once the cancellation has no effect. -/
theorem asks_checkCancelled_of {cancellation : Cancellation} {asks : Request → Prop}
    (h : cancellation = .watched → asks .cancelled) : (checkCancelled cancellation).Asks asks := by
  cases cancellation with
  | committed => exact asks_pure ()
  | watched =>
    have hask : Attempt.Asks (ExceptT.lift (Request.ask .cancelled)) asks := asks_lift_ask (h rfl)
    refine asks_bind hask fun cancelled => ?_
    cases cancelled with
    | true => exact asks_throw _
    | false => exact asks_pure _

theorem asks_checkCancelled (cancellation : Cancellation) :
    (checkCancelled cancellation).Asks cancellation.permits :=
  asks_checkCancelled_of id

/-! ## Signing -/

/-- Signing asks what the cancellation permits and leaves the transaction as it is. -/
def signingLimits (cancellation : Cancellation) : Limits where
  asks := cancellation.permits
  changes before after := after.tx = before.tx
  unchanged _ := rfl
  combined h h' := h'.trans h

theorem within_prepareInput (cancellation : Cancellation) (index : Nat) (coin : Coin) :
    (do set (← Edit.ofExcept ((← get).prepareInput index coin)) : Edit Unit).Within
      (signingLimits cancellation) := by
  intro before after exchanges outcome hrun
  rcases takes_ofExcept_bind.mp (takes_get_bind.mp hrun) with ⟨prepared, hprepare, hstore⟩ | ⟨_, _, rfl, _, rfl⟩
  · obtain ⟨rfl, _, rfl⟩ := takes_set.mp hstore
    exact ⟨tx_prepareInput hprepare, List.forall_mem_nil _⟩
  · exact ⟨rfl, List.forall_mem_nil _⟩

theorem within_prepareInputs (cancellation : Cancellation) (spends : List (Nat × Coin)) :
    (prepareInputs spends).Within (signingLimits cancellation) := by
  refine within_forM (fun spend => ?_) spends
  obtain ⟨index, coin⟩ := spend
  exact within_prepareInput cancellation index coin

/-- Signing one input looks at the cancellation, asks for the signature and changes what is known about the input. -/
theorem within_signInput_of {limits : Limits} {kind : SighashType} {cancellation : Cancellation} {index : Nat}
    {coin : Coin} {digest : Sized 32} (hcancelled : cancellation = .watched → limits.asks .cancelled)
    (hsign : limits.asks (.sign coin.wallet digest))
    (hchange : ∀ psbt change, limits.changes psbt (psbt.modifyInput index change)) :
    (signInput kind cancellation index coin digest).Within limits := by
  refine within_bind (within_attempt ?_) fun _ => within_modify fun psbt => hchange psbt _
  refine asks_bind (asks_checkCancelled_of hcancelled) fun _ => asks_bind ?_ fun signed => ?_
  · exact asks_single (.sign coin.wallet digest) hsign fun _ _ hrun => ⟨_, run_ask.mp hrun⟩
  · dsimp only
    split
    · exact asks_bind (asks_throw _) fun _ => asks_pure _
    · exact asks_pure _

theorem within_signInput (kind : SighashType) (cancellation : Cancellation) (index : Nat) (coin : Coin)
    (digest : Sized 32) :
    (signInput kind cancellation index coin digest).Within (signingLimits cancellation) :=
  within_signInput_of id trivial fun _ _ => rfl

theorem within_signInputs (prevouts : List TxOut) (spends : List (Nat × Coin)) (kind : SighashType)
    (cancellation : Cancellation) :
    (signInputs prevouts spends kind cancellation).Within (signingLimits cancellation) := by
  refine within_bind (within_prepareInputs cancellation spends) fun _ => ?_
  refine within_bind within_get fun _ => within_bind (within_ofExcept _) fun _ => ?_
  refine within_forM (fun item => ?_) _
  obtain ⟨⟨index, coin⟩, digest⟩ := item
  exact within_signInput kind cancellation index coin digest

theorem within_signAll (coins : List Coin) (kind : SighashType) (cancellation : Cancellation) :
    (signAll coins kind cancellation).Within (signingLimits cancellation) := by
  refine within_bind within_get fun psbt => ?_
  dsimp only
  split
  · exact within_bind (within_throw _) fun _ => within_signInputs _ _ _ _
  · exact within_signInputs _ _ _ _

/-- What is signed keeps its name. -/
theorem tx_of_ends_signAll {coins : List Coin} {kind : SighashType} {cancellation : Cancellation}
    {psbt signed : Psbt} {exchanges : List Exchange}
    (h : ((signAll coins kind cancellation).applyTo psbt).Ends exchanges (.ok signed)) :
    signed.tx = psbt.tx := by
  obtain ⟨_, htakes⟩ := ends_applyTo_ok.mp h
  exact (within_signAll coins kind cancellation _ _ _ _ htakes).1

theorem asks_signAll (coins : List Coin) (kind : SighashType) (cancellation : Cancellation) (psbt : Psbt) :
    ((signAll coins kind cancellation).applyTo psbt).Asks cancellation.permits :=
  asks_applyTo (within_signAll coins kind cancellation)

/-! ## Coins and their positions -/

theorem getElem?_enumerate (coins : List Coin) (index : Nat) :
    (enumerate coins)[index]? = coins[index]?.map (index, ·) := by
  unfold enumerate
  rw [List.getElem?_map, List.getElem?_zipIdx, Option.map_map, Nat.zero_add]
  rfl

theorem mem_enumerate {coins : List Coin} {spend : Nat × Coin} :
    spend ∈ enumerate coins ↔ coins[spend.1]? = some spend.2 := by
  unfold enumerate
  rw [List.mem_map]
  constructor
  · rintro ⟨⟨coin, index⟩, hmem, rfl⟩
    exact List.mem_zipIdx_iff_getElem?.mp hmem
  · intro h
    exact ⟨(spend.2, spend.1), List.mem_zipIdx_iff_getElem?.mpr h, rfl⟩

theorem lt_of_mem_enumerate {coins : List Coin} {spend : Nat × Coin} (h : spend ∈ enumerate coins) :
    spend.1 < coins.length :=
  (List.getElem?_eq_some_iff.mp (mem_enumerate.mp h)).1

theorem nodup_enumerate (coins : List Coin) : ((enumerate coins).map Prod.fst).Nodup := by
  have hpositions : (enumerate coins).map Prod.fst = coins.zipIdx.map Prod.snd := by
    unfold enumerate
    rw [List.map_map]
    rfl
  rw [hpositions, List.zipIdx_map_snd]
  exact List.nodup_range'

theorem length_enumerate (coins : List Coin) : (enumerate coins).length = coins.length := by
  simp [enumerate]

/-! ## Signing that succeeds -/

/-- The answer with which signing goes on: a signature that is one under the key it comes with, and no cancellation. -/
def Cooperative : Exchange → Prop
  | ⟨.sign _ digest, answer⟩ =>
    ∃ key signature, answer = .ok (key, signature) ∧ Schnorr.verify key digest signature = true
  | ⟨.cancelled, answer⟩ => answer = false
  | _ => True

theorem cooperative_look (cancellation : Cancellation) : ∀ exchange ∈ cancellation.look, Cooperative exchange := by
  cases cancellation with
  | committed => exact List.forall_mem_nil _
  | watched => exact List.forall_mem_singleton.mpr rfl

theorem exists_takes_prepareInputs {spends : List (Nat × Coin)} {psbt : Psbt}
    (h : ∀ spend ∈ spends, spend.1 < psbt.tx.inputs.length ∧ spend.2.Committed) :
    ∃ exchanges prepared, (prepareInputs spends).Takes psbt exchanges (.ok ()) prepared ∧
      prepared.tx = psbt.tx ∧ ∀ exchange ∈ exchanges, Cooperative exchange := by
  refine exists_takes_forM (fun prepared => prepared.tx = psbt.tx) ?_ rfl
  intro spend hmem before hbefore
  obtain ⟨hindex, hcoin⟩ := h spend hmem
  obtain ⟨prepared, hprepare⟩ := exists_prepareInput hcoin before (hbefore ▸ hindex)
  refine ⟨[], prepared, ?_, (tx_prepareInput hprepare).trans hbefore, List.forall_mem_nil _⟩
  refine takes_get_bind.mpr (takes_ofExcept_bind.mpr (.inl ⟨prepared, hprepare, ?_⟩))
  exact takes_set.mpr ⟨rfl, rfl, rfl⟩

/-- A signature that verifies is recorded. -/
theorem takes_signInput {kind : SighashType} (cancellation : Cancellation) {index : Nat} {coin : Coin}
    {digest : Sized 32} {key : XOnlyKey} {signature : Signature} (h : Schnorr.verify key digest signature = true)
    (psbt : Psbt) :
    (signInput kind cancellation index coin digest).Takes psbt
      (cancellation.look ++ [⟨.sign coin.wallet digest, .ok (key, signature)⟩]) (.ok ())
      (psbt.modifyInput index fun maps => maps.addSignature key (leafHash coin.leaf) ⟨signature, kind⟩) := by
  have hrefused : ¬ (!Schnorr.verify key digest signature) = true := by simp [h]
  refine takes_bind_ok.mpr ⟨(key, signature), psbt, _, [], (List.append_nil _).symm, ?_,
    takes_modify.mpr ⟨rfl, rfl, rfl⟩⟩
  refine takes_attempt.mpr ⟨?_, rfl⟩
  refine ends_bind_ok.mpr ⟨(), cancellation.look, _, rfl, ends_checkCancelled_ok.mpr rfl, ?_⟩
  refine ends_bind_ok.mpr ⟨(key, signature), _, [], rfl, run_ask.mpr rfl, ?_⟩
  exact ends_unless_ok.mpr ⟨hrefused, ends_pure.mpr ⟨rfl, rfl⟩⟩

/-- A signature that is refused leaves the transaction as it is. -/
theorem takes_signInput_refused (kind : SighashType) (cancellation : Cancellation) (index : Nat) (coin : Coin)
    (digest : Sized 32) (error : Error) (psbt : Psbt) :
    (signInput kind cancellation index coin digest).Takes psbt
      (cancellation.look ++ [⟨.sign coin.wallet digest, .error error⟩]) (.error error) psbt := by
  have hlook : (checkCancelled cancellation).Ends cancellation.look (.ok ()) := ends_checkCancelled_ok.mpr rfl
  refine takes_bind.mpr (.inr ⟨error, takes_attempt.mpr ⟨?_, rfl⟩, rfl⟩)
  exact ends_bind.mpr (.inl ⟨(), _, _, rfl, hlook, ends_bind.mpr (.inr ⟨error, run_ask.mpr rfl, rfl⟩)⟩)

/-- Signing one input asks for its signature, whatever the answer is. -/
theorem exists_takes_signInput (kind : SighashType) (cancellation : Cancellation) (index : Nat) (coin : Coin)
    (digest : Sized 32) (answer : Reply (.sign coin.wallet digest)) :
    ∃ outcome, ∀ psbt, ∃ after, (signInput kind cancellation index coin digest).Takes psbt
      (cancellation.look ++ [⟨.sign coin.wallet digest, answer⟩]) outcome after := by
  cases answer with
  | error error =>
    exact ⟨.error error, fun psbt => ⟨psbt, takes_signInput_refused kind cancellation index coin digest error psbt⟩⟩
  | ok signed =>
    obtain ⟨key, signature⟩ := signed
    cases hverify : Schnorr.verify key digest signature with
    | true => exact ⟨.ok (), fun psbt => ⟨_, takes_signInput cancellation hverify psbt⟩⟩
    | false =>
      have hlook : (checkCancelled cancellation).Ends cancellation.look (.ok ()) := ends_checkCancelled_ok.mpr rfl
      refine ⟨.error (.signing (.badSignature index)), fun psbt => ⟨psbt, takes_bind.mpr (.inr ⟨_, ?_, rfl⟩)⟩⟩
      refine takes_attempt.mpr ⟨ends_bind.mpr (.inl ⟨(), _, _, rfl, hlook, ?_⟩), rfl⟩
      refine ends_bind.mpr (.inl ⟨(key, signature), _, [], rfl, run_ask.mpr rfl, ?_⟩)
      exact ends_unless.mpr (.inl ⟨by simp [hverify], rfl, rfl⟩)

/-- Every input is signed where there is one coin for each. -/
theorem takes_signAll {coins : List Coin} {kind : SighashType} {cancellation : Cancellation} {psbt after : Psbt}
    {exchanges : List Exchange} {outcome : Except Error Unit} (hcount : coins.length = psbt.inputs.length)
    (h : (signInputs (coins.map Coin.output) (enumerate coins) kind cancellation).Takes psbt exchanges outcome after) :
    (signAll coins kind cancellation).Takes psbt exchanges outcome after := by
  refine takes_get_bind.mpr ?_
  dsimp only
  rw [if_neg (not_not_intro hcount)]
  exact h

/-- Signing can succeed where there is one coin for each input, each coin's output commits to the coin's script, and
each digest has a signature. -/
theorem exists_ends_signAll {coins : List Coin} {kind : SighashType} (cancellation : Cancellation) {psbt : Psbt}
    {messages : List (Sized 32)} (hcount : coins.length = psbt.tx.inputs.length)
    (hcoins : ∀ coin ∈ coins, coin.Committed)
    (hdigests : digests psbt.tx (coins.map Coin.output) kind (enumerate coins) = .ok messages)
    (hsigned : ∀ digest ∈ messages, ∃ key signature, Schnorr.verify key digest signature = true) :
    ∃ exchanges signed, ((signAll coins kind cancellation).applyTo psbt).Ends exchanges (.ok signed) ∧
      ∀ exchange ∈ exchanges, Cooperative exchange := by
  have hspends : ∀ spend ∈ enumerate coins, spend.1 < psbt.tx.inputs.length ∧ spend.2.Committed := by
    intro spend hmem
    exact ⟨hcount ▸ lt_of_mem_enumerate hmem, hcoins spend.2 (List.mem_of_getElem? (mem_enumerate.mp hmem))⟩
  obtain ⟨preparing, prepared, hprepare, htx, hpreparing⟩ := exists_takes_prepareInputs hspends
  have hsigning : ∀ item ∈ (enumerate coins).zip messages, ∀ before, True → ∃ exchanges after,
      (signInput kind cancellation item.1.1 item.1.2 item.2).Takes before exchanges (.ok ()) after ∧ True ∧
        ∀ exchange ∈ exchanges, Cooperative exchange := by
    intro item hmem before _
    obtain ⟨key, signature, hverify⟩ := hsigned item.2 (List.of_mem_zip hmem).2
    refine ⟨_, _, takes_signInput cancellation hverify before, trivial, List.forall_mem_append.mpr ⟨?_, ?_⟩⟩
    · exact cooperative_look cancellation
    · exact List.forall_mem_singleton.mpr ⟨key, signature, rfl, hverify⟩
  obtain ⟨signing, signed, hsign, _, hsigning⟩ := exists_takes_forM (fun _ => True) hsigning trivial
  refine ⟨preparing ++ signing, signed, ends_applyTo_ok.mpr ⟨(), ?_⟩,
    List.forall_mem_append.mpr ⟨hpreparing, hsigning⟩⟩
  refine takes_signAll (hcount.trans psbt.sized.symm) ?_
  refine takes_bind_ok.mpr ⟨(), prepared, preparing, signing, rfl, hprepare, ?_⟩
  refine takes_get_bind.mpr (takes_ofExcept_bind.mpr (.inl ⟨messages, ?_, hsign⟩))
  rw [htx, hdigests]

end Vtxo.Spend
