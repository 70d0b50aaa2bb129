import Mathlib.Data.List.TakeWhile
import Vtxo.Proofs.Coin.Committed
import Vtxo.Proofs.Psbt.Changes

/-!
# What signing records

Signing first records on each input what the coin says that is spent there, and then each signature as soon as it has
been verified. The changes are made in place, so what a run leaves is a function of the answers that it got: the
preparations up to the first input that is not there, and the signatures that were verified, whether or not the run
went on to its end.

  1. `Coin.prepareInput_eq`: preparing an input fails only if there is no such input.
  2. `takes_prepareInput`, `takes_signInput_cases`: what one step does.
  3. `takes_prepareInputs`, `accepted_of_takes`: what one step after another does.
  4. `recorded_of_signInputs`: what a whole run leaves.
  5. `asked_of_signInputs`: what a whole run asks to have signed.
-/

set_option autoImplicit false

namespace Vtxo

namespace Coin

/-! ## Preparing an input -/

/-- What preparing an input does to its maps. -/
def preparation (coin : Coin) : InputMaps → InputMaps :=
  (do let commitment ← coin.contract.commitment
      let block ← commitment.controlBlock coin.leaf
      return coin.prepare commitment block : Except Error (InputMaps → InputMaps)).toOption.getD id

theorem exists_preparation (coin : Coin) :
    ∃ commitment block, coin.contract.commitment = .ok commitment ∧
      commitment.controlBlock coin.leaf = .ok block ∧ coin.preparation = coin.prepare commitment block := by
  obtain ⟨commitment, block, hcommitment, hblock⟩ := coin.committed
  refine ⟨commitment, block, hcommitment, hblock, ?_⟩
  simp only [preparation, hcommitment, hblock, bind, Except.bind, pure, Except.pure, Except.toOption, Option.getD_some]

theorem utxo_preparation (coin : Coin) (maps : InputMaps) : (coin.preparation maps).utxo = some coin.output := by
  obtain ⟨commitment, block, _, _, hpreparation⟩ := coin.exists_preparation
  rw [hpreparation, prepare]
  cases coin.extraWitness <;> rfl

theorem signatures_preparation (coin : Coin) (maps : InputMaps) :
    (coin.preparation maps).signatures = maps.signatures := by
  obtain ⟨commitment, block, _, _, hpreparation⟩ := coin.exists_preparation
  rw [hpreparation, prepare]
  cases coin.extraWitness <;> rfl

/-- Preparing an input fails only if there is no such input. -/
theorem prepareInput_eq (coin : Coin) (psbt : Psbt) (index : Nat) :
    psbt.prepareInput index coin =
      if psbt.inputs.length ≤ index then .error (.spend (.noInput index))
      else .ok (psbt.modifyInput index coin.preparation) := by
  obtain ⟨commitment, block, hcommitment, hblock, hpreparation⟩ := coin.exists_preparation
  simp only [Psbt.prepareInput, hcommitment, hblock, hpreparation, bind, Except.bind, pure, Except.pure]
  split <;> rfl

theorem prepareInput_eq_ok {coin : Coin} {psbt prepared : Psbt} {index : Nat} :
    psbt.prepareInput index coin = .ok prepared ↔
      index < psbt.inputs.length ∧ prepared = psbt.modifyInput index coin.preparation := by
  rw [prepareInput_eq]
  by_cases h : psbt.inputs.length ≤ index
  · rw [if_pos h]
    exact ⟨fun hfailed => absurd hfailed (by rintro ⟨⟩), fun hindex => absurd h (Nat.not_le.mpr hindex.1)⟩
  · rw [if_neg h, Except.ok.injEq]
    exact ⟨fun hprepared => ⟨Nat.not_le.mp h, hprepared.symm⟩, fun hprepared => hprepared.2.symm⟩

/-! ## Recording a signature -/

/-- What recording a signature with its key does to the maps of the input that spends the coin. -/
def recording (coin : Coin) (kind : SighashType) (signed : XOnlyKey × Signature) (maps : InputMaps) : InputMaps :=
  maps.addSignature signed.1 (leafHash coin.leaf) ⟨signed.2, kind⟩

theorem find?_recording (coin : Coin) (kind : SighashType) (signed : XOnlyKey × Signature) (maps : InputMaps)
    (signer : SignerKey) :
    (coin.recording kind signed maps).signatures.find? signer =
      if ⟨signed.1, leafHash coin.leaf⟩ = signer then some ⟨signed.2, kind⟩ else maps.signatures.find? signer :=
  maps.signatures.find?_insert _ _ _

end Coin

namespace Spend

open Attempt Edit

variable {prevouts : List TxOut} {spends : List (Nat × Coin)} {coins : List Coin} {kind : SighashType}
  {cancellation : Cancellation} {psbt before after : Psbt} {exchanges : List Exchange} {outcome : Except Error Unit}

/-! ## What is recorded -/

/-- The spends before the first one of an input that is not there. -/
def reachable (psbt : Psbt) (spends : List (Nat × Coin)) : List (Nat × Coin) :=
  spends.takeWhile fun spend => spend.1 < psbt.inputs.length

/-- What the coins say, each for its input. -/
def preparations (spends : List (Nat × Coin)) : List Psbt.Change :=
  spends.map fun spend => (spend.1, spend.2.preparation)

/-- The signatures of the first of some inputs. -/
def recordings (kind : SighashType) (spends : List (Nat × Coin)) (signed : List (XOnlyKey × Signature)) :
    List Psbt.Change :=
  (spends.zip signed).map fun entry => (entry.1.1, entry.1.2.recording kind entry.2)

/-- The signature, with its key, that an answer gives for the digest that was asked for. -/
def acceptedAnswer : Exchange → Option (XOnlyKey × Signature)
  | ⟨.sign _ digest, .ok (key, signature)⟩ =>
    if Schnorr.verify key digest signature then some (key, signature) else none
  | _ => none

/-- The signatures that were verified, with their keys. -/
def accepted (exchanges : List Exchange) : List (XOnlyKey × Signature) :=
  exchanges.filterMap acceptedAnswer

/-- A transaction after signing ended: prepared up to the first input that is not there, with the signatures that were
verified by then. -/
def recorded (psbt : Psbt) (spends : List (Nat × Coin)) (kind : SighashType)
    (signed : List (XOnlyKey × Signature)) : Psbt :=
  (psbt.modifyInputs (preparations (reachable psbt spends))).modifyInputs (recordings kind spends signed)

/-- The signature is one under the key for what the input signs. -/
def Verified (tx : Transaction) (prevouts : List TxOut) (kind : SighashType) (spend : Nat × Coin)
    (signed : XOnlyKey × Signature) : Prop :=
  ∃ digest, tx.sighash prevouts spend.1 (leafHash spend.2.leaf) kind = .ok digest ∧
    Schnorr.verify signed.1 digest signed.2 = true

theorem accepted_append (first rest : List Exchange) : accepted (first ++ rest) = accepted first ++ accepted rest :=
  List.filterMap_append

theorem accepted_singleton (exchange : Exchange) : accepted [exchange] = (acceptedAnswer exchange).toList := by
  unfold accepted
  rw [List.filterMap_cons]
  cases acceptedAnswer exchange <;> rfl

theorem acceptedAnswer_sign (wallet : String) (digest : Sized 32) (key : XOnlyKey) (signature : Signature) :
    acceptedAnswer ⟨.sign wallet digest, .ok (key, signature)⟩ =
      if Schnorr.verify key digest signature then some (key, signature) else none := rfl

theorem accepted_look (cancellation : Cancellation) : accepted cancellation.look = [] := by
  cases cancellation <;> rfl

/-! ## One step -/

/-- Preparing one input asks nothing. It does its change, or fails because there is no such input. -/
theorem takes_prepareInput {index : Nat} {coin : Coin}
    (h : (do set (← Edit.ofExcept ((← get).prepareInput index coin)) : Edit Unit).Takes psbt exchanges outcome after) :
    exchanges = [] ∧
      (index < psbt.inputs.length ∧ outcome = .ok () ∧ after = psbt.modifyInput index coin.preparation ∨
        psbt.inputs.length ≤ index ∧ outcome = .error (.spend (.noInput index)) ∧ after = psbt) := by
  rcases takes_ofExcept_bind.mp (takes_get_bind.mp h) with ⟨prepared, hprepare, hset⟩ | ⟨error, hfailed, rfl, rfl, rfl⟩
  · obtain ⟨rfl, rfl, rfl⟩ := takes_set.mp hset
    obtain ⟨hindex, rfl⟩ := Coin.prepareInput_eq_ok.mp hprepare
    exact ⟨rfl, .inl ⟨hindex, rfl, rfl⟩⟩
  · rw [Coin.prepareInput_eq] at hfailed
    split at hfailed
    · next hindex =>
      cases hfailed
      exact ⟨rfl, .inr ⟨hindex, rfl, rfl⟩⟩
    · cases hfailed

/-- Looking at the cancellation and asking for a signature gives a signature that was verified, or none. -/
theorem accepted_of_ends {wallet : String} {index : Nat} {digest : Sized 32}
    {outcome : Except Error (XOnlyKey × Signature)}
    (h : (do
      checkCancelled cancellation
      let (key, signature) ← askSignature wallet digest
      if !Schnorr.verify key digest signature then throw (.signing (.badSignature index))
      return (key, signature) : Attempt (XOnlyKey × Signature)).Ends exchanges outcome) :
    (∃ signed, outcome = .ok signed ∧ accepted exchanges = [signed] ∧
      Schnorr.verify signed.1 digest signed.2 = true) ∨
    ∃ error, outcome = .error error ∧ accepted exchanges = [] := by
  rcases ends_bind.mp h with ⟨_, looking, asking, rfl, hlook, hask⟩ | ⟨error, hlook, rfl⟩
  · rw [ends_checkCancelled_ok.mp hlook, accepted_append, accepted_look, List.nil_append]
    rcases ends_bind.mp hask with ⟨⟨key, signature⟩, answering, _, rfl, hanswer, hverify⟩ | ⟨error, hanswer, rfl⟩
    · rw [run_ask.mp hanswer, accepted_append, accepted_singleton, acceptedAnswer_sign]
      rcases ends_unless.mp hverify with ⟨hrefused, rfl, rfl⟩ | ⟨hverified, hdone⟩
      · rw [Bool.not_eq_true'] at hrefused
        rw [hrefused]
        exact .inr ⟨_, rfl, rfl⟩
      · obtain ⟨rfl, rfl⟩ := ends_pure.mp hdone
        rw [Bool.not_eq_true', Bool.not_eq_false] at hverified
        rw [hverified]
        exact .inl ⟨(key, signature), rfl, rfl, hverified⟩
    · rw [run_ask.mp hanswer]
      exact .inr ⟨error, rfl, rfl⟩
  · refine .inr ⟨error, rfl, ?_⟩
    cases cancellation with
    | watched =>
      rw [ends_checkCancelled_error hlook]
      rfl
    | committed => cases (ends_pure.mp hlook).2

/-- Signing one input records a signature that was verified, or fails and records nothing. -/
theorem takes_signInput_cases {index : Nat} {coin : Coin} {digest : Sized 32}
    (h : (signInput kind cancellation index coin digest).Takes before exchanges outcome after) :
    (∃ signed, outcome = .ok () ∧ accepted exchanges = [signed] ∧ Schnorr.verify signed.1 digest signed.2 = true ∧
      after = before.modifyInput index (coin.recording kind signed)) ∨
    outcome ≠ .ok () ∧ accepted exchanges = [] ∧ after = before := by
  unfold signInput at h
  rcases takes_bind.mp h with ⟨signed, middle, asking, rest, rfl, hask, hmodify⟩ | ⟨error, hask, rfl⟩
  · obtain ⟨rfl, rfl, rfl⟩ := takes_modify.mp hmodify
    obtain ⟨hends, rfl⟩ := takes_attempt.mp hask
    rw [List.append_nil]
    rcases accepted_of_ends hends with ⟨_, hsigned, haccepted, hverified⟩ | ⟨_, hfailed, _⟩
    · cases hsigned
      exact .inl ⟨signed, rfl, haccepted, hverified, rfl⟩
    · cases hfailed
  · obtain ⟨hends, rfl⟩ := takes_attempt.mp hask
    rcases accepted_of_ends hends with ⟨_, hsigned, _⟩ | ⟨_, _, haccepted⟩
    · cases hsigned
    · exact .inr ⟨by rintro ⟨⟩, haccepted, rfl⟩

/-! ## A whole run -/

theorem reachable_cons_of_lt {spend : Nat × Coin} (h : spend.1 < psbt.inputs.length) :
    reachable psbt (spend :: spends) = spend :: reachable psbt spends :=
  List.takeWhile_cons_of_pos (by simpa using h)

theorem reachable_cons_of_le {spend : Nat × Coin} (h : psbt.inputs.length ≤ spend.1) :
    reachable psbt (spend :: spends) = [] :=
  List.takeWhile_cons_of_neg (by simpa using h)

theorem lt_of_mem_reachable {spend : Nat × Coin} (h : spend ∈ reachable psbt spends) :
    spend.1 < psbt.inputs.length := by
  unfold reachable at h
  simpa using List.mem_takeWhile_imp h

theorem reachable_modifyInput (index : Nat) (change : InputMaps → InputMaps) :
    reachable (psbt.modifyInput index change) spends = reachable psbt spends := by
  unfold reachable
  rw [Psbt.length_modifyInput]

theorem recorded_nil : recorded psbt spends kind [] = psbt.modifyInputs (preparations (reachable psbt spends)) := by
  unfold recorded recordings
  rw [List.zip_nil_right]
  rfl

/-- Preparing asks nothing and goes on to the first input that is not there. -/
theorem takes_prepareInputs (h : (prepareInputs spends).Takes psbt exchanges outcome after) :
    exchanges = [] ∧ after = psbt.modifyInputs (preparations (reachable psbt spends)) ∧
      (outcome = .ok () → reachable psbt spends = spends) := by
  induction spends generalizing psbt exchanges with
  | nil =>
    obtain ⟨rfl, _, rfl⟩ := takes_pure.mp h
    exact ⟨rfl, rfl, fun _ => rfl⟩
  | cons spend spends ih =>
    rcases takes_bind.mp h with ⟨_, middle, first, rest, rfl, hfirst, hrest⟩ | ⟨error, hfirst, rfl⟩
    · obtain ⟨rfl, ⟨hindex, _, rfl⟩ | ⟨_, hfailed, _⟩⟩ := takes_prepareInput hfirst
      · obtain ⟨rfl, rfl, hall⟩ := ih hrest
        rw [reachable_modifyInput] at hall ⊢
        rw [reachable_cons_of_lt hindex]
        exact ⟨rfl, rfl, fun hok => congrArg (spend :: ·) (hall hok)⟩
      · cases hfailed
    · obtain ⟨rfl, ⟨_, hok, _⟩ | ⟨hindex, _, rfl⟩⟩ := takes_prepareInput hfirst
      · cases hok
      · rw [reachable_cons_of_le hindex]
        exact ⟨rfl, rfl, by rintro ⟨⟩⟩

/-- Signing one input after another records the signatures in the order in which they were verified. -/
theorem accepted_of_takes {items : List ((Nat × Coin) × Sized 32)}
    (h : (items.forM fun ((index, coin), digest) =>
      signInput kind cancellation index coin digest : Edit Unit).Takes before exchanges outcome after) :
    after = before.modifyInputs (recordings kind (items.map Prod.fst) (accepted exchanges)) ∧
      (∀ entry ∈ items.zip (accepted exchanges), Schnorr.verify entry.2.1 entry.1.2 entry.2.2 = true) ∧
      (outcome = .ok () → (accepted exchanges).length = items.length) := by
  -- On the items that are left: the first one adds one signature to those of the others, or ends the run with none.
  induction items generalizing before exchanges with
  | nil =>
    obtain ⟨rfl, _, rfl⟩ := takes_pure.mp h
    exact ⟨rfl, List.forall_mem_nil _, fun _ => rfl⟩
  | cons item items ih =>
    rcases takes_bind.mp h with ⟨_, middle, first, rest, rfl, hfirst, hrest⟩ | ⟨error, hfirst, rfl⟩
    · rcases takes_signInput_cases hfirst with ⟨signed, _, haccepted, hverify, rfl⟩ | ⟨hfailed, _⟩
      · obtain ⟨rfl, hverified, hall⟩ := ih hrest
        rw [accepted_append, haccepted]
        refine ⟨rfl, List.forall_mem_cons.mpr ⟨hverify, hverified⟩, fun hok => ?_⟩
        exact congrArg (· + 1) (hall hok)
      · exact absurd rfl hfailed
    · rcases takes_signInput_cases hfirst with ⟨_, hok, _⟩ | ⟨_, haccepted, rfl⟩
      · cases hok
      · rw [haccepted]
        exact ⟨rfl, List.forall_mem_nil _, by rintro ⟨⟩⟩

/-- Whatever the answers are, what a run leaves is what it prepared and the signatures that it verified. -/
theorem recorded_of_signInputs
    (h : (signInputs prevouts spends kind cancellation).Takes psbt exchanges outcome after) :
    after = recorded psbt spends kind (accepted exchanges) ∧
      (∀ entry ∈ spends.zip (accepted exchanges),
        entry.1 ∈ reachable psbt spends ∧ Verified psbt.tx prevouts kind entry.1 entry.2) ∧
      (outcome = .ok () → reachable psbt spends = spends ∧ (accepted exchanges).length = spends.length) := by
  rcases takes_bind.mp h with ⟨_, prepared, _, signing, rfl, hprepare, hrest⟩ | ⟨error, hprepare, rfl⟩
  · obtain ⟨rfl, rfl, hreachable⟩ := takes_prepareInputs hprepare
    rcases takes_ofExcept_bind.mp (takes_get_bind.mp hrest) with
      ⟨messages, hdigests, hsign⟩ | ⟨error, _, rfl, rfl, rfl⟩
    · obtain ⟨rfl, hverified, hall⟩ := accepted_of_takes hsign
      rw [Psbt.tx_modifyInputs] at hdigests
      have hmessages := forall₂_of_mapM hdigests
      have hlength := hmessages.length_eq
      rw [List.map_fst_zip hlength.le]
      refine ⟨rfl, fun entry hmem => ?_, fun hok => ⟨hreachable rfl, ?_⟩⟩
      · -- Signatures are asked for only after every input was prepared and has its digest.
        obtain ⟨i, hentry⟩ := List.mem_iff_getElem?.mp hmem
        obtain ⟨hspend, hsigned⟩ := List.getElem?_zip_eq_some.mp hentry
        have hi : i < messages.length := hlength ▸ (List.getElem?_eq_some_iff.mp hspend).1
        have hitem : (spends.zip messages)[i]? = some (entry.1, messages[i]) :=
          List.getElem?_zip_eq_some.mpr ⟨hspend, List.getElem?_eq_getElem hi⟩
        have hsigning : ((entry.1, messages[i]), entry.2) ∈ (spends.zip messages).zip (accepted signing) :=
          List.mem_of_getElem? (List.getElem?_zip_eq_some.mpr ⟨hitem, hsigned⟩)
        refine ⟨(hreachable rfl).symm ▸ List.mem_of_getElem? hspend, messages[i], ?_, hverified _ hsigning⟩
        exact List.forall₂_zip hmessages (List.mem_of_getElem? hitem)
      · rw [List.nil_append, hall hok, List.length_zip, hlength, Nat.min_self]
    · exact ⟨recorded_nil.symm, by simp [accepted], by rintro ⟨⟩⟩
  · obtain ⟨rfl, rfl, _⟩ := takes_prepareInputs hprepare
    exact ⟨recorded_nil.symm, by simp [accepted], by rintro ⟨⟩⟩

/-- The first of the digests that are signed. -/
theorem sighash_of_digests {tx : Transaction} {spend : Nat × Coin} {digest : Sized 32} {messages : List (Sized 32)}
    (h : digests tx prevouts kind (spend :: spends) = .ok (digest :: messages)) :
    tx.sighash prevouts spend.1 (leafHash spend.2.leaf) kind = .ok digest :=
  (List.forall₂_cons.mp (forall₂_of_mapM h)).1

/-- Every signature that was verified is an answer to a question. -/
theorem mem_of_mem_accepted {signed : XOnlyKey × Signature} (h : signed ∈ accepted exchanges) :
    ∃ wallet digest, ⟨.sign wallet digest, .ok signed⟩ ∈ exchanges ∧ Schnorr.verify signed.1 digest signed.2 = true := by
  obtain ⟨⟨request, answer⟩, hmem, haccepted⟩ := List.mem_filterMap.mp h
  unfold acceptedAnswer at haccepted
  split at haccepted
  · next wallet digest key signature hexchange =>
    split at haccepted
    · next hverify =>
      cases haccepted
      exact ⟨wallet, digest, hexchange ▸ hmem, hverify⟩
    · cases haccepted
  · cases haccepted

/-- Preparing inputs that are there makes all their changes. -/
theorem takes_prepareInputs_of_lt (h : ∀ spend ∈ spends, spend.1 < psbt.inputs.length) :
    (prepareInputs spends).Takes psbt [] (.ok ()) (psbt.modifyInputs (preparations spends)) := by
  induction spends generalizing psbt with
  | nil => exact takes_pure.mpr ⟨rfl, rfl, rfl⟩
  | cons spend spends ih =>
    obtain ⟨hindex, hspends⟩ := List.forall_mem_cons.mp h
    have hprepared : psbt.prepareInput spend.1 spend.2 = .ok (psbt.modifyInput spend.1 spend.2.preparation) :=
      Coin.prepareInput_eq_ok.mpr ⟨hindex, rfl⟩
    have hrest : (prepareInputs spends).Takes (psbt.modifyInput spend.1 spend.2.preparation) [] (.ok ())
        (psbt.modifyInputs (preparations (spend :: spends))) := by
      refine ih fun other hmem => ?_
      rw [Psbt.length_modifyInput]
      exact hspends other hmem
    refine takes_bind_ok.mpr ⟨(), _, [], [], rfl, takes_get_bind.mpr (takes_ofExcept_bind.mpr ?_), hrest⟩
    exact .inl ⟨_, hprepared, takes_set.mpr ⟨rfl, rfl, rfl⟩⟩

/-- Signing inputs that are there, from what asking for their signatures does once they are prepared. -/
theorem takes_signInputs_prepared {messages : List (Sized 32)} (hspends : ∀ spend ∈ spends, spend.1 < psbt.inputs.length)
    (hdigests : digests psbt.tx prevouts kind spends = .ok messages)
    (hsign : ((spends.zip messages).forM fun ((index, coin), digest) =>
      signInput kind cancellation index coin digest : Edit Unit).Takes (psbt.modifyInputs (preparations spends))
        exchanges outcome after) :
    (signInputs prevouts spends kind cancellation).Takes psbt exchanges outcome after := by
  refine takes_bind.mpr (.inl ⟨(), _, [], _, rfl, takes_prepareInputs_of_lt hspends, takes_get_bind.mpr ?_⟩)
  exact takes_ofExcept_bind.mpr (.inl ⟨messages, by rw [Psbt.tx_modifyInputs, hdigests], hsign⟩)

/-- Signing a single input that is there, from what signing it does once it is prepared. -/
theorem takes_signInputs_singleton {index : Nat} {coin : Coin} {digest : Sized 32} (hindex : index < psbt.inputs.length)
    (hdigest : psbt.tx.sighash prevouts index (leafHash coin.leaf) kind = .ok digest)
    (hsign : (signInput kind cancellation index coin digest).Takes (psbt.modifyInput index coin.preparation)
      exchanges outcome after) :
    (signInputs prevouts [(index, coin)] kind cancellation).Takes psbt exchanges outcome after := by
  have hdigests : digests psbt.tx prevouts kind [(index, coin)] = .ok [digest] := by
    rw [digests, List.mapM_cons]
    simp only [hdigest]
    rfl
  exact takes_signInputs_prepared (List.forall_mem_singleton.mpr hindex) hdigests (takes_forM_singleton.mpr hsign)

/-- Every input is signed, or nothing is done because there are more or fewer coins. -/
theorem takes_signAll_cases (h : (signAll coins kind cancellation).Takes psbt exchanges outcome after) :
    coins.length ≠ psbt.inputs.length ∧ outcome ≠ .ok () ∧ after = psbt ∨
    coins.length = psbt.inputs.length ∧
      (signInputs (coins.map Coin.output) (enumerate coins) kind cancellation).Takes psbt exchanges outcome after := by
  have hrun := takes_get_bind.mp h
  dsimp only at hrun
  by_cases hcount : coins.length = psbt.inputs.length
  · rw [if_neg (not_not_intro hcount)] at hrun
    exact .inr ⟨hcount, hrun⟩
  · rw [if_pos hcount] at hrun
    rcases takes_bind.mp hrun with ⟨_, _, _, _, _, hthrow, _⟩ | ⟨_, hthrow, rfl⟩
    · cases (takes_throw.mp hthrow).2.1
    · exact .inl ⟨hcount, by rintro ⟨⟩, (takes_throw.mp hthrow).2.2⟩

/-! ## What signatures are asked for -/

/-- A limit on the signatures that are asked for. -/
def askingLimits (asked : String → Sized 32 → Prop) : Limits where
  asks request := ∀ wallet digest, request = .sign wallet digest → asked wallet digest
  changes _ _ := True
  unchanged _ := trivial
  combined _ _ := trivial

/-- Signing one input asks for a signature of its digest under the coin's wallet, and for no other. -/
theorem within_signInput_asked (index : Nat) (coin : Coin) (digest : Sized 32) :
    (signInput kind cancellation index coin digest).Within
      (askingLimits fun wallet asked => wallet = coin.wallet ∧ asked = digest) := by
  refine within_signInput_of (fun _ _ _ => by rintro ⟨⟩) ?_ fun _ _ => trivial
  rintro _ _ ⟨⟩
  exact ⟨rfl, rfl⟩

/-- A signature that is asked for is one of the digest of an input that is to be signed, under the wallet of its
coin. -/
theorem asked_of_signInputs (h : (signInputs prevouts spends kind cancellation).Takes psbt exchanges outcome after)
    {wallet : String} {digest : Sized 32} {answer : Reply (.sign wallet digest)}
    (hasked : ⟨.sign wallet digest, answer⟩ ∈ exchanges) :
    ∃ spend ∈ spends, wallet = spend.2.wallet ∧
      psbt.tx.sighash prevouts spend.1 (leafHash spend.2.leaf) kind = .ok digest := by
  rcases takes_bind.mp h with ⟨_, prepared, _, signing, rfl, hprepare, hrest⟩ | ⟨error, hprepare, rfl⟩
  · obtain ⟨rfl, rfl, _⟩ := takes_prepareInputs hprepare
    rcases takes_ofExcept_bind.mp (takes_get_bind.mp hrest) with ⟨messages, hdigests, hsign⟩ | ⟨error, _, rfl, _⟩
    · rw [Psbt.tx_modifyInputs] at hdigests
      have hmessages := forall₂_of_mapM hdigests
      have hwithin : ∀ item ∈ spends.zip messages,
          (signInput kind cancellation item.1.1 item.1.2 item.2).Within (askingLimits fun wallet asked =>
            ∃ spend ∈ spends, wallet = spend.2.wallet ∧
              psbt.tx.sighash prevouts spend.1 (leafHash spend.2.leaf) kind = .ok asked) := by
        intro item hmem before after exchanges outcome htakes
        refine ⟨trivial, fun exchange hexchange wallet asked hsign => ?_⟩
        obtain ⟨rfl, rfl⟩ := (within_signInput_asked _ _ _ _ _ _ _ htakes).2 exchange hexchange wallet asked hsign
        exact ⟨item.1, (List.of_mem_zip hmem).1, rfl, List.forall₂_zip hmessages hmem⟩
      exact (within_forM_of_mem hwithin _ _ _ _ hsign).2 _ hasked wallet digest rfl
    · cases hasked
  · rw [(takes_prepareInputs hprepare).1] at hasked
    cases hasked
end Spend

end Vtxo
