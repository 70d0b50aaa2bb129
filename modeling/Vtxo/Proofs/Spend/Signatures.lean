import Vtxo.Proofs.Spend.Recording
import Vtxo.Proofs.Spend.SendRun

/-!
# What signing leaves behind

Every signature that signing records has been verified, so a signer cannot bring a bad one into a transaction, whatever
it answers and wherever the run ends. But the changes are made in place: a run that fails keeps the preparations and the
signatures that it recorded before, and leaves the transaction as it was only if they were all there already.

  1. `signAll_verified`: the signatures that a run leaves.
  2. `recorded_eq_self_iff`: runs that record nothing new.
  3. `failedSigning_leaves`: what a run leaves behind that fails.
-/

set_option autoImplicit false

namespace Vtxo

/-- The signature that an input holds for a key and a leaf. -/
def Psbt.signature? (psbt : Psbt) (index : Nat) (signer : SignerKey) : Option TapSignature :=
  psbt.inputs[index]?.bind fun maps => maps.signatures.find? signer

theorem Psbt.signature?_congr {psbt other : Psbt}
    (h : psbt.inputs.map InputMaps.signatures = other.inputs.map InputMaps.signatures) (index : Nat)
    (signer : SignerKey) : psbt.signature? index signer = other.signature? index signer := by
  have hsame : (psbt.inputs.map InputMaps.signatures)[index]?.bind (·.find? signer) =
      (other.inputs.map InputMaps.signatures)[index]?.bind (·.find? signer) := by rw [h]
  rw [List.getElem?_map, List.getElem?_map, Option.bind_map, Option.bind_map] at hsame
  exact hsame

namespace Spend

open Attempt Edit

variable {prevouts : List TxOut} {spends : List (Nat × Coin)} {coins : List Coin} {kind : SighashType}
  {cancellation : Cancellation} {psbt after : Psbt} {exchanges : List Exchange} {outcome : Except Error Unit}

/-! ## Signatures -/

theorem signatures_of_mem_preparations :
    ∀ change ∈ preparations spends, ∀ maps, (change.2 maps).signatures = maps.signatures :=
  List.forall_mem_map.mpr fun spend _ => spend.2.signatures_preparation

theorem signature?_preparations (index : Nat) (signer : SignerKey) :
    (psbt.modifyInputs (preparations spends)).signature? index signer = psbt.signature? index signer :=
  Psbt.signature?_congr (Psbt.map_inputs_modifyInputs psbt InputMaps.signatures signatures_of_mem_preparations) _ _

theorem withoutSignatures_of_mem_recordings {signed : List (XOnlyKey × Signature)} :
    ∀ change ∈ recordings kind spends signed, ∀ maps, (change.2 maps).withoutSignatures = maps.withoutSignatures :=
  List.forall_mem_map.mpr fun _ _ _ => rfl

theorem signature?_recording {index other : Nat} {coin : Coin} {signed : XOnlyKey × Signature} {signer : SignerKey}
    {signature : TapSignature}
    (h : (psbt.modifyInput index (coin.recording kind signed)).signature? other signer = some signature) :
    psbt.signature? other signer = some signature ∨
      index = other ∧ signer = ⟨signed.1, leafHash coin.leaf⟩ ∧ signature = ⟨signed.2, kind⟩ := by
  unfold Psbt.signature? at h
  by_cases hindex : index = other
  · subst hindex
    rw [Psbt.getElem?_modifyInput, Option.bind_map] at h
    obtain ⟨maps, hmaps, hfound⟩ := Option.bind_eq_some_iff.mp h
    rw [Function.comp_apply, Coin.find?_recording] at hfound
    split at hfound
    · next hsigner =>
      cases hfound
      exact .inr ⟨rfl, hsigner.symm, rfl⟩
    · exact .inl (Option.bind_eq_some_iff.mpr ⟨maps, hmaps, hfound⟩)
  · rw [Psbt.inputs_modifyInput_of_ne _ _ hindex] at h
    exact .inl h

/-- A signature that is there after recording some was there before or is one of them. -/
theorem signature?_recordings {signed : List (XOnlyKey × Signature)} {index : Nat} {signer : SignerKey}
    {signature : TapSignature}
    (h : (psbt.modifyInputs (recordings kind spends signed)).signature? index signer = some signature) :
    psbt.signature? index signer = some signature ∨
      ∃ entry ∈ spends.zip signed, entry.1.1 = index ∧ signer = ⟨entry.2.1, leafHash entry.1.2.leaf⟩ ∧
        signature = ⟨entry.2.2, kind⟩ := by
  unfold recordings at h
  generalize spends.zip signed = entries at h ⊢
  induction entries generalizing psbt with
  | nil => exact .inl h
  | cons entry entries ih =>
    rcases ih h with hbefore | ⟨other, hmem, hother⟩
    · rcases signature?_recording hbefore with hbefore | hentry
      · exact .inl hbefore
      · exact .inr ⟨entry, List.mem_cons_self, hentry⟩
    · exact .inr ⟨other, List.mem_cons_of_mem _ hmem, hother⟩

theorem positions_recordings (kind : SighashType) (spends : List (Nat × Coin)) (signed : List (XOnlyKey × Signature)) :
    (recordings kind spends signed).map Prod.fst = (spends.map Prod.fst).take signed.length := by
  induction spends generalizing signed with
  | nil => exact List.take_nil.symm
  | cons spend spends ih =>
    cases signed with
    | nil => rfl
    | cons first signed => exact congrArg (spend.1 :: ·) (ih signed)

theorem nodup_recordings (hdistinct : (spends.map Prod.fst).Nodup) (signed : List (XOnlyKey × Signature)) :
    ((recordings kind spends signed).map Prod.fst).Nodup := by
  rw [positions_recordings]
  exact hdistinct.sublist (List.take_sublist _ _)

/-- Each input ends with the signature that was recorded for it, where no input is signed twice. -/
theorem signature?_of_mem {signed : List (XOnlyKey × Signature)} (hdistinct : (spends.map Prod.fst).Nodup)
    {entry : (Nat × Coin) × XOnlyKey × Signature} (hmem : entry ∈ spends.zip signed)
    (hindex : entry.1.1 < psbt.inputs.length) :
    (psbt.modifyInputs (recordings kind spends signed)).signature? entry.1.1
      ⟨entry.2.1, leafHash entry.1.2.leaf⟩ = some ⟨entry.2.2, kind⟩ := by
  have hchange : (entry.1.1, entry.1.2.recording kind entry.2) ∈ recordings kind spends signed :=
    List.mem_map_of_mem hmem
  unfold Psbt.signature?
  rw [Psbt.getElem?_modifyInputs (nodup_recordings hdistinct signed) hchange, List.getElem?_eq_getElem hindex]
  show ((entry.1.2.recording kind entry.2 _).signatures.find? _) = _
  rw [Coin.find?_recording, if_pos rfl]

theorem nodup_preparations (hdistinct : (spends.map Prod.fst).Nodup) :
    ((preparations spends).map Prod.fst).Nodup := by
  unfold preparations
  rw [List.map_map]
  exact hdistinct

/-- Where each input is prepared for its coin, all outputs that are spent are known. -/
theorem utxo_preparations_enumerate (hcount : coins.length = psbt.inputs.length) :
    (psbt.modifyInputs (preparations (enumerate coins))).inputs.map InputMaps.utxo =
      (coins.map Coin.output).map some := by
  refine List.ext_getElem? fun index => ?_
  rw [List.getElem?_map, List.map_map, List.getElem?_map]
  cases hcoin : coins[index]? with
  | none =>
    have hindex : (psbt.modifyInputs (preparations (enumerate coins))).inputs.length ≤ index := by
      rw [Psbt.length_modifyInputs, ← hcount]
      exact List.getElem?_eq_none_iff.mp hcoin
    rw [List.getElem?_eq_none hindex]
    rfl
  | some coin =>
    have hchange : (index, coin.preparation) ∈ preparations (enumerate coins) :=
      List.mem_map.mpr ⟨(index, coin), mem_enumerate.mpr hcoin, rfl⟩
    have hindex : index < psbt.inputs.length := hcount ▸ (List.getElem?_eq_some_iff.mp hcoin).1
    rw [Psbt.getElem?_modifyInputs (nodup_preparations (nodup_enumerate coins)) hchange,
      List.getElem?_eq_getElem hindex]
    exact congrArg some (coin.utxo_preparation _)

theorem length_inputs_moving (vout : UInt32) : [InputMaps.empty].length = (moving vout).inputs.length := rfl

/-- A transaction that moves one coin, about whose input nothing is known. -/
def unsignedMove : Psbt :=
  ⟨moving 0, [.empty], length_inputs_moving 0⟩

theorem length_inputs_paying : [InputMaps.empty, InputMaps.empty].length = paying.inputs.length := rfl

/-- A transaction that spends two coins, about whose inputs nothing is known. -/
def unsignedPaying : Psbt :=
  ⟨paying, [.empty, .empty], length_inputs_paying⟩

/-! ## A run that fails at its second input -/

/-- Where the second signature is refused, every input stays prepared and the first one stays signed. -/
theorem takes_signAll_refused {first second : Coin} {firstMessage secondMessage : Sized 32}
    {messages : List (Sized 32)} {signed : XOnlyKey × Signature} (error : Error)
    (hcount : (first :: second :: coins).length = psbt.inputs.length)
    (hdigests : digests psbt.tx ((first :: second :: coins).map Coin.output) kind
      (enumerate (first :: second :: coins)) = .ok (firstMessage :: secondMessage :: messages))
    (hverify : Schnorr.verify signed.1 firstMessage signed.2 = true) :
    (signAll (first :: second :: coins) kind cancellation).Takes psbt
      ((cancellation.look ++ [⟨.sign first.wallet firstMessage, .ok signed⟩]) ++
        (cancellation.look ++ [⟨.sign second.wallet secondMessage, .error error⟩]))
      (.error error) (recorded psbt (enumerate (first :: second :: coins)) kind [signed]) := by
  have hspends : ∀ spend ∈ enumerate (first :: second :: coins), spend.1 < psbt.inputs.length :=
    fun spend hmem => hcount ▸ lt_of_mem_enumerate hmem
  have hreachable : reachable psbt (enumerate (first :: second :: coins)) = enumerate (first :: second :: coins) :=
    List.takeWhile_eq_self_iff.mpr fun spend hmem => decide_eq_true (hspends spend hmem)
  rw [recorded, hreachable]
  refine takes_signAll hcount (takes_signInputs_prepared hspends hdigests ?_)
  refine takes_bind.mpr (.inl ⟨(), _, _, _, rfl, takes_signInput cancellation hverify _, ?_⟩)
  exact takes_bind.mpr (.inr ⟨error, takes_signInput_refused kind cancellation 1 second secondMessage error _, rfl⟩)

def refusal : Error :=
  .refused "device locked"

/-- What is asked and answered where the second signature for `paying` is refused. -/
def refusedSecond : List Exchange :=
  [⟨.cancelled, false⟩, ⟨.sign "" firstPayingDigest, .ok (ownerKey, ownerSignature firstPayingDigest)⟩,
    ⟨.cancelled, false⟩, ⟨.sign "" secondPayingDigest, .error refusal⟩]

theorem verify_firstPayingDigest :
    Schnorr.verify ownerKey firstPayingDigest (ownerSignature firstPayingDigest) = true :=
  verify_ownerSignature _ (by simp [payingDigests])

/-- What is left then. -/
def partlySigned : Psbt :=
  recorded unsignedPaying (enumerate [movedCoin firstName, movedCoin secondName]) .default
    [(ownerKey, ownerSignature firstPayingDigest)]

theorem takes_refusedSecond :
    (signAll [movedCoin firstName, movedCoin secondName] .default .watched).Takes unsignedPaying refusedSecond
      (.error refusal) partlySigned :=
  takes_signAll_refused refusal rfl digests_paying verify_firstPayingDigest

theorem signature?_partlySigned :
    partlySigned.signature? 0 ⟨ownerKey, leafHash openScript⟩ =
      some ⟨ownerSignature firstPayingDigest, .default⟩ := by
  have hmem : ((0, movedCoin firstName), (ownerKey, ownerSignature firstPayingDigest)) ∈
      (enumerate [movedCoin firstName, movedCoin secondName]).zip [(ownerKey, ownerSignature firstPayingDigest)] :=
    List.mem_cons_self
  refine signature?_of_mem (nodup_enumerate _) hmem ?_
  rw [Psbt.length_modifyInputs]
  exact Nat.zero_lt_two

theorem partlySigned_ne_unsignedPaying : partlySigned ≠ unsignedPaying := by
  intro hsame
  have hfound := signature?_partlySigned
  rw [hsame] at hfound
  cases hfound

/-! ## Runs, whether or not they succeed -/

/-- Every signature that signing records has been verified, whether or not signing succeeds. Where it succeeds, each
input has one for the script of its coin. -/
theorem signAll_verified (h : (signAll coins kind cancellation).Takes psbt exchanges outcome after) :
    (∀ index signer signature, after.signature? index signer = some signature →
      psbt.signature? index signer = some signature ∨
      ∃ coin, coins[index]? = some coin ∧ signer.leaf = leafHash coin.leaf ∧ signature.kind = kind ∧
        Verified psbt.tx (coins.map Coin.output) kind (index, coin) (signer.key, signature.signature)) ∧
    (outcome = .ok () →
      after.tx = psbt.tx ∧ after.inputs.map InputMaps.utxo = (coins.map Coin.output).map some ∧
      ∀ index coin, coins[index]? = some coin → ∃ key signature,
        after.signature? index ⟨key, leafHash coin.leaf⟩ = some ⟨signature, kind⟩ ∧
        Verified after.tx (coins.map Coin.output) kind (index, coin) (key, signature)) := by
  rcases takes_signAll_cases h with ⟨_, hfailed, rfl⟩ | ⟨hcount, hsign⟩
  · exact ⟨fun index signer signature hfound => .inl hfound, fun hok => absurd hok hfailed⟩
  · obtain ⟨rfl, hverified, hall⟩ := recorded_of_signInputs hsign
    constructor
    · intro index signer signature hfound
      rcases signature?_recordings hfound with hbefore | ⟨⟨⟨position, coin⟩, signed⟩, hmem, rfl, rfl, rfl⟩
      · rw [signature?_preparations] at hbefore
        exact .inl hbefore
      · refine .inr ⟨coin, ?_, rfl, rfl, (hverified _ hmem).2⟩
        exact mem_enumerate.mp (List.of_mem_zip hmem).1
    · intro hok
      obtain ⟨hreachable, hlength⟩ := hall hok
      have htx : (recorded psbt (enumerate coins) kind (accepted exchanges)).tx = psbt.tx :=
        Psbt.tx_modifyInputs.trans Psbt.tx_modifyInputs
      refine ⟨htx, ?_, fun index coin hcoin => ?_⟩
      · have hkept : ∀ change ∈ recordings kind (enumerate coins) (accepted exchanges), ∀ maps,
            (change.2 maps).utxo = maps.utxo := List.forall_mem_map.mpr fun _ _ _ => rfl
        rw [recorded, hreachable, Psbt.map_inputs_modifyInputs _ InputMaps.utxo hkept,
          utxo_preparations_enumerate hcount]
      · have hindex : index < coins.length := (List.getElem?_eq_some_iff.mp hcoin).1
        have hsigned : index < (accepted exchanges).length := by rwa [hlength, length_enumerate]
        have hmem : ((index, coin), (accepted exchanges)[index]) ∈ (enumerate coins).zip (accepted exchanges) := by
          refine List.mem_of_getElem? (List.getElem?_zip_eq_some.mpr ⟨?_, List.getElem?_eq_getElem hsigned⟩)
          rw [getElem?_enumerate, hcoin]
          rfl
        refine ⟨_, _, signature?_of_mem (nodup_enumerate coins) hmem ?_, htx ▸ (hverified _ hmem).2⟩
        rwa [Psbt.length_modifyInputs, ← hcount]

theorem signAll_verified_moving :
    (∃ exchanges signed, (signAll [sentCoin 0] .default .watched).Takes unsignedMove exchanges (.ok ()) signed ∧
      ∃ key signature, signed.signature? 0 ⟨key, leafHash openScript⟩ = some ⟨signature, .default⟩ ∧
        Verified signed.tx [sentOutput.output] .default (0, sentCoin 0) (key, signature)) ∧
    (signAll [movedCoin firstName, movedCoin secondName] .default .watched).Takes unsignedPaying refusedSecond
        (.error refusal) partlySigned ∧
      partlySigned.signature? 0 ⟨ownerKey, leafHash openScript⟩ = some ⟨ownerSignature firstPayingDigest, .default⟩ ∧
      Verified paying [movedOutput.output, movedOutput.output] .default (0, movedCoin firstName)
        (ownerKey, ownerSignature firstPayingDigest) := by
  constructor
  · have htx : unsignedMove.tx = moving 0 := rfl
    obtain ⟨exchanges, signed, hends, _⟩ :=
      exists_signed_moving .watched htx digests_moving_first (signed_of_mem (by simp))
    obtain ⟨_, htakes⟩ := ends_applyTo_ok.mp hends
    obtain ⟨_, _, hsigned⟩ := (signAll_verified htakes).2 rfl
    exact ⟨exchanges, signed, htakes, hsigned 0 (sentCoin 0) rfl⟩
  · refine ⟨takes_refusedSecond, signature?_partlySigned, ?_⟩
    rcases (signAll_verified takes_refusedSecond).1 0 _ _ signature?_partlySigned with hbefore | hverified
    · cases hbefore
    · obtain ⟨coin, hcoin, _, _, hverified⟩ := hverified
      cases hcoin
      exact hverified

/-! ## Runs that fail -/

/-- All that signing records before it ends is there already. -/
structure AlreadyRecorded (psbt : Psbt) (spends : List (Nat × Coin)) (kind : SighashType)
    (signed : List (XOnlyKey × Signature)) : Prop where
  prepared : ∀ spend ∈ reachable psbt spends, psbt.prepareInput spend.1 spend.2 = .ok psbt
  signatures : ∀ entry ∈ spends.zip signed,
    psbt.signature? entry.1.1 ⟨entry.2.1, leafHash entry.1.2.leaf⟩ = some ⟨entry.2.2, kind⟩

theorem modifyInput_recording_eq_self_iff {index : Nat} {coin : Coin} {signed : XOnlyKey × Signature}
    (hindex : index < psbt.inputs.length) :
    psbt.modifyInput index (coin.recording kind signed) = psbt ↔
      psbt.signature? index ⟨signed.1, leafHash coin.leaf⟩ = some ⟨signed.2, kind⟩ := by
  unfold Psbt.signature?
  rw [Psbt.modifyInput_eq_self_iff, List.getElem?_eq_getElem hindex, Option.map_some, Option.some_inj,
    Option.bind_some, ← SortedMap.insert_eq_self_iff]
  exact ⟨fun h => congrArg InputMaps.signatures h, fun h => InputMaps.eq_of_parts rfl h⟩

theorem modifyInput_preparation_eq_self_iff {spend : Nat × Coin} (hmem : spend ∈ reachable psbt spends) :
    psbt.modifyInput spend.1 spend.2.preparation = psbt ↔ psbt.prepareInput spend.1 spend.2 = .ok psbt := by
  rw [Coin.prepareInput_eq_ok]
  exact ⟨fun h => ⟨lt_of_mem_reachable hmem, h.symm⟩, fun h => h.2.symm⟩

/-- Preparations and signatures do not undo each other, so together they change nothing only if each of them changes
nothing. -/
theorem recorded_eq_self_iff {signed : List (XOnlyKey × Signature)} (hdistinct : (spends.map Prod.fst).Nodup)
    (hreachable : ∀ entry ∈ spends.zip signed, entry.1 ∈ reachable psbt spends) :
    recorded psbt spends kind signed = psbt ↔ AlreadyRecorded psbt spends kind signed := by
  have hprefix : ((reachable psbt spends).map Prod.fst).Nodup :=
    hdistinct.sublist ((List.takeWhile_sublist _).map _)
  have hprepared : psbt.modifyInputs (preparations (reachable psbt spends)) = psbt ↔
      ∀ spend ∈ reachable psbt spends, psbt.prepareInput spend.1 spend.2 = .ok psbt := by
    rw [Psbt.modifyInputs_eq_self_iff (nodup_preparations hprefix), preparations, List.forall_mem_map]
    exact forall₂_congr fun spend hmem => modifyInput_preparation_eq_self_iff hmem
  have hsigned : psbt.modifyInputs (recordings kind spends signed) = psbt ↔ ∀ entry ∈ spends.zip signed,
      psbt.signature? entry.1.1 ⟨entry.2.1, leafHash entry.1.2.leaf⟩ = some ⟨entry.2.2, kind⟩ := by
    rw [Psbt.modifyInputs_eq_self_iff (nodup_recordings hdistinct signed), recordings, List.forall_mem_map]
    exact forall₂_congr fun entry hmem =>
      modifyInput_recording_eq_self_iff (lt_of_mem_reachable (hreachable entry hmem))
  rw [recorded, Psbt.modifyInputs_modifyInputs_eq_self_iff signatures_of_mem_preparations
    withoutSignatures_of_mem_recordings, hprepared, hsigned]
  exact ⟨fun h => ⟨h.1, h.2⟩, fun h => ⟨h.prepared, h.signatures⟩⟩

theorem unchanged_iff_of_signInputs
    (h : (signInputs prevouts spends kind cancellation).Takes psbt exchanges outcome after)
    (hdistinct : (spends.map Prod.fst).Nodup) :
    after = psbt ↔ AlreadyRecorded psbt spends kind (accepted exchanges) := by
  obtain ⟨rfl, hverified, _⟩ := recorded_of_signInputs h
  exact recorded_eq_self_iff hdistinct fun entry hmem => (hverified entry hmem).1

/-- An input that is not there ends the preparations. -/
theorem takes_signInputs_noInput {index : Nat} (coin : Coin) (hindex : psbt.inputs.length ≤ index) :
    (signInputs prevouts [(index, coin)] kind cancellation).Takes psbt [] (.error (.spend (.noInput index))) psbt := by
  refine takes_bind.mpr (.inr ⟨_, takes_bind.mpr (.inr ⟨_, takes_get_bind.mpr ?_, rfl⟩), rfl⟩)
  exact takes_ofExcept_bind.mpr (.inr ⟨_, by rw [Coin.prepareInput_eq, if_pos hindex], rfl, rfl, rfl⟩)

/-- What a run leaves behind that fails: nothing if the number of coins is wrong, and else all that it recorded before.
So a transaction is left as it was only if all of that was there already. -/
theorem failedSigning_leaves (psbt : Psbt) (kind : SighashType) (cancellation : Cancellation)
    (exchanges : List Exchange) (error : Error) (left : Psbt) :
    (∀ prevouts spends, (signInputs prevouts spends kind cancellation).Takes psbt exchanges (.error error) left →
      left = recorded psbt spends kind (accepted exchanges) ∧
      ((spends.map Prod.fst).Nodup →
        (left = psbt ↔ AlreadyRecorded psbt spends kind (accepted exchanges)))) ∧
    (∀ coins, (signAll coins kind cancellation).Takes psbt exchanges (.error error) left →
      (coins.length ≠ psbt.inputs.length → left = psbt) ∧
      (coins.length = psbt.inputs.length →
        left = recorded psbt (enumerate coins) kind (accepted exchanges) ∧
        (left = psbt ↔ AlreadyRecorded psbt (enumerate coins) kind (accepted exchanges)))) := by
  refine ⟨fun prevouts spends h => ⟨(recorded_of_signInputs h).1, unchanged_iff_of_signInputs h⟩, fun coins h => ?_⟩
  rcases takes_signAll_cases h with ⟨hcount, _, rfl⟩ | ⟨hcount, hsign⟩
  · exact ⟨fun _ => rfl, fun hsame => absurd hsame hcount⟩
  · refine ⟨fun hother => absurd hcount hother, fun _ => ⟨(recorded_of_signInputs hsign).1, ?_⟩⟩
    exact unchanged_iff_of_signInputs hsign (nodup_enumerate coins)

theorem failedSigning_leaves_moving :
    ((signAll [movedCoin firstName, movedCoin secondName] .default .watched).Takes unsignedPaying refusedSecond
        (.error refusal) partlySigned ∧
      partlySigned = recorded unsignedPaying (enumerate [movedCoin firstName, movedCoin secondName]) .default
        (accepted refusedSecond) ∧
      ¬ AlreadyRecorded unsignedPaying (enumerate [movedCoin firstName, movedCoin secondName]) .default
        (accepted refusedSecond)) ∧
    (signInputs [sentOutput.output] [(1, sentCoin 0)] .default .watched).Takes unsignedMove []
      (.error (.spend (.noInput 1))) unsignedMove ∧
    AlreadyRecorded unsignedMove [(1, sentCoin 0)] .default [] := by
  have hmissing : (signInputs [sentOutput.output] [(1, sentCoin 0)] .default .watched).Takes unsignedMove []
      (.error (.spend (.noInput 1))) unsignedMove :=
    takes_signInputs_noInput (sentCoin 0) (Nat.le_refl 1)
  refine ⟨⟨takes_refusedSecond, ?_⟩, hmissing, ?_⟩
  · obtain ⟨hleft, hunchanged⟩ := ((failedSigning_leaves _ _ _ _ _ _).2 _ takes_refusedSecond).2 rfl
    exact ⟨hleft, fun hrecorded => partlySigned_ne_unsignedPaying (hunchanged.mpr hrecorded)⟩
  · exact (((failedSigning_leaves _ _ _ _ _ _).1 _ _ hmissing).2 (List.nodup_singleton _)).mp rfl

/-- A run that fails can leave a transaction changed. -/
theorem not_forall_unchanged :
    ¬ ∀ (coins : List Coin) (kind : SighashType) (cancellation : Cancellation) (psbt : Psbt) (exchanges : List Exchange)
      (error : Error) (left : Psbt),
      (signAll coins kind cancellation).Takes psbt exchanges (.error error) left → left = psbt :=
  fun h => partlySigned_ne_unsignedPaying (h _ _ _ _ _ _ _ takes_refusedSecond)

end Spend

end Vtxo
