import Mathlib.Algebra.Order.BigOperators.Group.List
import Mathlib.Algebra.Order.Group.Nat
import Mathlib.Data.List.Perm.Subperm
import Vtxo.Proofs.Spend.Conservation

/-!
# Change below the dust limit

Whether change below the dust limit is allowed is decided twice: when coins are chosen, before there are any outputs, and
by the policy for the outputs that are built from the chosen coins. The choice counts the recipient's output and asks
whether there is room for one more; the policy counts what it finds. The two agree: the policy lets the outputs through
exactly where it lets the recipient's output through and there is room for one more, or coins are found whose change is
zero or at least the limit.

  1. `acceptable_choose_iff`: when the chosen coins leave acceptable change although there is no room.
  2. `exists_choosePayment`: where there is enough, a payment is chosen, with the change that its coins leave.
  3. `choosePayment_allowed_iff`: when the policy lets the outputs of a payment through.
-/

set_option autoImplicit false

namespace Vtxo

namespace Selection

variable {amounts positions : List Nat} {target dust : Nat}

/-! ## Combinations with acceptable change -/

/-- One of the combinations that are tried leaves acceptable change: a coin of exactly the target, the shortest run from
the front, this run and one more coin, one coin, two, or three of the first ten. -/
inductive Suitable (amounts : List Nat) (target dust : Nat) : Prop
  | exact (h : target ∈ amounts) : Suitable amounts target dust
  | run {k : Nat} (hrun : ShortestRun amounts target k) (h : Acceptable target dust (amounts.take k).sum) :
      Suitable amounts target dust
  | oneMore {k i : Nat} (hrun : ShortestRun amounts target k) (hki : k ≤ i) (hi : i < amounts.length)
      (h : Acceptable target dust (sumAt amounts (List.range k ++ [i]))) : Suitable amounts target dust
  | single {i : Nat} (hi : i < amounts.length) (h : Acceptable target dust (sumAt amounts [i])) :
      Suitable amounts target dust
  | pair {i j : Nat} (hij : i < j) (hj : j < amounts.length) (h : Acceptable target dust (sumAt amounts [i, j])) :
      Suitable amounts target dust
  | triple {i j k : Nat} (hij : i < j) (hjk : j < k) (hk : k < amounts.length) (hten : k < 10)
      (h : Acceptable target dust (sumAt amounts [i, j, k])) : Suitable amounts target dust

/-- What reaches the target and is not acceptable leaves change below the limit. -/
theorem change_of_not_acceptable {sum : Nat} (hreaches : target ≤ sum) (h : ¬ Acceptable target dust sum) :
    0 < sum - target ∧ sum - target < dust := by
  unfold Acceptable at h
  omega

theorem NothingBetter.acceptable_of_suitable (h : NothingBetter amounts target dust)
    (hsuitable : Suitable amounts target dust) :
    target ∈ amounts ∨ ∃ k, ShortestRun amounts target k ∧ Acceptable target dust (amounts.take k).sum := by
  cases hsuitable with
  | exact hmem => exact .inl hmem
  | run hrun hacceptable => exact .inr ⟨_, hrun, hacceptable⟩
  | oneMore hrun hki hi hacceptable => exact absurd hacceptable (h.oneMore _ hrun _ hki hi)
  | single hi hacceptable => exact absurd hacceptable (h.single _ hi)
  | pair hij hj hacceptable => exact absurd hacceptable (h.pair _ _ hij hj)
  | triple hij hjk hk hten hacceptable => exact absurd hacceptable (h.triple _ _ _ hij hjk hk hten)

/-- There is a first coin of exactly the target where there is one at all. -/
theorem exists_first_exact (h : target ∈ amounts) :
    ∃ i : Nat, amounts[i]? = some target ∧ ∀ j < i, amounts[j]? ≠ some target := by
  cases hfind : (List.range amounts.length).find? fun i => amounts.getD i 0 == target with
  | none => exact absurd h (find?_exact_eq_none hfind)
  | some i => exact ⟨i, find?_exact_eq_some hfind⟩

/-- A choice leaves acceptable change wherever one of the combinations that are tried does. -/
theorem Choice.acceptable_of_suitable (h : Choice amounts target dust false positions)
    (hsuitable : Suitable amounts target dust) : Acceptable target dust (sumAt amounts positions) := by
  by_contra hrefused
  obtain ⟨hpositive, hsmall⟩ := change_of_not_acceptable h.reaches hrefused
  obtain ⟨_, hnothing⟩ := h.last rfl hpositive hsmall
  by_cases hmem : target ∈ amounts
  · obtain ⟨i, hi, hfirst⟩ := exists_first_exact hmem
    rw [h.exact i hi hfirst, sumAt_cons, sumAt_nil, List.getD, hi, Option.getD_some, Nat.add_zero,
      Nat.sub_self] at hpositive
    exact absurd hpositive (Nat.lt_irrefl 0)
  · rcases hnothing.acceptable_of_suitable hsuitable with hexact | ⟨k, hrun, hacceptable⟩
    · exact hmem hexact
    · rw [h.run hmem k hrun (.inr hacceptable), sumAt_range] at hrefused
      exact hrefused hacceptable

/-- Where none of the combinations that are tried is suitable, every coin is chosen. -/
theorem choose_of_not_suitable (henough : target ≤ amounts.sum) (h : ¬ Suitable amounts target dust) :
    choose amounts target dust false = List.range amounts.length := by
  have hrun := shortestRun_prefixLength henough
  have hfits (positions : List Nat) (hnot : ¬ Acceptable target dust (sumAt amounts positions)) :
      changeOk target dust (sumAt amounts positions) = false :=
    Bool.eq_false_iff.mpr (mt changeOk_iff.mp hnot)
  have hmore : withOneMore? (fun positions => changeOk target dust (sumAt amounts positions))
      (prefixLength target 0 amounts) amounts.length = none :=
    (withOneMore?_eq_none_iff hrun.within).mpr fun i hki hi => hfits _ fun hok => h (.oneMore hrun hki hi hok)
  have hcombination : combination? (fun positions => changeOk target dust (sumAt amounts positions))
      amounts.length = none := by
    simp only [combination?, Option.orElse_eq_orElse, Option.orElse_eq_or, Option.or_eq_none_iff]
    refine ⟨single?_eq_none_iff.mpr fun i hi => hfits _ fun hok => h (.single hi hok),
      pair?_eq_none_iff.mpr fun i j hij hj => hfits _ fun hok => h (.pair hij hj hok),
      triple?_eq_none_iff.mpr fun i j k hij hjk hk => hfits _ fun hok => h ?_⟩
    obtain ⟨hlength, hten⟩ := Nat.lt_min.mp hk
    exact .triple hij hjk hlength hten hok
  rw [choose]
  simp only
  split
  · next i hexact => exact absurd (.exact (List.mem_of_getElem? (find?_exact_eq_some hexact).1)) h
  · have hshort : changeOk target dust (sumAt amounts (List.range (prefixLength target 0 amounts))) = false :=
      hfits _ fun hok => h (.run hrun (by rwa [sumAt_range] at hok))
    rw [if_neg (by simp [hshort]), hmore, hcombination]
    rfl

/-- Without room for an output below the limit, the chosen coins leave acceptable change exactly where one of the
combinations that are tried does, or all coins together do. -/
theorem acceptable_choose_iff (henough : target ≤ amounts.sum) :
    Acceptable target dust (sumAt amounts (choose amounts target dust false)) ↔
      Suitable amounts target dust ∨ Acceptable target dust amounts.sum := by
  have hall : sumAt amounts (List.range amounts.length) = amounts.sum := by rw [sumAt_range, List.take_length]
  by_cases hsuitable : Suitable amounts target dust
  · exact iff_of_true ((choice_choose dust false henough).acceptable_of_suitable hsuitable) (.inl hsuitable)
  · rw [choose_of_not_suitable henough hsuitable, hall]
    exact (or_iff_right hsuitable).symm

/-- Coins that are named once each are worth no more than all coins. -/
theorem Choice.sumAt_le {slotLeft : Bool} (h : Choice amounts target dust slotLeft positions) :
    sumAt amounts positions ≤ amounts.sum := by
  have hsum (listed : List Nat) : sumAt amounts listed = (listed.map fun i => amounts.getD i 0).sum := by
    induction listed with
    | nil => rfl
    | cons i rest ih => rw [sumAt_cons, List.map_cons, List.sum_cons, ih]
  obtain ⟨listed, hperm, hsublist⟩ : positions.Subperm (List.range amounts.length) :=
    h.nodup.subperm fun i hi => List.mem_range.mpr (h.below i hi)
  calc sumAt amounts positions
      = (listed.map fun i => amounts.getD i 0).sum := by rw [hsum, (hperm.map _).sum_eq]
    _ ≤ ((List.range amounts.length).map fun i => amounts.getD i 0).sum :=
        (hsublist.map _).sum_le_sum fun _ _ => Nat.zero_le _
    _ = amounts.sum := by rw [← hsum, sumAt_range, List.take_length]

end Selection

namespace Spend

open Selection Settlement

variable {settings : Settings} {info : OperatorInfo} {available : List Coin} {recipient change : Address}
  {amount rest dust : Amount}

/-! ## What a payment takes from the budget -/

/-- How many outputs below the limit the recipient's output alone is. -/
def recipientSubDust (info : OperatorInfo) (amount : Amount) : Nat :=
  if amount < info.dust then 1 else 0

theorem countP_isSubDust_outputTo (address : Address) (value : Amount) (others : List TxOut) :
    (outputTo address value :: others).countP (isSubDust dust) =
      others.countP (isSubDust dust) + if value < dust then 1 else 0 := by
  rw [List.countP_cons, isSubDust_outputTo]
  simp only [decide_eq_true_eq]

/-- An output for an address carries no data, so it takes from the budget only below the limit. -/
theorem budgetTaken_outputTo (address : Address) (value : Amount) (others : List TxOut) :
    budgetTaken dust (outputTo address value :: others) =
      budgetTaken dust others + if value < dust then 1 else 0 := by
  have hdata : isDataScript (outputTo address value).script = false := rfl
  rw [budgetTaken, budgetTaken, countP_isSubDust_outputTo, List.countP_cons_of_neg (by simp [hdata]), Nat.add_assoc]

theorem budgetTaken_payment :
    budgetTaken info.dust (outputTo recipient amount :: if rest = .zero then [] else [outputTo change rest]) =
      recipientSubDust info amount + if rest ≠ .zero ∧ rest < info.dust then 1 else 0 := by
  have hnone : budgetTaken info.dust [] = 0 := rfl
  rw [budgetTaken_outputTo, Nat.add_comm, recipientSubDust]
  by_cases hrest : rest = .zero
  · rw [if_pos hrest, hnone, if_neg (not_and_of_not_left _ (not_not_intro hrest))]
  · rw [if_neg hrest, budgetTaken_outputTo, hnone, Nat.zero_add]
    simp only [hrest, ne_eq, not_false_eq_true, true_and]

theorem recipient_allowed_iff {budget : Nat} :
    (∃ allowed, applyDustPolicy [outputTo recipient amount] info.dust budget = .ok allowed) ↔
      recipientSubDust info amount ≤ budget := by
  have htaken : budgetTaken info.dust [outputTo recipient amount] = recipientSubDust info amount := by
    rw [budgetTaken_outputTo, recipientSubDust]
    exact Nat.zero_add _
  simp only [applyDustPolicy_eq_ok, htaken, exists_and_left, exists_eq, and_true]

/-! ## The payment that is chosen -/

/-- Where the available coins are enough, a payment is chosen, and its change is what the chosen coins leave. -/
theorem exists_choosePayment (settings : Settings) (info : OperatorInfo) (recipient change : Address)
    {total : Amount} (hsum : Amount.sum? (available.map Coin.amount) = some total) (henough : amount ≤ total) :
    ∃ coins rest,
      choosePayment settings info available recipient amount change =
        .ok (coins, outputTo recipient amount :: if rest = .zero then [] else [outputTo change rest]) ∧
      sumAt (available.map fun coin => coin.amount.toNat)
        (choose (available.map fun coin => coin.amount.toNat) amount.toNat info.dust.toNat
          (recipientSubDust info amount < settings.maxSubDust)) = amount.toNat + rest.toNat := by
  have hamounts : (available.map Coin.amount).map Amount.toNat = available.map fun coin => coin.amount.toNat := by
    rw [List.map_map]
    rfl
  have htotal : (available.map fun coin => coin.amount.toNat).sum = total.toNat :=
    hamounts ▸ Amount.sum?_eq_some.mp hsum
  have hshort : ¬ total < amount := Nat.not_lt.mpr henough
  have hchoice := choice_choose info.dust.toNat (recipientSubDust info amount < settings.maxSubDust)
    (htotal ▸ Amount.le_iff.mp henough)
  generalize hpositions : choose (available.map fun coin => coin.amount.toNat) amount.toNat info.dust.toNat
    (recipientSubDust info amount < settings.maxSubDust) = positions at hchoice ⊢
  have hselect : select (available.map Coin.amount) amount info.dust (recipientSubDust info amount)
      settings.maxSubDust = .ok positions := by
    rw [select, hsum]
    simp only
    rw [if_neg hshort, hamounts, hpositions]
  -- The chosen coins are some of the available ones, so that their sum fits as well.
  have hworth : worth ((positions.filterMap fun i => available[i]?).map Coin.output) =
      sumAt (available.map fun coin => coin.amount.toNat) positions :=
    worth_at fun i hi => by simpa using hchoice.below i hi
  obtain ⟨chosen, hchosen⟩ : ∃ chosen, Amount.sum? ((positions.filterMap fun i => available[i]?).map Coin.amount) =
      some chosen := by
    cases hcase : Amount.sum? ((positions.filterMap fun i => available[i]?).map Coin.amount) with
    | some chosen => exact ⟨chosen, rfl⟩
    | none =>
      have hover : UInt64.size ≤ worth ((positions.filterMap fun i => available[i]?).map Coin.output) := by
        rw [worth_map_output]
        exact Amount.sum?_eq_none.mp hcase
      have hle := hchoice.sumAt_le
      have hlt := total.toNat_lt
      omega
  have hchoose : choosePayment settings info available recipient amount change =
      .ok (positions.filterMap (fun i => available[i]?),
        outputTo recipient amount :: changeOutput change chosen amount) := by
    refine bind_eq_ok.mpr ⟨positions, hselect, ?_⟩
    simp only [hchosen]
    rfl
  obtain ⟨_, rest, hrest, houtputs⟩ := choosePayment_eq_ok hchoose
  exact ⟨_, rest, houtputs ▸ hchoose, hworth ▸ hrest⟩

/-- Change is acceptable if no output below the limit is made for it. -/
theorem acceptable_add_iff : Acceptable amount.toNat dust.toNat (amount.toNat + rest.toNat) ↔
    ¬ (rest ≠ .zero ∧ rest < dust) := by
  have hzero : rest = .zero ↔ rest.toNat = 0 := Amount.toNat_inj.symm
  rw [Acceptable, ne_eq, hzero, Amount.lt_iff]
  omega

/-- Where the available coins are enough for an amount, a payment of it is chosen, and the policy lets its outputs through
if and only if it lets the output for the recipient through and either there is room for one more below the limit, or one
of the combinations that are tried leaves acceptable change, or all coins together do. -/
theorem choosePayment_allowed_iff (settings : Settings) (info : OperatorInfo) (recipient change : Address)
    {total : Amount} (hsum : Amount.sum? (available.map Coin.amount) = some total) (henough : amount ≤ total) :
    ∃ coins outputs, choosePayment settings info available recipient amount change = .ok (coins, outputs) ∧
      ((∃ allowed, applyDustPolicy outputs info.dust settings.maxSubDust = .ok allowed) ↔
        (∃ allowed, applyDustPolicy [outputTo recipient amount] info.dust settings.maxSubDust = .ok allowed) ∧
          (recipientSubDust info amount < settings.maxSubDust ∨
            Suitable (available.map fun coin => coin.amount.toNat) amount.toNat info.dust.toNat ∨
            Acceptable amount.toNat info.dust.toNat (available.map fun coin => coin.amount.toNat).sum)) := by
  obtain ⟨coins, rest, hchoose, hworth⟩ := exists_choosePayment settings info recipient change hsum henough
  refine ⟨coins, _, hchoose, ?_⟩
  rw [recipient_allowed_iff]
  simp only [applyDustPolicy_eq_ok, budgetTaken_payment, exists_and_left, exists_eq, and_true]
  by_cases hroom : recipientSubDust info amount < settings.maxSubDust
  · refine iff_of_true ?_ ⟨Nat.le_of_lt hroom, .inl hroom⟩
    split <;> omega
  · -- The choice was made as if there were no room, and the budget is what it took that to be.
    have hreaches : amount.toNat ≤ (available.map fun coin => coin.amount.toNat).sum := by
      have htotal := Amount.sum?_eq_some.mp hsum
      rw [List.map_map] at htotal
      exact htotal ▸ henough
    rw [decide_eq_false hroom] at hworth
    have hacceptable := @acceptable_choose_iff _ _ info.dust.toNat hreaches
    rw [hworth, acceptable_add_iff] at hacceptable
    rw [or_iff_right hroom, ← hacceptable]
    split
    · next hsmall => exact iff_of_false (by omega) fun h => h.2 hsmall
    · next hlarge => exact (and_iff_left hlarge).symm

/-! ## A payment that needs the right two coins

Of 960, 45 and 40 satoshi, 1000 are paid with no room below the limit: the shortest run leaves 5, and the first coin and
the last leave nothing.
-/

theorem OpenOutput.holds_of_value (o : OpenOutput) (value : Amount) :
    holdsOpenScript o.contract ⟨value, o.output.script⟩ = true := by
  have hholds := o.holds
  unfold holdsOpenScript at hholds ⊢
  exact hholds

/-- The same output with another value. -/
def OpenOutput.withValue (o : OpenOutput) (value : Amount) : OpenOutput :=
  ⟨o.contract, ⟨value, o.output.script⟩, o.listed, o.holds_of_value value⟩

def smallCoins : List Coin :=
  [(sentOutput.withValue ⟨960⟩).coin ⟨.zero, 0⟩, (sentOutput.withValue ⟨45⟩).coin ⟨.zero, 1⟩,
    (sentOutput.withValue ⟨40⟩).coin ⟨.zero, 2⟩]

theorem choosePayment_allowed_iff_rightTwo :
    Amount.sum? (smallCoins.map Coin.amount) = some ⟨1045⟩ ∧ (⟨1000⟩ : Amount) ≤ ⟨1045⟩ ∧
      Suitable (smallCoins.map fun coin => coin.amount.toNat) 1000 sampleOperator.dust.toNat ∧
      ∃ coins outputs, choosePayment { Settings.default with maxSubDust := 0 } sampleOperator smallCoins payee ⟨1000⟩
          changeAddress = .ok (coins, outputs) ∧
        ∃ allowed, applyDustPolicy outputs sampleOperator.dust 0 = .ok allowed := by
  have hsum : Amount.sum? (smallCoins.map Coin.amount) = some ⟨1045⟩ := rfl
  have henough : (⟨1000⟩ : Amount) ≤ ⟨1045⟩ := by decide
  have hamounts : (smallCoins.map fun coin => coin.amount.toNat) = [960, 45, 40] := rfl
  have hpair : Suitable (smallCoins.map fun coin => coin.amount.toNat) 1000 sampleOperator.dust.toNat := by
    rw [hamounts]
    exact .pair Nat.zero_lt_two (by decide) ⟨by decide, .inl rfl⟩
  obtain ⟨coins, outputs, hchoose, hallowed⟩ :=
    choosePayment_allowed_iff { Settings.default with maxSubDust := 0 } sampleOperator payee changeAddress hsum henough
  exact ⟨hsum, henough, hpair, coins, outputs, hchoose, hallowed.mpr ⟨⟨_, rfl⟩, .inr (.inl hpair)⟩⟩

end Spend

end Vtxo
