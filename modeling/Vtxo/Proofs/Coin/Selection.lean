import Vtxo.Coin.Selection
import Vtxo.Proofs.Amount

/-!
# What a choice of coins is worth

A choice names each coin at most once and reaches the target. It leaves change below the dust limit only where an
output below that limit may be added, or where every coin is spent because none of the combinations that are tried
does better.

  1. `shortestRun_prefixLength`: the run from the front is the shortest that reaches the target.
  2. `single?_eq_none_iff`, `pair?_eq_none_iff`, `triple?_eq_none_iff`: the searches overlook nothing.
  3. `choice_choose`: which coins are chosen when there is enough.
  4. `select_outcome`: the sum of all coins decides between two failures and a choice.
-/

set_option autoImplicit false

namespace Vtxo.Selection

/-! ## Change -/

/-- A sum reaches the target and leaves no change, or change of at least the dust limit. -/
def Acceptable (target dust sum : Nat) : Prop :=
  target ≤ sum ∧ (sum = target ∨ dust ≤ sum - target)

theorem changeOk_iff {target dust sum : Nat} : changeOk target dust sum = true ↔ Acceptable target dust sum := by
  simp [changeOk, Acceptable]

/-! ## Sums of positions -/

section Sums

variable (amounts : List Nat)

@[simp] theorem sumAt_nil : sumAt amounts [] = 0 := rfl

@[simp] theorem sumAt_cons (i : Nat) (positions : List Nat) :
    sumAt amounts (i :: positions) = amounts.getD i 0 + sumAt amounts positions := rfl

theorem sumAt_append (front back : List Nat) :
    sumAt amounts (front ++ back) = sumAt amounts front + sumAt amounts back := by
  induction front with
  | nil => simp
  | cons i front ih => rw [List.cons_append, sumAt_cons, sumAt_cons, ih, Nat.add_assoc]

/-- The positions below `k` are those of a run from the front. -/
theorem sumAt_range (k : Nat) : sumAt amounts (List.range k) = (amounts.take k).sum := by
  induction k with
  | zero => rfl
  | succ k ih =>
    rw [List.range_succ, sumAt_append, ih, sumAt_cons, sumAt_nil, Nat.add_zero, List.take_add_one, List.sum_append]
    cases hk : amounts[k]? with
    | none => simp [List.getD, hk]
    | some amount => simp [List.getD, hk]

end Sums

/-! ## The run from the front -/

/-- The first `k` coins reach the target, and no fewer coins from the front do. -/
structure ShortestRun (amounts : List Nat) (target k : Nat) : Prop where
  within : k ≤ amounts.length
  reaches : target ≤ (amounts.take k).sum
  shortest : ∀ j < k, (amounts.take j).sum < target

theorem ShortestRun.unique {amounts : List Nat} {target k l : Nat} (hk : ShortestRun amounts target k)
    (hl : ShortestRun amounts target l) : k = l := by
  rcases Nat.lt_trichotomy k l with hlt | heq | hgt
  · exact absurd (hl.shortest k hlt) (Nat.not_lt.mpr hk.reaches)
  · exact heq
  · exact absurd (hk.shortest l hgt) (Nat.not_lt.mpr hl.reaches)

theorem reaches_prefixLength {target sum : Nat} {amounts : List Nat} (h : target ≤ sum + amounts.sum) :
    target ≤ sum + (amounts.take (prefixLength target sum amounts)).sum := by
  induction amounts generalizing sum with
  | nil => exact h
  | cons amount rest ih =>
    rw [prefixLength]
    split
    · next hreached => exact Nat.le_add_right_of_le hreached
    · rw [List.sum_cons, ← Nat.add_assoc] at h
      rw [List.take_succ_cons, List.sum_cons, ← Nat.add_assoc]
      exact ih h

theorem lt_of_lt_prefixLength {target sum j : Nat} {amounts : List Nat}
    (h : j < prefixLength target sum amounts) : sum + (amounts.take j).sum < target := by
  induction amounts generalizing sum j with
  | nil => exact absurd h (Nat.not_lt_zero j)
  | cons amount rest ih =>
    rw [prefixLength] at h
    split at h
    · exact absurd h (Nat.not_lt_zero j)
    · next hbelow =>
      cases j with
      | zero => exact Nat.not_le.mp hbelow
      | succ j =>
        rw [List.take_succ_cons, List.sum_cons, ← Nat.add_assoc]
        exact ih (Nat.lt_of_succ_lt_succ h)

theorem shortestRun_prefixLength {target : Nat} {amounts : List Nat} (h : target ≤ amounts.sum) :
    ShortestRun amounts target (prefixLength target 0 amounts) where
  within := prefixLength_le target 0 amounts
  reaches := by
    have hreaches : target ≤ 0 + amounts.sum → target ≤ 0 + (amounts.take (prefixLength target 0 amounts)).sum :=
      reaches_prefixLength
    rw [Nat.zero_add, Nat.zero_add] at hreaches
    exact hreaches h
  shortest j hj := by
    have := lt_of_lt_prefixLength hj
    rwa [Nat.zero_add] at this

/-! ## Searches -/

/-- Different positions below `n` that fit. -/
structure Fitting (fits : List Nat → Bool) (n : Nat) (positions : List Nat) : Prop where
  nodup : positions.Nodup
  below : ∀ i ∈ positions, i < n
  fits : fits positions = true

theorem Fitting.mono {fits : List Nat → Bool} {n m : Nat} {positions : List Nat} (h : Fitting fits n positions)
    (hle : n ≤ m) : Fitting fits m positions :=
  ⟨h.nodup, fun i hi => Nat.lt_of_lt_of_le (h.below i hi) hle, h.fits⟩

theorem mem_after {i j n : Nat} : j ∈ after i n ↔ i < j ∧ j < n := by
  rw [after, List.mem_range'_1]
  omega

section Searches

variable {fits : List Nat → Bool} {n : Nat}

/-- One step of a search: positions are found if they fit. -/
theorem ite_eq_none_iff {positions : List Nat} :
    (if fits positions then some positions else none) = none ↔ fits positions = false := by
  cases fits positions <;> simp

theorem ite_eq_some_iff {positions found : List Nat} :
    (if fits positions then some positions else none) = some found ↔ positions = found ∧ fits found = true := by
  constructor
  · intro h
    split at h
    · next hfits =>
      cases h
      exact ⟨rfl, hfits⟩
    · cases h
  · rintro ⟨rfl, hfits⟩
    rw [if_pos hfits]

theorem single?_eq_none_iff : single? fits n = none ↔ ∀ i < n, fits [i] = false := by
  simp only [single?, List.findSome?_eq_none_iff, List.mem_range, ite_eq_none_iff]

theorem pair?_eq_none_iff : pair? fits n = none ↔ ∀ i j, i < j → j < n → fits [i, j] = false := by
  simp only [pair?, List.findSome?_eq_none_iff, List.mem_range, mem_after, ite_eq_none_iff]
  exact ⟨fun h i j hij hj => h i (Nat.lt_trans hij hj) j ⟨hij, hj⟩, fun h i _ j hj => h i j hj.1 hj.2⟩

theorem triple?_eq_none_iff :
    triple? fits n = none ↔ ∀ i j k, i < j → j < k → k < n → fits [i, j, k] = false := by
  simp only [triple?, List.findSome?_eq_none_iff, List.mem_range, mem_after, ite_eq_none_iff]
  constructor
  · intro h i j k hij hjk hk
    have hj : j < n := Nat.lt_trans hjk hk
    exact h i (Nat.lt_trans hij hj) j ⟨hij, hj⟩ k ⟨hjk, hk⟩
  · intro h i _ j hj k hk
    exact h i j k hj.1 hk.1 hk.2

theorem withOneMore?_eq_none_iff {k : Nat} (hk : k ≤ n) :
    withOneMore? fits k n = none ↔ ∀ i, k ≤ i → i < n → fits (List.range k ++ [i]) = false := by
  have hmem (i : Nat) : i ∈ List.range' k (n - k) ↔ k ≤ i ∧ i < n := by
    rw [List.mem_range'_1, Nat.add_sub_cancel' hk]
  simp only [withOneMore?, List.findSome?_eq_none_iff, hmem, ite_eq_none_iff]
  exact ⟨fun h i hki hi => h i ⟨hki, hi⟩, fun h i hi => h i hi.1 hi.2⟩

theorem fitting_single? {positions : List Nat} (h : single? fits n = some positions) :
    Fitting fits n positions := by
  obtain ⟨i, hi, h⟩ := List.exists_of_findSome?_eq_some h
  obtain ⟨rfl, hfits⟩ := ite_eq_some_iff.mp h
  exact ⟨by simp, by simpa using hi, hfits⟩

theorem fitting_pair? {positions : List Nat} (h : pair? fits n = some positions) : Fitting fits n positions := by
  obtain ⟨i, hi, h⟩ := List.exists_of_findSome?_eq_some h
  obtain ⟨j, hj, h⟩ := List.exists_of_findSome?_eq_some h
  obtain ⟨rfl, hfits⟩ := ite_eq_some_iff.mp h
  rw [List.mem_range] at hi
  obtain ⟨hij, hj⟩ := mem_after.mp hj
  exact ⟨by simp [Nat.ne_of_lt hij], by simp [hi, hj], hfits⟩

theorem fitting_triple? {positions : List Nat} (h : triple? fits n = some positions) :
    Fitting fits n positions := by
  obtain ⟨i, hi, h⟩ := List.exists_of_findSome?_eq_some h
  obtain ⟨j, hj, h⟩ := List.exists_of_findSome?_eq_some h
  obtain ⟨k, hk, h⟩ := List.exists_of_findSome?_eq_some h
  obtain ⟨rfl, hfits⟩ := ite_eq_some_iff.mp h
  rw [List.mem_range] at hi
  obtain ⟨hij, hj⟩ := mem_after.mp hj
  obtain ⟨hjk, hk⟩ := mem_after.mp hk
  exact ⟨by simp [Nat.ne_of_lt hij, Nat.ne_of_lt hjk, Nat.ne_of_lt (Nat.lt_trans hij hjk)],
    by simp [hi, hj, hk], hfits⟩

theorem fitting_withOneMore? {k : Nat} (hk : k ≤ n) {positions : List Nat}
    (h : withOneMore? fits k n = some positions) : Fitting fits n positions := by
  obtain ⟨i, hi, h⟩ := List.exists_of_findSome?_eq_some h
  obtain ⟨rfl, hfits⟩ := ite_eq_some_iff.mp h
  rw [List.mem_range'_1, Nat.add_sub_cancel' hk] at hi
  obtain ⟨hki, hi⟩ := hi
  refine ⟨?_, ?_, hfits⟩
  · rw [List.nodup_append]
    refine ⟨List.nodup_range, by simp, fun j hj l hl => ?_⟩
    rw [List.mem_singleton.mp hl]
    exact Nat.ne_of_lt (Nat.lt_of_lt_of_le (List.mem_range.mp hj) hki)
  · intro j hj
    rcases List.mem_append.mp hj with hj | hj
    · exact Nat.lt_of_lt_of_le (List.mem_range.mp hj) hk
    · rwa [List.mem_singleton.mp hj]

theorem fitting_combination? {positions : List Nat} (h : combination? fits n = some positions) :
    Fitting fits n positions := by
  simp only [combination?, Option.orElse_eq_orElse, Option.orElse_eq_or, Option.or_eq_some_iff] at h
  rcases h with h | ⟨_, h | ⟨_, h⟩⟩
  · exact fitting_single? h
  · exact fitting_pair? h
  · exact (fitting_triple? h).mono (Nat.min_le_left n tripleLimit)

end Searches

/-! ## Choices -/

/-- None of the combinations that are tried leaves acceptable change: neither the shortest run and one more coin, nor
one coin, nor two, nor three of the first ten. -/
structure NothingBetter (amounts : List Nat) (target dust : Nat) : Prop where
  oneMore : ∀ k, ShortestRun amounts target k → ∀ i, k ≤ i → i < amounts.length →
    ¬ Acceptable target dust (sumAt amounts (List.range k ++ [i]))
  single : ∀ i < amounts.length, ¬ Acceptable target dust (sumAt amounts [i])
  pair : ∀ i j, i < j → j < amounts.length → ¬ Acceptable target dust (sumAt amounts [i, j])
  triple : ∀ i j k, i < j → j < k → k < amounts.length → k < 10 →
    ¬ Acceptable target dust (sumAt amounts [i, j, k])

/-- What is promised of the positions that are chosen, when an output below the dust limit may or may not be added. -/
structure Choice (amounts : List Nat) (target dust : Nat) (slotLeft : Bool) (positions : List Nat) : Prop where
  nodup : positions.Nodup
  below : ∀ i ∈ positions, i < amounts.length
  reaches : target ≤ sumAt amounts positions
  /-- The first coin of exactly the target is chosen alone. -/
  exact : ∀ i, amounts[i]? = some target → (∀ j < i, amounts[j]? ≠ some target) → positions = [i]
  /-- Without such a coin, the shortest run is chosen if its change is allowed. -/
  run : target ∉ amounts → ∀ k, ShortestRun amounts target k →
    slotLeft = true ∨ Acceptable target dust (amounts.take k).sum → positions = List.range k
  /-- Change below the dust limit that is not allowed is left only if every coin is spent and nothing else helps. -/
  last : slotLeft = false → 0 < sumAt amounts positions - target → sumAt amounts positions - target < dust →
    positions = List.range amounts.length ∧ NothingBetter amounts target dust

theorem nothingBetter_of_none {amounts : List Nat} {target dust k : Nat} (hk : ShortestRun amounts target k)
    (hmore : withOneMore? (fun positions => changeOk target dust (sumAt amounts positions)) k amounts.length = none)
    (hcombination : combination? (fun positions => changeOk target dust (sumAt amounts positions)) amounts.length =
      none) : NothingBetter amounts target dust := by
  have hfits (positions : List Nat) (h : changeOk target dust (sumAt amounts positions) = false) :
      ¬ Acceptable target dust (sumAt amounts positions) := fun hacceptable => by
    rw [changeOk_iff.mpr hacceptable] at h
    cases h
  simp only [combination?, Option.orElse_eq_orElse, Option.orElse_eq_or, Option.or_eq_none_iff] at hcombination
  obtain ⟨hsingle, hpair, htriple⟩ := hcombination
  refine ⟨fun l hl i hli hi => ?_, fun i hi => ?_, fun i j hij hj => ?_, fun i j l hij hjl hl hten => ?_⟩
  · rw [hl.unique hk] at hli ⊢
    exact hfits _ ((withOneMore?_eq_none_iff hk.within).mp hmore i hli hi)
  · exact hfits _ (single?_eq_none_iff.mp hsingle i hi)
  · exact hfits _ (pair?_eq_none_iff.mp hpair i j hij hj)
  · exact hfits _ (triple?_eq_none_iff.mp htriple i j l hij hjl (Nat.lt_min.mpr ⟨hl, hten⟩))

/-- Positions with acceptable change are a choice where no simpler one is asked for. -/
theorem choice_of_fitting {amounts : List Nat} {target dust : Nat} {positions : List Nat}
    (h : Fitting (fun positions => changeOk target dust (sumAt amounts positions)) amounts.length positions)
    (habsent : target ∉ amounts) {k : Nat} (hk : ShortestRun amounts target k)
    (hrun : ¬ Acceptable target dust (amounts.take k).sum) : Choice amounts target dust false positions where
  nodup := h.nodup
  below := h.below
  reaches := (changeOk_iff.mp h.fits).1
  exact i hi _ := absurd (List.mem_of_getElem? hi) habsent
  run _ l hl hallowed := by
    rw [hl.unique hk] at hallowed
    exact absurd hallowed (by simpa using hrun)
  last _ hpositive hsmall := by
    obtain ⟨_, hexact | hlarge⟩ := changeOk_iff.mp h.fits
    · rw [hexact, Nat.sub_self] at hpositive
      exact absurd hpositive (Nat.lt_irrefl 0)
    · exact absurd hsmall (Nat.not_lt.mpr hlarge)

theorem choice_exact {amounts : List Nat} {target dust i : Nat} {slotLeft : Bool} (hi : amounts[i]? = some target)
    (hfirst : ∀ j < i, amounts[j]? ≠ some target) : Choice amounts target dust slotLeft [i] where
  nodup := by simp
  below j hj := by
    rw [List.mem_singleton.mp hj]
    exact (List.getElem?_eq_some_iff.mp hi).1
  reaches := by simp [List.getD, hi]
  exact l hl hlfirst := by
    rcases Nat.lt_trichotomy i l with hlt | rfl | hgt
    · exact absurd hi (hlfirst i hlt)
    · rfl
    · exact absurd hl (hfirst l hgt)
  run habsent := absurd (List.mem_of_getElem? hi) habsent
  last _ hpositive := by simp [List.getD, hi] at hpositive

theorem choice_run {amounts : List Nat} {target dust k : Nat} {slotLeft : Bool} (habsent : target ∉ amounts)
    (hk : ShortestRun amounts target k) (hallowed : slotLeft = true ∨ Acceptable target dust (amounts.take k).sum) :
    Choice amounts target dust slotLeft (List.range k) where
  nodup := List.nodup_range
  below i hi := Nat.lt_of_lt_of_le (List.mem_range.mp hi) hk.within
  reaches := by
    rw [sumAt_range]
    exact hk.reaches
  exact i hi _ := absurd (List.mem_of_getElem? hi) habsent
  run _ l hl _ := by rw [hl.unique hk]
  last hslot hpositive hsmall := by
    rw [sumAt_range] at hpositive hsmall
    rcases hallowed with hleft | ⟨_, hexact | hlarge⟩
    · rw [hslot] at hleft
      cases hleft
    · rw [hexact, Nat.sub_self] at hpositive
      exact absurd hpositive (Nat.lt_irrefl 0)
    · exact absurd hsmall (Nat.not_lt.mpr hlarge)

theorem choice_all {amounts : List Nat} {target dust k : Nat} (habsent : target ∉ amounts)
    (hk : ShortestRun amounts target k) (hrun : ¬ Acceptable target dust (amounts.take k).sum)
    (h : NothingBetter amounts target dust) (henough : target ≤ amounts.sum) :
    Choice amounts target dust false (List.range amounts.length) where
  nodup := List.nodup_range
  below _ hi := List.mem_range.mp hi
  reaches := by rwa [sumAt_range, List.take_length]
  exact i hi _ := absurd (List.mem_of_getElem? hi) habsent
  run _ l hl hallowed := by
    rw [hl.unique hk] at hallowed
    exact absurd hallowed (by simpa using hrun)
  last _ _ _ := ⟨rfl, h⟩

/-- The first coin of exactly the target, if there is one. -/
theorem find?_exact_eq_some {amounts : List Nat} {target i : Nat}
    (h : ((List.range amounts.length).find? fun i => amounts.getD i 0 == target) = some i) :
    amounts[i]? = some target ∧ ∀ j < i, amounts[j]? ≠ some target := by
  obtain ⟨hi, hmem, hfirst⟩ := List.find?_range_eq_some.mp h
  constructor
  · have hlt : i < amounts.length := List.mem_range.mp hmem
    have hget : amounts[i]? = some amounts[i] := List.getElem?_eq_getElem hlt
    rw [List.getD, hget, Option.getD_some, beq_iff_eq] at hi
    rw [hget, hi]
  · intro j hj hother
    have hne := hfirst j hj
    simp [List.getD, hother] at hne

theorem find?_exact_eq_none {amounts : List Nat} {target : Nat}
    (h : ((List.range amounts.length).find? fun i => amounts.getD i 0 == target) = none) : target ∉ amounts := by
  intro hmem
  obtain ⟨i, hi, rfl⟩ := List.getElem_of_mem hmem
  have := List.find?_eq_none.mp h i (List.mem_range.mpr hi)
  simp [List.getD, hi] at this

/-- Where there is enough, what is chosen is a choice. -/
theorem choice_choose {amounts : List Nat} {target : Nat} (dust : Nat) (slotLeft : Bool)
    (h : target ≤ amounts.sum) : Choice amounts target dust slotLeft (choose amounts target dust slotLeft) := by
  have hk := shortestRun_prefixLength h
  rw [choose]
  simp only
  split
  · next i hexact =>
    obtain ⟨hi, hfirst⟩ := find?_exact_eq_some hexact
    exact choice_exact hi hfirst
  · next hnone =>
    have habsent := find?_exact_eq_none hnone
    split
    · next hallowed =>
      refine choice_run habsent hk ?_
      rwa [Bool.or_eq_true, changeOk_iff, sumAt_range] at hallowed
    · next hrefused =>
      rw [Bool.or_eq_true, changeOk_iff, sumAt_range, not_or, Bool.not_eq_true] at hrefused
      obtain ⟨rfl, hrun⟩ := hrefused
      split
      · next positions hfound =>
        refine choice_of_fitting ?_ habsent hk hrun
        rw [Option.orElse_eq_orElse, Option.orElse_eq_or, Option.or_eq_some_iff] at hfound
        rcases hfound with hmore | ⟨_, hcombination⟩
        · exact fitting_withOneMore? hk.within hmore
        · exact fitting_combination? hcombination
      · next hnothing =>
        rw [Option.orElse_eq_orElse, Option.orElse_eq_or, Option.or_eq_none_iff] at hnothing
        exact choice_all habsent hk hrun (nothingBetter_of_none hk hnothing.1 hnothing.2) h

/-- The run is 300, 5, 300, 400, one coin or two are not enough, and three leave no change. -/
example : choose [300, 5, 300, 400] 1000 100 false = [0, 2, 3] := by decide

/-- The sum of all coins decides: it does not fit 64 bits, it is less than the target, or coins are chosen. -/
theorem select_outcome (amounts : List Amount) (target dust : Amount) (subDust maxSubDust : Nat) :
    let total := (amounts.map Amount.toNat).sum
    if 2 ^ 64 ≤ total then
      ∃ error, select amounts target dust subDust maxSubDust = .error error ∧ error.kind = .invalidArgument
    else if total < target.toNat then
      ∃ error, select amounts target dust subDust maxSubDust = .error error ∧ error.kind = .insufficientFunds ∧
        error.shortfall?.map Amount.toNat = some (target.toNat - total)
    else
      ∃ positions, select amounts target dust subDust maxSubDust = .ok positions ∧
        Choice (amounts.map Amount.toNat) target.toNat dust.toNat (subDust < maxSubDust) positions := by
  intro total
  cases hsum : Amount.sum? amounts with
  | none =>
    have hover : 2 ^ 64 ≤ total := Amount.sum?_eq_none.mp hsum
    rw [if_pos hover, select, hsum]
    exact ⟨_, rfl, rfl⟩
  | some available =>
    have htotal : total = available.toNat := Amount.sum?_eq_some.mp hsum
    have hfits : ¬ 2 ^ 64 ≤ total := Nat.not_le.mpr (htotal ▸ available.toNat_lt)
    rw [if_neg hfits, select, hsum]
    simp only
    by_cases hshort : available < target
    · rw [if_pos (htotal ▸ hshort), if_pos hshort]
      obtain ⟨missing, hmissing⟩ : ∃ missing, target.sub? available = some missing := by
        rw [Amount.sub?, if_pos (Nat.le_of_lt (Amount.lt_iff.mp hshort))]
        exact ⟨_, rfl⟩
      have hdifference : target.toNat = available.toNat + missing.toNat := Amount.sub?_eq_some.mp hmissing
      refine ⟨_, rfl, rfl, ?_⟩
      rw [Error.shortfall?, hmissing, Option.getD_some, Option.map_some, htotal, hdifference, Nat.add_sub_cancel_left]
    · have henough : target.toNat ≤ total := htotal ▸ Nat.not_lt.mp hshort
      rw [if_neg (Nat.not_lt.mpr henough), if_neg hshort]
      exact ⟨_, rfl, choice_choose _ _ henough⟩

end Vtxo.Selection
