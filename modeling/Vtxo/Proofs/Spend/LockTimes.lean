import Vtxo.Proofs.Coin.Committed
import Vtxo.Spend.Checkpoint

/-!
# The lock time of a payment

The lock time of a transaction satisfies a coin if it is of the coin's unit and not less. So the coins of a payment must
all carry heights or all carry times, and the largest of them is taken. The combination begins with zero and takes zero
for "no lock time so far". A coin that carries the height zero is therefore overlooked if no other lock time stands
before it: it does not keep later coins from carrying times, although no time satisfies it.

  1. `OneUnit`, `Largest`, `Combines`: what is asked of a combined lock time.
  2. `Combines.cons_of_le`, `Combines.congr`: lock times that make no difference, and their order.
  3. `combines_combinedLockTime`: what is combined are the lock times from the first one on that is not zero.
  4. `combines_everyOrder_iff`: the coins that are combined as asked for, in whatever order they come.
-/

set_option autoImplicit false

namespace Vtxo.Spend

/-! ## What is asked for -/

/-- The lock times that coins carry. -/
def lockTimesOf (coins : List Coin) : List UInt32 :=
  coins.filterMap fun coin => coin.locks.lockTime

/-- The lock times are all heights or all times. -/
def OneUnit (times : List UInt32) : Prop :=
  ∀ a ∈ times, ∀ b ∈ times, sameUnit a b = true

/-- The lock time satisfies all of some lock times, and is one of them; it is zero if there are none. -/
structure Largest (times : List UInt32) (combined : UInt32) : Prop where
  satisfies : ∀ time ∈ times, time ≤ combined ∧ sameUnit time combined = true
  attained : combined ∈ times ∨ times = [] ∧ combined = 0

/-- Lock times of one unit are combined to the largest of them, and others are refused. -/
inductive Combines (times : List UInt32) : Except Error UInt32 → Prop
  | largest {combined : UInt32} : OneUnit times → Largest times combined → Combines times (.ok combined)
  | mixed : ¬ OneUnit times → Combines times (.error (.spend .mixedLockTimes))

/-- The lock times from the first one on that is not zero. -/
def afterZeros (times : List UInt32) : List UInt32 :=
  times.dropWhile (· == 0)

/-- The height zero is among the lock times, and all others that are not zero are times. -/
structure ZeroBesideTimes (times : List UInt32) : Prop where
  zero : 0 ∈ times
  time : ∃ time ∈ times, ¬ time < lockTimeThreshold
  others : ∀ time ∈ times, time = 0 ∨ ¬ time < lockTimeThreshold

variable {times others : List UInt32} {outcome : Except Error UInt32}

theorem sameUnit_iff {a b : UInt32} : sameUnit a b = true ↔ (a < lockTimeThreshold ↔ b < lockTimeThreshold) := by
  rw [sameUnit, beq_iff_eq, decide_eq_decide]

theorem oneUnit_cons {first : UInt32} :
    OneUnit (first :: times) ↔ (∀ time ∈ times, sameUnit time first = true) ∧ OneUnit times := by
  constructor
  · intro h
    exact ⟨fun time hmem => h time (List.mem_cons_of_mem _ hmem) first List.mem_cons_self,
      fun a ha b hb => h a (List.mem_cons_of_mem _ ha) b (List.mem_cons_of_mem _ hb)⟩
  · rintro ⟨hfirst, hrest⟩
    refine List.forall_mem_cons.mpr ⟨List.forall_mem_cons.mpr ⟨sameUnit_iff.mpr Iff.rfl, fun b hb => ?_⟩,
      fun a ha => List.forall_mem_cons.mpr ⟨hfirst a ha, hrest a ha⟩⟩
    exact sameUnit_iff.mpr (sameUnit_iff.mp (hfirst b hb)).symm

/-- There is one combination. -/
theorem Combines.unique {other : Except Error UInt32} (h : Combines times outcome) (h' : Combines times other) :
    outcome = other := by
  cases h with
  | mixed hunits =>
    cases h' with
    | mixed => rfl
    | largest hunits' => exact absurd hunits' hunits
  | largest hunits hlargest =>
    cases h' with
    | mixed hunits' => exact absurd hunits hunits'
    | largest _ hlargest' =>
      rcases hlargest.attained with hmem | ⟨hnone, rfl⟩
      · rcases hlargest'.attained with hmem' | ⟨rfl, _⟩
        · exact congrArg Except.ok (UInt32.le_antisymm (hlargest'.satisfies _ hmem).1 (hlargest.satisfies _ hmem').1)
        · cases hmem
      · rcases hlargest'.attained with hmem' | ⟨_, rfl⟩
        · rw [hnone] at hmem'
          cases hmem'
        · rfl

/-- What is combined does not depend on the order of the lock times. -/
theorem Combines.congr (hsame : ∀ time, time ∈ times ↔ time ∈ others) (h : Combines times outcome) :
    Combines others outcome := by
  have hunits : OneUnit times ↔ OneUnit others := by simp only [OneUnit, hsame]
  cases h with
  | mixed hmixed => exact .mixed (mt hunits.mpr hmixed)
  | largest hone hlargest =>
    refine .largest (hunits.mp hone) ⟨fun time hmem => hlargest.satisfies time ((hsame time).mpr hmem), ?_⟩
    rcases hlargest.attained with hmem | ⟨rfl, rfl⟩
    · exact .inl ((hsame _).mp hmem)
    · exact .inr ⟨List.eq_nil_iff_forall_not_mem.mpr fun time hmem => by simpa using (hsame time).mpr hmem, rfl⟩

/-- A lock time makes no difference beside a larger one of its unit. -/
theorem Combines.cons_of_le {a b : UInt32} (hb : b ∈ times) (hle : a ≤ b) (hunit : sameUnit a b = true)
    (h : Combines times outcome) : Combines (a :: times) outcome := by
  have hunit := sameUnit_iff.mp hunit
  cases h with
  | mixed hmixed => exact .mixed fun hone => hmixed (oneUnit_cons.mp hone).2
  | largest hone hlargest =>
    have hbound := hlargest.satisfies b hb
    have hsatisfies : ∀ time ∈ a :: times, time ≤ _ ∧ sameUnit time _ = true :=
      List.forall_mem_cons.mpr ⟨⟨UInt32.le_trans hle hbound.1,
        sameUnit_iff.mpr (hunit.trans (sameUnit_iff.mp hbound.2))⟩, hlargest.satisfies⟩
    refine .largest (oneUnit_cons.mpr ⟨fun time hmem => ?_, hone⟩) ⟨hsatisfies, .inl ?_⟩
    · exact sameUnit_iff.mpr ((sameUnit_iff.mp (hone time hmem b hb)).trans hunit.symm)
    · rcases hlargest.attained with hmem | ⟨rfl, _⟩
      · exact List.mem_cons_of_mem _ hmem
      · cases hb

/-- Nothing but zeros combines to zero. -/
theorem combines_zeros (h : ∀ time ∈ times, time = 0) : Combines times (.ok 0) := by
  refine .largest (fun a ha b hb => ?_) ⟨fun time hmem => ?_, ?_⟩
  · rw [h a ha, h b hb]
    rfl
  · rw [h time hmem]
    exact ⟨UInt32.le_refl 0, rfl⟩
  · cases times with
    | nil => exact .inr ⟨rfl, rfl⟩
    | cons first rest => exact .inl (h first List.mem_cons_self ▸ List.mem_cons_self)

/-! ## What is combined -/

/-- From a lock time on that is not zero, all lock times are combined as asked for. -/
theorem combines_foldlM {first : UInt32} (hfirst : first ≠ 0) (times : List UInt32) :
    Combines (first :: times) (times.foldlM combineLockTime first) := by
  induction times generalizing first with
  | nil =>
    have hunit : sameUnit first first = true := sameUnit_iff.mpr Iff.rfl
    refine .largest ?_ ⟨?_, .inl List.mem_cons_self⟩
    · simpa [OneUnit] using hunit
    · simpa using hunit
  | cons next rest ih =>
    rw [List.foldlM_cons, combineLockTime, if_neg hfirst]
    cases hunit : sameUnit first next with
    | false =>
      refine .mixed fun hone => ?_
      rw [hone first List.mem_cons_self next (List.mem_cons_of_mem _ List.mem_cons_self)] at hunit
      cases hunit
    | true =>
      -- The larger one of the two stands for both.
      show Combines (first :: next :: rest) (rest.foldlM combineLockTime (if first ≤ next then next else first))
      split
      · next hle =>
        have hnext : next ≠ 0 := fun hzero => hfirst (UInt32.le_antisymm (hzero ▸ hle) (UInt32.zero_le))
        exact (ih hnext).cons_of_le List.mem_cons_self hle hunit
      · next hlt =>
        have hle : next ≤ first := (UInt32.le_total first next).resolve_left hlt
        have hunit : sameUnit next first = true := sameUnit_iff.mpr (sameUnit_iff.mp hunit).symm
        exact ((ih hfirst).cons_of_le List.mem_cons_self hle hunit).congr fun time => (List.Perm.swap _ _ _).mem_iff

theorem afterZeros_zero (times : List UInt32) : afterZeros (0 :: times) = afterZeros times := rfl

theorem afterZeros_of_ne {first : UInt32} (h : first ≠ 0) (times : List UInt32) :
    afterZeros (first :: times) = first :: times := by
  rw [afterZeros, List.dropWhile_cons, if_neg (by simpa using h)]

theorem afterZeros_subset (times : List UInt32) : afterZeros times ⊆ times :=
  (List.dropWhile_sublist _).subset

/-- A lock time other than zero is not overlooked. -/
theorem mem_afterZeros {time : UInt32} (hmem : time ∈ times) (htime : time ≠ 0) : time ∈ afterZeros times := by
  induction times with
  | nil => cases hmem
  | cons first rest ih =>
    by_cases hzero : first = 0
    · subst hzero
      exact ih ((List.mem_cons.mp hmem).resolve_left htime)
    · rw [afterZeros_of_ne hzero]
      exact hmem

/-- Zeros in front are overlooked. -/
theorem combines_combinedLockTime (coins : List Coin) :
    Combines (afterZeros (lockTimesOf coins)) (combinedLockTime coins) := by
  rw [combinedLockTime, ← lockTimesOf]
  induction lockTimesOf coins with
  | nil => exact combines_zeros (List.forall_mem_nil _)
  | cons first rest ih =>
    rw [List.foldlM_cons, combineLockTime, if_pos rfl]
    by_cases hzero : first = 0
    · subst hzero
      exact ih
    · rw [afterZeros_of_ne hzero]
      exact combines_foldlM hzero rest

/-- Lock times are refused only if two of them are of different units. -/
theorem mixed_of_combinedLockTime {coins : List Coin} {error : Error} (h : combinedLockTime coins = .error error) :
    error = .spend .mixedLockTimes ∧
      ∃ a ∈ lockTimesOf coins, ∃ b ∈ lockTimesOf coins, sameUnit a b = false := by
  have hcombines := combines_combinedLockTime coins
  rw [h] at hcombines
  cases hcombines with
  | mixed hmixed =>
    simp only [OneUnit, not_forall, Bool.not_eq_true] at hmixed
    obtain ⟨a, ha, b, hb, hunits⟩ := hmixed
    exact ⟨rfl, a, afterZeros_subset _ ha, b, afterZeros_subset _ hb, hunits⟩

/-! ## Every order -/

/-- Zeros in front make no difference beside a height. -/
theorem Combines.of_afterZeros (h : Combines (afterZeros times) outcome) {height : UInt32}
    (hmem : height ∈ afterZeros times) (hheight : height < lockTimeThreshold) : Combines times outcome := by
  induction times with
  | nil => exact h
  | cons first rest ih =>
    by_cases hzero : first = 0
    · subst hzero
      rw [afterZeros_zero] at h hmem
      have hunit : sameUnit 0 height = true := sameUnit_iff.mpr ⟨fun _ => hheight, fun _ => by decide⟩
      exact (ih h hmem).cons_of_le (afterZeros_subset _ hmem) UInt32.zero_le hunit
    · rw [afterZeros_of_ne hzero] at h
      exact h

/-- Zeros in front make no difference unless all other lock times are times. -/
theorem Combines.of_not_zeroBesideTimes (h : Combines (afterZeros times) outcome) (hbeside : ¬ ZeroBesideTimes times) :
    Combines times outcome := by
  by_cases hzero : 0 ∈ times
  · by_cases hheight : ∃ height ∈ times, height ≠ 0 ∧ height < lockTimeThreshold
    · obtain ⟨height, hmem, hne, hlt⟩ := hheight
      exact h.of_afterZeros (mem_afterZeros hmem hne) hlt
    · have hothers : ∀ time ∈ times, time = 0 ∨ ¬ time < lockTimeThreshold := fun time hmem =>
        or_iff_not_imp_left.mpr fun hne hlt => hheight ⟨time, hmem, hne, hlt⟩
      have hzeros : ∀ time ∈ times, time = 0 := fun time hmem =>
        (hothers time hmem).resolve_right fun htime => hbeside ⟨hzero, ⟨time, hmem, htime⟩, hothers⟩
      rw [h.unique (combines_zeros fun time hmem => hzeros time (afterZeros_subset _ hmem))]
      exact combines_zeros hzeros
  · refine h.congr fun time => ⟨fun hmem => afterZeros_subset _ hmem, fun hmem => ?_⟩
    exact mem_afterZeros hmem fun heq => hzero (heq ▸ hmem)

/-- Where all other lock times are times, the coins that carry zero are overlooked if they come first. -/
theorem exists_overlooked {coins : List Coin} (h : ZeroBesideTimes (lockTimesOf coins)) :
    ∃ order, order.Perm coins ∧ ¬ Combines (lockTimesOf coins) (combinedLockTime order) := by
  let atZero : Coin → Bool := fun coin => coin.locks.lockTime == some 0
  let first := coins.filter atZero
  let rest := coins.filter fun coin => !atZero coin
  refine ⟨first ++ rest, List.filter_append_perm _ _, fun hasked => ?_⟩
  have hzeros : ∀ time ∈ lockTimesOf first, (time == 0) = true := by
    intro time hmem
    obtain ⟨coin, hcoin, htime⟩ := List.mem_filterMap.mp hmem
    have hzero := (List.mem_filter.mp hcoin).2
    simp only [atZero, htime, beq_iff_eq, Option.some.injEq] at hzero
    exact beq_iff_eq.mpr hzero
  have htimes : ∀ time ∈ lockTimesOf rest, ¬ time < lockTimeThreshold := by
    intro time hmem
    obtain ⟨coin, hcoin, htime⟩ := List.mem_filterMap.mp hmem
    obtain ⟨hcoin, hzero⟩ := List.mem_filter.mp hcoin
    simp only [atZero, htime, Bool.not_eq_true', beq_eq_false_iff_ne, ne_eq, Option.some.injEq] at hzero
    exact (h.others time (List.mem_filterMap.mpr ⟨coin, hcoin, htime⟩)).resolve_left hzero
  have hrest : afterZeros (lockTimesOf (first ++ rest)) = afterZeros (lockTimesOf rest) := by
    rw [lockTimesOf, List.filterMap_append]
    exact List.dropWhile_append_of_pos hzeros
  have hgiven : Combines (afterZeros (lockTimesOf rest)) (combinedLockTime (first ++ rest)) :=
    hrest ▸ combines_combinedLockTime (first ++ rest)
  cases houtcome : combinedLockTime (first ++ rest) with
  | ok combined =>
    rw [houtcome] at hasked
    cases hasked with
    | largest hone _ =>
      obtain ⟨time, hmem, htime⟩ := h.time
      exact htime ((sameUnit_iff.mp (hone 0 h.zero time hmem)).mp (by decide))
  | error error =>
    rw [houtcome] at hgiven
    cases hgiven with
    | mixed hmixed =>
      refine hmixed fun a ha b hb => sameUnit_iff.mpr ⟨fun hlt => absurd hlt ?_, fun hlt => absurd hlt ?_⟩
      · exact htimes a (afterZeros_subset _ ha)
      · exact htimes b (afterZeros_subset _ hb)

/-- Coins are combined as asked for, in whatever order they come, if and only if none of them carries zero while all
others carry times. In every order what is combined are the lock times from the first one on that is not zero. -/
theorem combines_everyOrder_iff (coins : List Coin) :
    Combines (afterZeros (lockTimesOf coins)) (combinedLockTime coins) ∧
      ((∀ order : List Coin, order.Perm coins →
        Combines (lockTimesOf coins) (combinedLockTime order) ∧ combinedLockTime order = combinedLockTime coins) ↔
        ¬ ZeroBesideTimes (lockTimesOf coins)) := by
  refine ⟨combines_combinedLockTime coins, fun h hbeside => ?_, fun hbeside order horder => ?_⟩
  · obtain ⟨order, horder, hoverlooked⟩ := exists_overlooked hbeside
    exact hoverlooked (h order horder).1
  · have hgiven := (combines_combinedLockTime coins).of_not_zeroBesideTimes hbeside
    have hsame : ∀ time, time ∈ lockTimesOf order ↔ time ∈ lockTimesOf coins := fun time =>
      (horder.filterMap _).mem_iff
    have hbeside' : ¬ ZeroBesideTimes (lockTimesOf order) := fun h =>
      hbeside ⟨(hsame 0).mp h.zero, h.time.imp fun time htime => ⟨(hsame time).mp htime.1, htime.2⟩,
        fun time hmem => h.others time ((hsame time).mpr hmem)⟩
    have hreordered := ((combines_combinedLockTime order).of_not_zeroBesideTimes hbeside').congr hsame
    exact ⟨hreordered, hreordered.unique hgiven⟩

/-- A script that can be spent from a lock time on. -/
def fromLockTime (time : Int) : List ScriptOp :=
  [.int time, .op Opcode.checkLockTime, .op Opcode.drop, .key unspendableKey, .op Opcode.checkSig]

/-- A contract that can be spent from the height zero on, and from the first time on. -/
def zeroAndTime : Explicit :=
  .pair none (ScriptOp.build (fromLockTime 0)) (ScriptOp.build (fromLockTime 500000000))

theorem tweak?_zeroAndTime :
    (((TapTree.branch (.leaf 0) (.leaf 1)).digest zeroAndTime.scripts).toOption.bind fun root =>
      unspendableKey.tweak? (Commitment.tweak unspendableKey root)).isSome = true := by
  decide +kernel

/-- Not all coins are combined as asked for: a height and a time are combined to the time. -/
theorem not_forall_combines : ¬ ∀ coins : List Coin, Combines (lockTimesOf coins) (combinedLockTime coins) := by
  intro h
  obtain ⟨script, hscript⟩ : ∃ script, (Contract.explicit zeroAndTime).outputScript = .ok script :=
    Coin.exists_outputScript_two (by rintro ⟨⟩) rfl tweak?_zeroAndTime
  obtain ⟨zero, _, hzero⟩ := Coin.exists_make_of_ops hscript ⟨none, some 0⟩ List.mem_cons_self (by decide)
    (by decide +kernel) "" ⟨.zero, 0⟩ ⟨1000⟩
  obtain ⟨time, _, htime⟩ := Coin.exists_make_of_ops hscript ⟨none, some 500000000⟩
    (List.mem_cons_of_mem _ List.mem_cons_self) (by decide) (by decide +kernel) "" ⟨.zero, 1⟩ ⟨1000⟩
  have htimes : lockTimesOf [zero, time] = [0, 500000000] := by simp [lockTimesOf, hzero, htime]
  have hcombined : combinedLockTime [zero, time] = .ok 500000000 := by
    rw [combinedLockTime, ← lockTimesOf, htimes]
    rfl
  have hasked := h [zero, time]
  rw [htimes, hcombined] at hasked
  cases hasked with
  | largest hone _ =>
    have hunit := hone 0 (by decide) 500000000 (by decide)
    cases hunit

end Vtxo.Spend
