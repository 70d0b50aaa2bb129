import Mathlib.Algebra.Ring.Nat
import Mathlib.Data.Nat.Bitwise
import Vtxo.Timelock

/-!
# Sequences of relative timelocks

The sequence that enforces a lock holds the value in its low sixteen bits and the unit in bit 22, and nothing else, so
the lock can be told from it.

  1. `ofSequence_toSequence`: a lock is read back from its sequence.
  2. `ofSequence_eq_ok`: which sequences are read, and as which locks.
  3. `toSequence_ofSequence`: no other sequence is read as the same lock.
  4. `toSequence_eq_iff`: the one sequence that is read as a lock which nothing enforces.
  5. `Delay.sequence_lt`: the sequence of a delay is short enough for every script.
-/

set_option autoImplicit false

namespace Vtxo

namespace RelativeLock

/-! ## Bits of a sequence -/

theorem and_eq_zero_of_lt {value mask : Nat} (hvalue : value < 2 ^ 16) (hmask : mask % 2 ^ 16 = 0) :
    value &&& mask = 0 := by
  have hmask : mask = 2 ^ 16 * (mask / 2 ^ 16) := by omega
  rw [hmask]
  refine Nat.eq_of_testBit_eq fun i => ?_
  rw [Nat.testBit_and, Nat.testBit_two_pow_mul, Nat.zero_testBit]
  by_cases hi : 16 ≤ i
  · have hlt : value < 2 ^ i := Nat.lt_of_lt_of_le hvalue (Nat.pow_le_pow_right (by omega) hi)
    rw [Nat.testBit_lt_two_pow hlt, Bool.false_and]
  · simp [hi]

theorem and_low (value : Nat) : value &&& 65535 = value % 65536 :=
  Nat.and_two_pow_sub_one_eq_mod value 16

/-- A sequence without other bits than a value counts blocks. -/
theorem ofSequence_of_lt {sequence : UInt32} (h : sequence.toNat < 2 ^ 16) :
    ofSequence sequence = .ok (blocks sequence.toUInt16) := by
  have hzero : ∀ mask : UInt32, mask.toNat % 2 ^ 16 = 0 → sequence &&& mask = 0 := fun mask hmask =>
    UInt32.toNat_inj.mp (by rw [UInt32.toNat_and, and_eq_zero_of_lt h hmask]; rfl)
  have hvalue : sequence &&& valueMask = sequence := by
    apply UInt32.toNat_inj.mp
    rw [UInt32.toNat_and]
    exact (and_low _).trans (Nat.mod_eq_of_lt h)
  rw [ofSequence, hzero disableFlag rfl, hzero (~~~ (intervalFlag ||| valueMask)) rfl, hzero intervalFlag rfl, hvalue]
  rfl

/-- A sequence with a value and the bit of the unit counts intervals. -/
theorem ofSequence_interval {value : UInt32} (h : value.toNat < 2 ^ 16) :
    ofSequence (intervalFlag ||| value) = .ok (seconds (value * 512)) := by
  have hflag : ∀ mask : UInt32, mask.toNat % 2 ^ 16 = 0 →
      (intervalFlag ||| value) &&& mask = intervalFlag &&& mask := fun mask hmask => by
    apply UInt32.toNat_inj.mp
    rw [UInt32.toNat_and, UInt32.toNat_or, Nat.and_or_distrib_right, and_eq_zero_of_lt h hmask, Nat.or_zero,
      UInt32.toNat_and]
  have hvalue : (intervalFlag ||| value) &&& valueMask = value := by
    apply UInt32.toNat_inj.mp
    rw [UInt32.toNat_and, UInt32.toNat_or, Nat.and_or_distrib_right]
    have hlow : value.toNat &&& valueMask.toNat = value.toNat := (and_low _).trans (Nat.mod_eq_of_lt h)
    have hnone : intervalFlag.toNat &&& valueMask.toNat = 0 := rfl
    rw [hlow, hnone, Nat.zero_or]
  rw [ofSequence, hflag disableFlag rfl, hflag (~~~ (intervalFlag ||| valueMask)) rfl, hflag intervalFlag rfl, hvalue]
  rfl

/-! ## Locks and their sequences -/

/-- The value of a multiple of 512 seconds that sixteen bits can hold. -/
theorem toSequence_seconds {count sequence : UInt32} (h : (seconds count).toSequence = .ok sequence) :
    sequence = intervalFlag ||| (count / 512) ∧ (count / 512).toNat < 2 ^ 16 ∧ count / 512 * 512 = count := by
  rw [toSequence] at h
  split at h
  · cases h
  · next hmultiple =>
    split at h
    · cases h
    · next hshort =>
      cases h
      have hexact : count % 512 = 0 := Decidable.not_not.mp fun hne => hmultiple (.inr hne)
      have hmod : count.toNat % 512 = 0 := congrArg UInt32.toNat hexact
      have hdiv : (count / 512).toNat = count.toNat / 512 := rfl
      refine ⟨rfl, ?_, ?_⟩
      · have hle : (count / 512).toNat ≤ 0xffff := UInt32.le_iff_toNat_le.mp (UInt32.not_lt.mp hshort)
        omega
      · apply UInt32.toNat_inj.mp
        have hlt := count.toNat_lt
        have hunit : (512 : UInt32).toNat = 512 := rfl
        rw [UInt32.toNat_mul, hdiv, hunit]
        omega

/-- A lock is read back from its sequence. -/
theorem ofSequence_toSequence {lock : RelativeLock} {sequence : UInt32}
    (h : lock.toSequence = .ok sequence) : ofSequence sequence = .ok lock := by
  cases lock with
  | blocks count =>
    cases h
    have hlt : count.toUInt32.toNat < 2 ^ 16 := count.toNat_lt
    rw [ofSequence_of_lt hlt]
    exact congrArg (Except.ok ∘ blocks) (UInt16.toUInt16_toUInt32 count)
  | seconds count =>
    obtain ⟨rfl, hshort, hexact⟩ := toSequence_seconds h
    rw [ofSequence_interval hshort, hexact]

theorem toNat_and_valueMask_lt (sequence : UInt32) : (sequence &&& valueMask).toNat < 2 ^ 16 := by
  have hmask : (sequence &&& valueMask).toNat = sequence.toNat % 65536 := (UInt32.toNat_and _ _).trans (and_low _)
  rw [hmask]
  exact Nat.mod_lt _ (by decide)

/-- A sequence without undefined bits is its unit and its value. -/
theorem eq_or_of_defined {sequence : UInt32} (h : sequence &&& ~~~ (intervalFlag ||| valueMask) = 0) :
    sequence = (sequence &&& intervalFlag) ||| (sequence &&& valueMask) := by
  apply UInt32.toNat_inj.mp
  have hundefined : sequence.toNat &&& (~~~ (intervalFlag ||| valueMask)).toNat = 0 := by
    rw [← UInt32.toNat_and, h]
    rfl
  have hall : sequence.toNat &&& 4294967295 = sequence.toNat :=
    (Nat.and_two_pow_sub_one_eq_mod _ 32).trans (Nat.mod_eq_of_lt sequence.toNat_lt)
  have hbits : (4294967295 : Nat) =
      (~~~ (intervalFlag ||| valueMask)).toNat ||| (intervalFlag.toNat ||| valueMask.toNat) := by decide
  rw [hbits, Nat.and_or_distrib_left, Nat.and_or_distrib_left, hundefined, Nat.zero_or] at hall
  rw [UInt32.toNat_or, UInt32.toNat_and, UInt32.toNat_and, hall]

/-- The bit of the unit is set or not. -/
theorem and_intervalFlag (sequence : UInt32) :
    sequence &&& intervalFlag = 0 ∨ sequence &&& intervalFlag = intervalFlag := by
  have hflag : intervalFlag.toNat = 2 ^ 22 := rfl
  have hbit : (sequence &&& intervalFlag).toNat = (sequence.toNat.testBit 22).toNat * 2 ^ 22 := by
    rw [UInt32.toNat_and, hflag, Nat.and_two_pow]
  cases hset : sequence.toNat.testBit 22 with
  | false => exact .inl (UInt32.toNat_inj.mp (by rw [hbit, hset]; rfl))
  | true => exact .inr (UInt32.toNat_inj.mp (by rw [hbit, hset]; rfl))

/-- What is read counts blocks or intervals of 512 seconds, and its sequence holds that number and nothing else. -/
theorem ofSequence_eq_ok {sequence : UInt32} {lock : RelativeLock} (h : ofSequence sequence = .ok lock) :
    (∃ count : UInt16, lock = blocks count ∧ sequence = count.toUInt32) ∨
    (∃ value : UInt32, value.toNat < 2 ^ 16 ∧ lock = seconds (value * 512) ∧ sequence = intervalFlag ||| value) := by
  rw [ofSequence] at h
  split at h
  · cases h
  · split at h
    · cases h
    · next hdefined =>
      have hparts := eq_or_of_defined (Decidable.not_not.mp hdefined)
      have hshort := toNat_and_valueMask_lt sequence
      rw [hparts]
      generalize sequence &&& valueMask = value at h hshort ⊢
      rcases and_intervalFlag sequence with hunit | hunit
      · rw [hunit, if_neg (by simp)] at h
        cases h
        have hcount : value.toUInt16.toUInt32 = value := UInt32.toNat_inj.mp (Nat.mod_eq_of_lt hshort)
        exact .inl ⟨value.toUInt16, rfl, by rw [hunit, UInt32.zero_or, hcount]⟩
      · rw [hunit, if_pos (by decide)] at h
        cases h
        exact .inr ⟨value, hshort, rfl, by rw [hunit]⟩

/-- The number of seconds in a number of intervals. -/
theorem toNat_mul_interval {value : UInt32} (h : value.toNat < 2 ^ 16) : (value * 512).toNat = value.toNat * 512 := by
  have hlt : value.toNat * 512 < 2 ^ 32 := by omega
  exact (UInt32.toNat_mul value 512).trans (Nat.mod_eq_of_lt hlt)

theorem mul_div_interval {value : UInt32} (h : value.toNat < 2 ^ 16) : value * 512 / 512 = value :=
  UInt32.toNat_inj.mp (by
    rw [UInt32.toNat_div, toNat_mul_interval h]
    exact Nat.mul_div_cancel _ (by decide))

/-- No other sequence is read as the same lock. -/
theorem toSequence_ofSequence {sequence enforcing : UInt32} {lock : RelativeLock}
    (hread : ofSequence sequence = .ok lock) (hwritten : lock.toSequence = .ok enforcing) : enforcing = sequence := by
  rcases ofSequence_eq_ok hread with ⟨count, rfl, rfl⟩ | ⟨value, hshort, rfl, rfl⟩
  · cases hwritten
    rfl
  · rw [(toSequence_seconds hwritten).1, mul_div_interval hshort]

/-- A positive number of intervals can be enforced. -/
theorem toSequence_intervals {value : UInt32} (h : value.toNat < 2 ^ 16) (hpos : value ≠ 0) :
    (seconds (value * 512)).toSequence = .ok (intervalFlag ||| value) := by
  have hcount := toNat_mul_interval h
  have hvalue : value.toNat ≠ 0 := fun hzero => hpos (UInt32.toNat_inj.mp hzero)
  have hmultiple : ¬ (value * 512 = 0 ∨ value * 512 % 512 ≠ 0) := by
    rw [not_or, not_not]
    constructor
    · intro hzero
      rw [hzero] at hcount
      have hnone : (0 : UInt32).toNat = 0 := rfl
      omega
    · apply UInt32.toNat_inj.mp
      rw [UInt32.toNat_mod, hcount]
      exact Nat.mul_mod_left _ _
  have hfits : ¬ value > valueMask := by
    rw [gt_iff_lt, UInt32.lt_iff_toNat_lt]
    have hmask : valueMask.toNat = 65535 := rfl
    omega
  rw [toSequence, if_neg hmultiple, mul_div_interval h, if_neg hfits]

/-- What is read can be enforced by the sequence it was read from, except that no sequence enforces zero seconds. -/
theorem toSequence_eq_iff {sequence : UInt32} {lock : RelativeLock} (h : ofSequence sequence = .ok lock) :
    lock.toSequence = .ok sequence ↔ sequence ≠ intervalFlag := by
  rcases ofSequence_eq_ok h with ⟨count, rfl, rfl⟩ | ⟨value, hshort, rfl, rfl⟩
  · refine iff_of_true rfl fun hflag => ?_
    have hlt : count.toUInt32.toNat < 2 ^ 16 := count.toNat_lt
    rw [hflag] at hlt
    exact absurd hlt (by decide)
  · by_cases hzero : value = 0
    · subst hzero
      exact iff_of_false (by decide) (by decide)
    · refine iff_of_true (toSequence_intervals hshort hzero) fun hflag => hzero ?_
      have hread := ofSequence_interval hshort
      rw [hflag] at hread
      have hcount : (0 : UInt32) = value * 512 := seconds.inj (Except.ok.inj hread)
      rw [← mul_div_interval hshort, ← hcount]
      rfl

theorem ofSequence_lt {sequence : UInt32} {lock : RelativeLock} (h : ofSequence sequence = .ok lock) :
    sequence.toNat < 2 ^ 23 := by
  rcases ofSequence_eq_ok h with ⟨count, -, rfl⟩ | ⟨value, hshort, -, rfl⟩
  · have hlt : count.toUInt32.toNat < 2 ^ 16 := count.toNat_lt
    omega
  · rw [UInt32.toNat_or]
    exact Nat.or_lt_two_pow (by decide) (by omega)

end RelativeLock

namespace Delay

theorem ofSequence_sequence (delay : Delay) : RelativeLock.ofSequence delay.sequence = .ok delay.lock :=
  RelativeLock.ofSequence_toSequence delay.enforced

theorem sequence_lt (delay : Delay) : delay.sequence.toNat < 2 ^ 23 :=
  RelativeLock.ofSequence_lt delay.ofSequence_sequence

end Delay

end Vtxo
