import Mathlib.Data.List.Induction
import Mathlib.Data.Nat.Digits.Defs
import Vtxo.Encoding.Radix

/-!
# Digit strings in another base

A digit string and the one that it becomes in another base have the same zeros in front, and after them the same number
in as few digits as there can be. No other digit string of that base has both.

  1. `value_eq_ofDigits`: the number of a digit string, by the weights of its digits.
  2. `rebase_eq_iff`: what a digit string becomes.
-/

set_option autoImplicit false

namespace Vtxo.Radix

theorem value_eq_ofDigits (base : Nat) (ds : List Nat) : value base ds = Nat.ofDigits base ds.reverse := by
  induction ds using List.reverseRecOn with
  | nil => rfl
  | append_singleton front last ih =>
    rw [value_append_singleton, List.reverse_append, List.reverse_singleton, List.singleton_append, Nat.ofDigits_cons,
      ih, Nat.mul_comm, Nat.add_comm]

theorem takeWhile_zero_eq_replicate (ds : List Nat) :
    ds.takeWhile (· == 0) = List.replicate (ds.takeWhile (· == 0)).length 0 := by
  refine List.eq_replicate_iff.mpr ⟨rfl, fun d hmem => ?_⟩
  simpa using List.all_eq_true.mp List.all_takeWhile d hmem

/-- As many zeros as before, and the same number in digits that are below the base, the first of which is not zero. -/
theorem rebase_eq_iff {source target : Nat} (ht : 2 ≤ target) {ds es : List Nat} :
    rebase source target ds = es ↔
      ∃ zeros number digits, ds = List.replicate zeros 0 ++ number ∧ es = List.replicate zeros 0 ++ digits ∧
        number.head? ≠ some 0 ∧ digits.head? ≠ some 0 ∧ (∀ d ∈ digits, d < target) ∧
        Nat.ofDigits target digits.reverse = Nat.ofDigits source number.reverse := by
  constructor
  · rintro rfl
    refine ⟨_, ds.dropWhile (· == 0), _, ?_, congrArg (· ++ _) (takeWhile_zero_eq_replicate ds),
      head?_dropWhile_zero ds, head?_digits_ne_zero _, digits_lt _, ?_⟩
    · rw [← takeWhile_zero_eq_replicate, List.takeWhile_append_dropWhile]
    · rw [← value_eq_ofDigits, ← value_eq_ofDigits, value_digits ht]
  · rintro ⟨zeros, number, digits', rfl, rfl, hnumber, hdigits, hlt, hvalue⟩
    obtain ⟨htake, hdrop⟩ := takeWhile_zero_append number hnumber (List.replicate zeros 0)
      fun d hmem => List.eq_of_mem_replicate hmem
    rw [rebase, htake, hdrop, value_eq_ofDigits, ← hvalue, ← value_eq_ofDigits, digits_value ht _ hlt hdigits]

/-- All digits of the new base are below it. -/
theorem rebase_lt {source target : Nat} (ht : 2 ≤ target) (ds : List Nat) : ∀ d ∈ rebase source target ds, d < target := by
  rw [rebase, takeWhile_zero_eq_replicate]
  refine List.forall_mem_append.mpr ⟨fun d hmem => ?_, digits_lt _⟩
  have hd : d = 0 := List.eq_of_mem_replicate hmem
  omega

end Vtxo.Radix
