import Mathlib.Algebra.Ring.Nat
import Vtxo.Amount

/-!
# Sums of amounts

A checked sum is the sum where there is one, and it has no value where a partial sum does not fit 64 bits.

  1. `sum?_eq_some`, `sum?_eq_none`: a list has a sum exactly when it fits.
-/

set_option autoImplicit false

namespace Vtxo.Amount

theorem foldlM_add?_eq_some {start total : Amount} {amounts : List Amount} :
    amounts.foldlM add? start = some total ↔
      start.toNat + (amounts.map toNat).sum = total.toNat := by
  induction amounts generalizing start with
  | nil =>
    simp only [List.foldlM_nil, List.map_nil, List.sum_nil, Nat.add_zero]
    rw [toNat_inj]
    exact ⟨fun h => Option.some.inj h, fun h => congrArg some h⟩
  | cons a rest ih =>
    simp only [List.foldlM_cons, List.map_cons, List.sum_cons]
    cases h : start.add? a with
    | none =>
      have := add?_eq_none.mp h
      have hlt := total.toNat_lt
      simp only [Option.bind_eq_bind, Option.bind_none, reduceCtorEq, false_iff]
      omega
    | some next =>
      have hnext := add?_eq_some.mp h
      simp only [Option.bind_eq_bind, Option.bind_some]
      rw [ih]
      omega

theorem sum?_eq_some {amounts : List Amount} {total : Amount} :
    sum? amounts = some total ↔ (amounts.map toNat).sum = total.toNat := by
  unfold sum?
  rw [foldlM_add?_eq_some]
  have : zero.toNat = 0 := rfl
  omega

theorem sum?_eq_none {amounts : List Amount} : sum? amounts = none ↔ UInt64.size ≤ (amounts.map toNat).sum := by
  constructor
  · intro h
    refine Nat.not_lt.mp fun hfits => ?_
    have hsum : sum? amounts = some (ofNat (amounts.map toNat).sum) := sum?_eq_some.mpr (toNat_ofNat hfits).symm
    rw [h] at hsum
    cases hsum
  · intro h
    cases hsum : sum? amounts with
    | none => rfl
    | some total =>
      rw [sum?_eq_some.mp hsum] at h
      exact absurd total.toNat_lt (Nat.not_lt.mpr h)

end Vtxo.Amount
