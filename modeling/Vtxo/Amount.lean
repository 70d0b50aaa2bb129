/-!
# Amounts

An amount is a number of satoshi that fits 64 bits. Sums are checked: a sum that does not fit has no value.
Errors show amounts in whole coins of 10^8 satoshi.

  1. `add?_eq_some`: a sum exists exactly when it fits, and is then the sum.
-/

set_option autoImplicit false

namespace Vtxo

/-- A number of satoshi. -/
structure Amount where
  sat : UInt64
deriving DecidableEq

namespace Amount

/-- The number of satoshi as a natural number. -/
def toNat (a : Amount) : Nat :=
  a.sat.toNat

/-- The amount of `n` satoshi, for `n` below 2^64. -/
def ofNat (n : Nat) : Amount :=
  ⟨UInt64.ofNat n⟩

theorem toNat_lt (a : Amount) : a.toNat < UInt64.size :=
  a.sat.toNat_lt

theorem toNat_ofNat {n : Nat} (h : n < UInt64.size) : (ofNat n).toNat = n := by
  simp only [ofNat, toNat, UInt64.toNat_ofNat']
  exact Nat.mod_eq_of_lt h

theorem toNat_inj {a b : Amount} : a.toNat = b.toNat ↔ a = b := by
  constructor
  · intro h
    cases a
    cases b
    exact congrArg Amount.mk (UInt64.toNat_inj.mp h)
  · rintro rfl
    rfl

def zero : Amount := ⟨0⟩

instance : LT Amount := ⟨fun a b => a.toNat < b.toNat⟩
instance : LE Amount := ⟨fun a b => a.toNat ≤ b.toNat⟩
instance (a b : Amount) : Decidable (a < b) := inferInstanceAs (Decidable (a.toNat < b.toNat))
instance (a b : Amount) : Decidable (a ≤ b) := inferInstanceAs (Decidable (a.toNat ≤ b.toNat))

theorem lt_iff {a b : Amount} : a < b ↔ a.toNat < b.toNat := Iff.rfl
theorem le_iff {a b : Amount} : a ≤ b ↔ a.toNat ≤ b.toNat := Iff.rfl

/-- All the coin there will ever be: 21 million whole coins. -/
def maxMoney : Amount := ⟨2100000000000000⟩

/-! ## Checked arithmetic -/

/-- The sum, if it fits 64 bits. -/
def add? (a b : Amount) : Option Amount :=
  if a.toNat + b.toNat < UInt64.size then some (ofNat (a.toNat + b.toNat)) else none

/-- The difference, if it is not negative. -/
def sub? (a b : Amount) : Option Amount :=
  if b.toNat ≤ a.toNat then some (ofNat (a.toNat - b.toNat)) else none

/-- The sum of a list, if no partial sum exceeds 64 bits. -/
def sum? (amounts : List Amount) : Option Amount :=
  amounts.foldlM add? zero

theorem add?_eq_some {a b c : Amount} : a.add? b = some c ↔ a.toNat + b.toNat = c.toNat := by
  unfold add?
  constructor
  · intro h
    split at h
    · next hfit =>
      rw [← Option.some.inj h, toNat_ofNat hfit]
    · simp at h
  · intro h
    have hfit : a.toNat + b.toNat < UInt64.size := h ▸ c.toNat_lt
    rw [if_pos hfit]
    exact congrArg some (toNat_inj.mp (by rw [toNat_ofNat hfit, h]))

theorem add?_eq_none {a b : Amount} : a.add? b = none ↔ UInt64.size ≤ a.toNat + b.toNat := by
  unfold add?
  split <;> simp <;> omega

theorem sub?_eq_some {a b c : Amount} : a.sub? b = some c ↔ a.toNat = b.toNat + c.toNat := by
  have hlt := a.toNat_lt
  unfold sub?
  constructor
  · intro h
    split at h
    · next hle =>
      rw [← Option.some.inj h, toNat_ofNat (by omega)]
      omega
    · simp at h
  · intro h
    rw [if_pos (by omega)]
    exact congrArg some (toNat_inj.mp (by rw [toNat_ofNat (by omega)]; omega))

/-! ## Text -/

/-- The low eight decimal places of `n`. -/
def eightPlaces (n : Nat) : String :=
  let digits := toString (n % 100000000)
  String.ofList (List.replicate (8 - digits.length) '0') ++ digits

/-- The amount in whole coins: without decimals if it is whole, else with eight of them. -/
def render (a : Amount) : String :=
  let whole := toString (a.toNat / 100000000)
  if a.toNat % 100000000 = 0 then whole ++ " BTC"
  else whole ++ "." ++ eightPlaces a.toNat ++ " BTC"

end Amount

end Vtxo
