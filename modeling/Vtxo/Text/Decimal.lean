/-!
# Decimal text

A decimal is an optional sign and one or more ASCII digits. An unsigned reader takes a plus sign only, a
signed one also a minus sign. Leading zeros are allowed, and a value outside the reader's range is refused.

  1. `unsigned?_repr`: the usual decimal form of a number in range is read back.
-/

set_option autoImplicit false

namespace Vtxo.Decimal

/-- The value of a run of ASCII digits, continuing from `value`. -/
def digits? (value : Nat) : List Char → Option Nat
  | [] => some value
  | c :: rest => if c.isDigit then digits? (value * 10 + (c.toNat - 48)) rest else none

/-- The value of one or more digits. -/
def magnitude? : List Char → Option Nat
  | [] => none
  | c :: rest => digits? 0 (c :: rest)

/-- Read an unsigned decimal of at most `largest`. -/
def unsigned? (largest : Nat) (text : String) : Option Nat :=
  let value := match text.toList with
    | '+' :: rest => magnitude? rest
    | chars => magnitude? chars
  value.filter (· ≤ largest)

/-- Read a signed decimal that fits `bits` bits in two's complement. -/
def signed? (bits : Nat) (text : String) : Option Int :=
  let value : Option Int := match text.toList with
    | '+' :: rest => (magnitude? rest).map Int.ofNat
    | '-' :: rest => (magnitude? rest).map fun n => - Int.ofNat n
    | chars => (magnitude? chars).map Int.ofNat
  let limit := Int.ofNat (1 <<< (bits - 1))
  value.filter fun n => decide (-limit ≤ n ∧ n < limit)

/-! ## Reading what is written -/

theorem digits?_append (value : Nat) (a b : List Char) :
    digits? value (a ++ b) = (digits? value a).bind (digits? · b) := by
  induction a generalizing value with
  | nil => rfl
  | cons c rest ih =>
    simp only [List.cons_append, digits?]
    split
    · exact ih _
    · rfl

theorem digitChar_value :
    ∀ d ∈ List.range 10, (Nat.digitChar d).isDigit = true ∧ (Nat.digitChar d).toNat - 48 = d := by
  decide

theorem digits?_singleton {d : Nat} (h : d < 10) (value : Nat) :
    digits? value [Nat.digitChar d] = some (value * 10 + d) := by
  obtain ⟨hdigit, hvalue⟩ := digitChar_value d (List.mem_range.mpr h)
  simp [digits?, hdigit, hvalue]

theorem digits?_toDigits (n : Nat) : digits? 0 (Nat.toDigits 10 n) = some n := by
  induction n using Nat.strongRecOn with
  | ind n ih =>
    by_cases h : n < 10
    · rw [Nat.toDigits_of_lt_base h, digits?_singleton h]
      simp
    · rw [Nat.toDigits_of_base_le (by decide) (by omega), digits?_append, ih (n / 10) (by omega)]
      show digits? (n / 10) [Nat.digitChar (n % 10)] = some n
      rw [digits?_singleton (by omega)]
      congr 1
      omega

theorem toDigits_ne_plus (n : Nat) (rest : List Char) : Nat.toDigits 10 n ≠ '+' :: rest := by
  intro h
  have := digits?_toDigits n
  rw [h] at this
  simp [digits?] at this

theorem unsigned?_repr {n largest : Nat} (h : n ≤ largest) :
    unsigned? largest (toString n) = some n := by
  have hlist : (toString n).toList = Nat.toDigits 10 n := by
    show (Nat.repr n).toList = _
    simp [Nat.repr]
  have hmag : magnitude? (Nat.toDigits 10 n) = some n := by
    have hd := digits?_toDigits n
    match hx : Nat.toDigits 10 n with
    | [] => exact absurd hx (Nat.toDigits_ne_nil)
    | c :: rest => rw [hx] at hd; exact hd
  unfold unsigned?
  rw [hlist]
  split
  · next rest heq => exact absurd heq (toDigits_ne_plus n rest)
  · simp [hmag, h]

end Vtxo.Decimal
