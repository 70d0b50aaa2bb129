/-!
# Changing the base of a digit string

A digit string is taken as leading zeros followed by a number, and changing its base keeps the zeros and writes
the number with as few digits as it needs. Changing the base and back is therefore the identity.

  1. `rebase_rebase`: changing the base back gives the digits back.
-/

set_option autoImplicit false

namespace Vtxo.Radix

/-- The number written with the given digits, the most significant first. -/
def value (base : Nat) (digits : List Nat) : Nat :=
  digits.foldl (fun n d => n * base + d) 0

/-- The digits of a number, the most significant first, and none for zero. -/
def digits (base n : Nat) : List Nat :=
  if _h : n = 0 ∨ base < 2 then []
  else digits base (n / base) ++ [n % base]
termination_by n
decreasing_by
  exact Nat.div_lt_self (by omega) (by omega)

/-- A digit string in another base: the same leading zeros, then the number. -/
def rebase (source target : Nat) (ds : List Nat) : List Nat :=
  ds.takeWhile (· == 0) ++ digits target (value source (ds.dropWhile (· == 0)))

/-! ## Numbers and digits -/

theorem value_append_singleton (base : Nat) (ds : List Nat) (d : Nat) :
    value base (ds ++ [d]) = value base ds * base + d := by
  simp [value, List.foldl_append]

theorem value_digits {base : Nat} (hb : 2 ≤ base) (n : Nat) : value base (digits base n) = n := by
  induction n using Nat.strongRecOn with
  | ind n ih =>
    rw [digits]
    split
    · next h =>
      rcases h with rfl | h
      · rfl
      · omega
    · next h =>
      have hlt : n / base < n := Nat.div_lt_self (by omega) (by omega)
      rw [value_append_singleton, ih _ hlt]
      exact Nat.div_add_mod' n base

theorem digits_lt {base : Nat} (n d : Nat) (h : d ∈ digits base n) : d < base := by
  induction n using Nat.strongRecOn with
  | ind n ih =>
    rw [digits] at h
    split at h
    · simp at h
    · next hn =>
      simp only [List.mem_append, List.mem_singleton] at h
      rcases h with h | rfl
      · exact ih _ (Nat.div_lt_self (by omega) (by omega)) h
      · exact Nat.mod_lt _ (by omega)

theorem head?_digits_ne_zero {base : Nat} (n : Nat) : (digits base n).head? ≠ some 0 := by
  induction n using Nat.strongRecOn with
  | ind n ih =>
    rw [digits]
    split
    · simp
    · next hn =>
      have hlt : n / base < n := Nat.div_lt_self (by omega) (by omega)
      have := ih _ hlt
      rw [List.head?_append]
      by_cases hsmall : n < base
      · rw [Nat.div_eq_of_lt hsmall, digits, dif_pos (Or.inl rfl), Nat.mod_eq_of_lt hsmall]
        simp
        omega
      · intro h
        cases hd : (digits base (n / base)).head? with
        | none =>
          have hnil : digits base (n / base) = [] := List.head?_eq_none_iff.mp hd
          have hbase : 2 ≤ base := by omega
          have hval := value_digits hbase (n / base)
          rw [hnil] at hval
          have : 0 < n / base := Nat.div_pos (by omega) (by omega)
          simp [value] at hval
          omega
        | some d =>
          rw [hd] at h this
          simp at h this
          omega

theorem digits_value {base : Nat} (hb : 2 ≤ base) (ds : List Nat) (hlt : ∀ d ∈ ds, d < base)
    (hhead : ds.head? ≠ some 0) : digits base (value base ds) = ds := by
  induction hlen : ds.length generalizing ds with
  | zero =>
    rw [List.eq_nil_of_length_eq_zero hlen]
    show digits base 0 = []
    rw [digits, dif_pos (Or.inl rfl)]
  | succ k ih =>
    obtain ⟨front, last, rfl⟩ : ∃ front last, ds = front ++ [last] := by
      refine ⟨ds.dropLast, ds.getLast (by rintro rfl; simp at hlen), ?_⟩
      exact (List.dropLast_concat_getLast _).symm
    have hfl : front.length = k := by simpa using hlen
    have hlast : last < base := hlt last (by simp)
    rw [value_append_singleton, digits]
    have hmod : (value base front * base + last) % base = last := by
      rw [Nat.mul_comm, Nat.mul_add_mod, Nat.mod_eq_of_lt hlast]
    have hdiv : (value base front * base + last) / base = value base front := by
      rw [Nat.mul_comm, Nat.mul_add_div (by omega), Nat.div_eq_of_lt hlast, Nat.add_zero]
    have hfront : front.head? ≠ some 0 := by
      intro h
      apply hhead
      rw [List.head?_append, h]
      rfl
    have ihf := ih front (fun d hd => hlt d (by simp [hd])) hfront hfl
    rw [hmod, hdiv, ihf]
    split
    · next h =>
      exfalso
      rcases h with h | h
      · rw [Nat.add_eq_zero_iff, Nat.mul_eq_zero] at h
        obtain ⟨hv, rfl⟩ := h
        have hv0 : value base front = 0 := by
          rcases hv with hv | hv
          · exact hv
          · omega
        rw [hv0, digits, dif_pos (Or.inl rfl)] at ihf
        rw [← ihf] at hhead
        simp at hhead
      · omega
    · rfl

/-! ## Changing the base -/

theorem takeWhile_zero_append (ds : List Nat) (h : ds.head? ≠ some 0) (zeros : List Nat)
    (hz : ∀ d ∈ zeros, d = 0) :
    (zeros ++ ds).takeWhile (· == 0) = zeros ∧ (zeros ++ ds).dropWhile (· == 0) = ds := by
  induction zeros with
  | nil =>
    cases ds with
    | nil => simp
    | cons d rest =>
      have hd : d ≠ 0 := by simpa using h
      simp [hd]
  | cons z rest ih =>
    have hz0 : z = 0 := hz z (by simp)
    have := ih (fun d hd => hz d (by simp [hd]))
    simp [hz0, this]

theorem head?_dropWhile_zero (ds : List Nat) : (ds.dropWhile (· == 0)).head? ≠ some 0 := by
  induction ds with
  | nil => simp
  | cons d rest ih =>
    by_cases hd : d = 0
    · simpa [hd] using ih
    · simp [hd]

theorem rebase_rebase {source target : Nat} (hs : 2 ≤ source) (ht : 2 ≤ target) (ds : List Nat)
    (hlt : ∀ d ∈ ds, d < source) : rebase target source (rebase source target ds) = ds := by
  have hz : ∀ d ∈ ds.takeWhile (· == 0), d = 0 := by
    have hall := List.all_takeWhile (l := ds) (p := (· == 0))
    intro d hd
    simpa using List.all_eq_true.mp hall d hd
  obtain ⟨htake, hdrop⟩ := takeWhile_zero_append
    (digits target (value source (ds.dropWhile (· == 0)))) (head?_digits_ne_zero _) _ hz
  rw [rebase]
  simp only [rebase, htake, hdrop]
  rw [value_digits ht, digits_value hs _ _ (head?_dropWhile_zero ds)]
  · exact List.takeWhile_append_dropWhile
  · intro d hd
    exact hlt d ((List.dropWhile_sublist _).subset hd)

end Vtxo.Radix
