import Vtxo.Encoding.ScriptNumber
import Vtxo.Proofs.Bytes

/-!
# Script numbers, written and read

The form of a number is as long as its magnitude and a sign bit need, and no longer. Scripts read back every number
that fits four bytes; of the others they make nothing.

  1. `isShortest_encode`, `value_encode`: the form of a number is the shortest, and stands for the number.
  2. `decode?_encode`: which numbers are read back.
  3. `encode_of_decode?`, `decode_eq_ok_iff`: what is read has no other form, and which numbers are read.
-/

set_option autoImplicit false

namespace Vtxo

namespace ScriptNumber

/-! ## The width of a number -/

theorem signWeight_eq (width : Nat) : signWeight width = 2 ^ (8 * width - 1) :=
  Nat.one_shiftLeft _

theorem signWeight_succ (width : Nat) : 2 * signWeight (width + 1) = 256 ^ (width + 1) := by
  have hbase : (256 : Nat) = 2 ^ 8 := rfl
  have hexponent : 8 * (width + 1) = (8 * (width + 1) - 1) + 1 := by omega
  rw [signWeight_eq, hbase, ← Nat.pow_mul, hexponent, Nat.pow_succ, Nat.add_sub_cancel]
  omega

theorem signWeight_le_signWeight {a b : Nat} (h : a ≤ b) : signWeight a ≤ signWeight b := by
  rw [signWeight_eq, signWeight_eq]
  exact Nat.pow_le_pow_right (by omega) (by omega)

/-- A magnitude leaves room for the sign bit. -/
theorem lt_signWeight_width (m : Nat) : m < signWeight (width m) := by
  by_cases h : m = 0
  · simp [h, width, signWeight]
  · have hwidth : m.log2 + 1 ≤ 8 * width m - 1 := by
      rw [width, if_neg h]
      omega
    calc m < 2 ^ (m.log2 + 1) := Nat.lt_log2_self
      _ ≤ 2 ^ (8 * width m - 1) := Nat.pow_le_pow_right (by omega) hwidth
      _ = signWeight (width m) := (signWeight_eq _).symm

/-- With one byte less there would be no room for the sign bit. -/
theorem signWeight_le_of_width {m w : Nat} (hw : 0 < w) (h : width m = w + 1) : signWeight w ≤ m := by
  have hm : m ≠ 0 := by
    rintro rfl
    simp [width] at h
  rw [width, if_neg hm] at h
  calc signWeight w = 2 ^ (8 * w - 1) := signWeight_eq w
    _ ≤ 2 ^ m.log2 := Nat.pow_le_pow_right (by omega) (by omega)
    _ ≤ m := Nat.log2_self_le hm

theorem width_le_iff {m w : Nat} (hw : 0 < w) : width m ≤ w ↔ m < signWeight w := by
  constructor
  · intro h
    calc m < signWeight (width m) := lt_signWeight_width m
      _ ≤ signWeight w := signWeight_le_signWeight h
  · intro h
    refine Nat.not_lt.mp fun hlong => ?_
    obtain ⟨v, hv⟩ : ∃ v, width m = v + 1 := ⟨width m - 1, by omega⟩
    have hle : signWeight w ≤ signWeight v := signWeight_le_signWeight (by omega)
    have := signWeight_le_of_width (by omega) hv
    omega

/-! ## The form of a number -/

/-- The number that the bytes of a form hold: the magnitude, and the sign bit above it. -/
def word (n : Int) : Nat :=
  if n < 0 then n.natAbs + signWeight (width n.natAbs) else n.natAbs

theorem encode_eq (n : Int) : encode n = Bytes.natLE (width n.natAbs) (word n) := rfl

theorem word_lt (n : Int) : word n < 256 ^ width n.natAbs := by
  have hlt := lt_signWeight_width n.natAbs
  unfold word
  by_cases h : n.natAbs = 0
  · have hn : n = 0 := by omega
    simp [hn, width]
  · obtain ⟨w, hw⟩ : ∃ w, width n.natAbs = w + 1 := ⟨_, by rw [width, if_neg h]⟩
    have htwice := signWeight_succ w
    rw [hw] at hlt ⊢
    split <;> omega

theorem value_encode (n : Int) : value (encode n) = n := by
  have hlt := lt_signWeight_width n.natAbs
  rw [value, length_encode, encode_eq, Bytes.toNatLE_natLE, Nat.mod_eq_of_lt (word_lt n), word]
  by_cases h : n < 0
  · have hne : Bytes.natLE (width n.natAbs) (word n) ≠ [] := by
      rw [← List.length_pos_iff, Bytes.length_natLE, width, if_neg (by omega)]
      omega
    rw [word] at hne
    simp only [if_pos h] at hne ⊢
    rw [if_pos ⟨hne, by omega⟩, Nat.add_sub_cancel, Int.ofNat_eq_natCast]
    omega
  · simp only [if_neg h]
    rw [if_neg (by omega), Int.ofNat_eq_natCast]
    omega

/-! ## The shortest form -/

theorem and_low_ne_zero_iff (b : UInt8) : (b &&& 0x7f != 0) = true ↔ b.toNat % 128 ≠ 0 := by
  have hmask : (b &&& 0x7f).toNat = b.toNat % 128 := by
    rw [UInt8.toNat_and]
    exact Nat.and_two_pow_sub_one_eq_mod b.toNat 7
  rw [bne_iff_ne, ne_eq, ← UInt8.toNat_inj, hmask]
  rfl

theorem and_high_ne_zero_iff (b : UInt8) : (b &&& 0x80 != 0) = true ↔ 128 ≤ b.toNat := by
  have hmask : ∀ k < 256, k &&& 128 ≠ 0 ↔ 128 ≤ k := by decide +kernel
  rw [bne_iff_ne, ne_eq, ← UInt8.toNat_inj, UInt8.toNat_and]
  exact hmask b.toNat b.toNat_lt

/-- The last byte, in front of which stands another, is needed. -/
theorem isShortest_append (front : Bytes) (next last : UInt8) :
    isShortest (front ++ [next] ++ [last]) = true ↔ last.toNat % 128 ≠ 0 ∨ 128 ≤ next.toNat := by
  simp only [isShortest, List.reverse_append, List.reverse_cons, List.reverse_nil, List.nil_append,
    List.cons_append, Bool.or_eq_true]
  rw [and_low_ne_zero_iff, and_high_ne_zero_iff]

theorem isShortest_encode (n : Int) : isShortest (encode n) = true := by
  have hlt := lt_signWeight_width n.natAbs
  rw [encode_eq]
  match hw : width n.natAbs with
  | 0 => rfl
  | 1 =>
    have hm : n.natAbs ≠ 0 := by
      intro h
      simp [h, width] at hw
    rw [hw] at hlt
    have hone : signWeight 1 = 128 := rfl
    simp only [Bytes.natLE, isShortest, List.reverse_cons, List.reverse_nil, List.nil_append, Bool.or_false]
    rw [and_low_ne_zero_iff, UInt8.toNat_ofNat', word, hw]
    split <;> omega
  | w + 2 =>
    have hmin := signWeight_le_of_width (Nat.succ_pos w) hw
    have hhalf : signWeight (w + 1) = 128 * 256 ^ w := by
      have := signWeight_succ w
      rw [Nat.pow_succ] at this
      omega
    have hwhole : signWeight (w + 2) = 256 ^ w * 32768 := by
      have : 2 * signWeight (w + 2) = 256 ^ (w + 2) := signWeight_succ (w + 1)
      rw [Nat.pow_succ, Nat.pow_succ] at this
      omega
    rw [hw, hwhole] at hlt
    rw [hhalf] at hmin
    -- In units of the next byte's weight, all that follows is about small numbers.
    have hpos : 0 < 256 ^ w := Nat.pow_pos (by omega)
    have hlower : 128 ≤ n.natAbs / 256 ^ w := (Nat.le_div_iff_mul_le hpos).mpr hmin
    have hupper : n.natAbs / 256 ^ w < 32768 := Nat.div_lt_of_lt_mul hlt
    rw [Bytes.natLE_succ_eq_append, Bytes.natLE_succ_eq_append, isShortest_append, UInt8.toNat_ofNat',
      UInt8.toNat_ofNat', Nat.pow_succ, ← Nat.div_div_eq_div_mul, word, hw, hwhole]
    split
    · rw [Nat.add_mul_div_left _ _ hpos]
      generalize n.natAbs / 256 ^ w = digits at hlower hupper ⊢
      omega
    · generalize n.natAbs / 256 ^ w = digits at hlower hupper ⊢
      omega

/-! ## Reading back -/

/-- Exactly the numbers that fit four bytes are read back. -/
theorem decode?_encode (n : Int) :
    decode? (encode n) = if n.natAbs < 2 ^ 31 then some n else none := by
  have hwidth := width_le_iff (m := n.natAbs) (w := 4) (by omega)
  have hlimit : signWeight 4 = 2 ^ 31 := rfl
  rw [hlimit] at hwidth
  rw [decode?, decode, length_encode]
  by_cases h : n.natAbs < 2 ^ 31
  · have hshort : ¬ width n.natAbs > 4 := Nat.not_lt.mpr (hwidth.mpr h)
    rw [if_neg hshort, if_pos (isShortest_encode n), if_pos h, value_encode]
    rfl
  · have hlong : width n.natAbs > 4 := Nat.not_le.mp fun hle => h (hwidth.mp hle)
    rw [if_pos hlong, if_neg h]
    rfl

/-! ## Writing what was read -/

/-- The number of a byte string without the bit of its sign. -/
def magnitude (bytes : Bytes) : Nat :=
  if signWeight bytes.length ≤ bytes.toNatLE then bytes.toNatLE - signWeight bytes.length else bytes.toNatLE

theorem natAbs_value {bytes : Bytes} (h : bytes ≠ []) : (value bytes).natAbs = magnitude bytes := by
  rw [value, magnitude]
  by_cases hsign : signWeight bytes.length ≤ bytes.toNatLE
  · rw [if_pos ⟨h, hsign⟩, if_pos hsign, Int.natAbs_neg]
    exact Int.natAbs_natCast _
  · rw [if_neg (fun hnegative => hsign hnegative.2), if_neg hsign]
    exact Int.natAbs_natCast _

theorem magnitude_singleton (last : UInt8) : magnitude [last] = last.toNat % 128 := by
  have hlt := last.toNat_lt
  have hvalue : Bytes.toNatLE [last] = last.toNat := by simp [Bytes.toNatLE]
  have hsign : signWeight [last].length = 128 := rfl
  rw [magnitude, hvalue, hsign]
  split <;> omega

/-- The last two bytes without the sign. -/
theorem magnitude_append (front : Bytes) (next last : UInt8) :
    magnitude (front ++ [next] ++ [last]) / 256 ^ front.length = next.toNat + 256 * (last.toNat % 128) := by
  have hdigits : Bytes.toNatLE (front ++ [next] ++ [last]) =
      Bytes.toNatLE front + 256 ^ front.length * (next.toNat + 256 * last.toNat) := by
    rw [List.append_assoc, Bytes.toNatLE_append]
    rfl
  have hsign : signWeight (front ++ [next] ++ [last]).length = 256 ^ front.length * 32768 := by
    have hlength : (front ++ [next] ++ [last]).length = front.length + 1 + 1 := by simp
    have := signWeight_succ (front.length + 1)
    rw [Nat.pow_succ, Nat.pow_succ] at this
    rw [hlength]
    omega
  have hfront := Bytes.toNatLE_lt front
  have hnext := next.toNat_lt
  have hlast := last.toNat_lt
  have hpos : 0 < 256 ^ front.length := Nat.pow_pos (by omega)
  have hquotient (digits : Nat) :
      (Bytes.toNatLE front + 256 ^ front.length * digits) / 256 ^ front.length = digits := by
    rw [Nat.add_mul_div_left _ _ hpos, Nat.div_eq_of_lt hfront, Nat.zero_add]
  rw [magnitude, hdigits, hsign, Nat.mul_comm _ 32768]
  split
  · next hsigned =>
    have hle := (Nat.le_div_iff_mul_le hpos).mpr hsigned
    rw [hquotient] at hle
    obtain ⟨digits, hsum⟩ : ∃ digits, next.toNat + 256 * last.toNat = 32768 + digits := Nat.exists_eq_add_of_le hle
    rw [hsum, Nat.mul_add, Nat.mul_comm _ 32768, Nat.add_left_comm, Nat.add_sub_cancel_left, hquotient]
    omega
  · next hplain =>
    have hlt := mt (Nat.le_div_iff_mul_le hpos).mp hplain
    rw [hquotient] at hlt ⊢
    omega

/-- In its shortest form a number is as long as its magnitude needs. -/
theorem width_magnitude {bytes : Bytes} (h : isShortest bytes = true) (hne : bytes ≠ []) :
    width (magnitude bytes) = bytes.length := by
  have hupper : width (magnitude bytes) ≤ bytes.length := by
    have hlength := List.length_pos_iff.mpr hne
    obtain ⟨w, hw⟩ : ∃ w, bytes.length = w + 1 := ⟨bytes.length - 1, by omega⟩
    have hlt := Bytes.toNatLE_lt bytes
    have htwice := signWeight_succ w
    rw [width_le_iff hlength, magnitude]
    rw [hw] at hlt ⊢
    split <;> omega
  refine Nat.le_antisymm hupper ?_
  rcases List.eq_nil_or_concat bytes with rfl | ⟨before, last, rfl⟩
  · exact absurd rfl hne
  · rw [List.concat_eq_append] at h ⊢
    rcases List.eq_nil_or_concat before with rfl | ⟨front, next, rfl⟩
    · have hlast : last.toNat % 128 ≠ 0 := (and_low_ne_zero_iff last).mp (by simpa [isShortest] using h)
      rw [List.nil_append, magnitude_singleton, width, if_neg hlast]
      exact Nat.succ_pos _
    · rw [List.concat_eq_append] at h ⊢
      have hpos : 0 < 256 ^ front.length := Nat.pow_pos (by omega)
      have hhalf : signWeight (front.length + 1) = 128 * 256 ^ front.length := by
        have := signWeight_succ front.length
        rw [Nat.pow_succ] at this
        omega
      have hdigits := magnitude_append front next last
      have hmin : signWeight (front.length + 1) ≤ magnitude (front ++ [next] ++ [last]) := by
        rw [hhalf, ← Nat.le_div_iff_mul_le hpos, hdigits]
        rcases (isShortest_append front next last).mp h with hlast | hnext <;> omega
      have hlong := mt (width_le_iff (Nat.succ_pos front.length)).mp (Nat.not_lt.mpr hmin)
      simp only [List.length_append, List.length_singleton]
      omega

/-- A byte string is the form of the number that is read from it, if it is the shortest. -/
theorem encode_value {bytes : Bytes} (h : isShortest bytes = true) : encode (value bytes) = bytes := by
  by_cases hnil : bytes = []
  · rw [hnil]
    rfl
  · have hwidth := width_magnitude h hnil
    have hzero : magnitude bytes ≠ 0 := fun hzero => hnil (List.length_eq_zero_iff.mp (by rw [← hwidth, hzero]; rfl))
    have hword : word (value bytes) = bytes.toNatLE := by
      rw [word, natAbs_value hnil, hwidth, value]
      rw [magnitude] at hzero ⊢
      by_cases hsign : signWeight bytes.length ≤ bytes.toNatLE
      · simp only [hsign, hnil, ↓reduceIte, ne_eq, not_false_eq_true, and_self] at hzero ⊢
        rw [if_pos (by rw [Int.ofNat_eq_natCast]; omega), Nat.sub_add_cancel hsign]
      · simp only [hsign, ↓reduceIte, and_false]
        rw [if_neg (by rw [Int.ofNat_eq_natCast]; omega)]
    rw [encode_eq, natAbs_value hnil, hwidth, hword, Bytes.natLE_toNatLE]

/-- A number has one form only. -/
theorem encode_of_decode? {bytes : Bytes} {n : Int} (h : decode? bytes = some n) : encode n = bytes := by
  rw [decode?, decode] at h
  split at h
  · cases h
  · split at h
    · next hshortest =>
      cases h
      exact encode_value hshortest
    · cases h

/-- What is read are the shortest forms of numbers that four bytes hold. -/
theorem decode_eq_ok_iff {bytes : Bytes} {n : Int} : decode bytes = .ok n ↔ bytes = encode n ∧ n.natAbs < 2 ^ 31 := by
  have hread : decode bytes = .ok n ↔ decode? bytes = some n := by
    rw [decode?]
    cases decode bytes <;> simp [Except.toOption]
  rw [hread]
  constructor
  · intro h
    have hform := encode_of_decode? h
    rw [← hform, decode?_encode] at h
    refine ⟨hform.symm, ?_⟩
    split at h
    · assumption
    · cases h
  · rintro ⟨rfl, hshort⟩
    rw [decode?_encode, if_pos hshort]

end ScriptNumber

end Vtxo
