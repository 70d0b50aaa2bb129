import Vtxo.Encoding.CompactSize
import Vtxo.Proofs.Bytes

/-!
# Sizes, written and read

Each size that fits 64 bits is read back, and nothing else is read as it.

  1. `shortest_iff`: what is written is the shortest of the forms that a size has.
  2. `decode_encode`: a size is read back, whatever follows it.
  3. `decode_eq_ok`: nothing but the shortest form is read.
-/

set_option autoImplicit false

namespace Vtxo.CompactSize

/-! ## Forms of a size -/

/-- The forms that a size may have: one byte for a small one, or a marker and a number of two, four or eight bytes. -/
inductive Form (n : Nat) : Bytes → Prop where
  | single (h : n < 0xfd) : Form n [UInt8.ofNat n]
  | two (h : n < 256 ^ 2) : Form n (0xfd :: Bytes.natLE 2 n)
  | four (h : n < 256 ^ 4) : Form n (0xfe :: Bytes.natLE 4 n)
  | eight (h : n < 256 ^ 8) : Form n (0xff :: Bytes.natLE 8 n)

/-- A form than which the size has no shorter one. -/
def Shortest (n : Nat) (form : Bytes) : Prop :=
  Form n form ∧ ∀ other, Form n other → form.length ≤ other.length

theorem Form.lt {n : Nat} {form : Bytes} (h : Form n form) : n < 2 ^ 64 := by
  cases h <;> omega

theorem form_encode {n : Nat} (h : n < 2 ^ 64) : Form n (encode n) := by
  unfold encode
  split
  · next hsmall => exact .single hsmall
  · split
    · next hmedium => exact .two hmedium
    · split
      · next hlarge => exact .four hlarge
      · exact .eight h

theorem one_le_length (n : Nat) : 1 ≤ length n := by
  unfold length
  split
  · decide
  · split
    · decide
    · split <;> decide

theorem length_le_of_form {n : Nat} {form : Bytes} (h : Form n form) : length n ≤ form.length := by
  unfold length
  cases h with
  | single hsmall => rw [if_pos hsmall, List.length_singleton]
  | two hmedium =>
    rw [List.length_cons, Bytes.length_natLE, if_pos (show n < 0x10000 from hmedium)]
    split <;> decide
  | four hlarge =>
    rw [List.length_cons, Bytes.length_natLE, if_pos (show n < 0x100000000 from hlarge)]
    split
    · decide
    · split <;> decide
  | eight =>
    rw [List.length_cons, Bytes.length_natLE]
    split
    · decide
    · split
      · decide
      · split <;> decide

/-- Forms of the same length begin with the same marker. -/
theorem Form.eq_of_length_eq {n : Nat} {form other : Bytes} (h : Form n form) (hother : Form n other)
    (hlength : form.length = other.length) : form = other := by
  cases h <;> cases hother <;> first | rfl | (simp at hlength)

/-- What is written is the shortest form. -/
theorem shortest_iff {n : Nat} {form : Bytes} : Shortest n form ↔ form = encode n ∧ n < 2 ^ 64 := by
  constructor
  · rintro ⟨hform, hleast⟩
    have hwritten := form_encode hform.lt
    have hle : (encode n).length ≤ form.length := length_encode n ▸ length_le_of_form hform
    exact ⟨hform.eq_of_length_eq hwritten (Nat.le_antisymm (hleast _ hwritten) hle), hform.lt⟩
  · rintro ⟨rfl, h⟩
    exact ⟨form_encode h, fun other hother => length_encode n ▸ length_le_of_form hother⟩

/-! ## Reading -/

theorem wide_natLE (width least n : Nat) (rest : Bytes) (hn : n < 256 ^ width) (hleast : least ≤ n) :
    wide width least (Bytes.natLE width n ++ rest) = .ok (n, rest) := by
  have hsplit : Bytes.splitExact? width (Bytes.natLE width n ++ rest) =
      some (Bytes.natLE width n, rest) :=
    Bytes.splitExact?_eq_some.mpr ⟨rfl, Bytes.length_natLE width n⟩
  simp only [wide, hsplit, Bytes.toNatLE_natLE, Nat.mod_eq_of_lt hn]
  rw [if_neg (by omega)]

theorem decode_encode {n : Nat} (h : n < 2 ^ 64) (rest : Bytes) :
    decode (encode n ++ rest) = .ok (n, rest) := by
  unfold encode
  split
  · next hsmall =>
    have hval : (UInt8.ofNat n).toNat = n := by
      rw [UInt8.toNat_ofNat']
      omega
    have hne : ∀ m : UInt8, 0xfd ≤ m.toNat → UInt8.ofNat n ≠ m := by
      rintro m hm rfl
      omega
    simp only [List.singleton_append, decode, hval]
    rw [if_neg (hne _ (by decide)), if_neg (hne _ (by decide)), if_neg (hne _ (by decide))]
  · next hsmall =>
    split
    · next hmedium =>
      rw [List.cons_append, decode, if_neg (by decide), if_neg (by decide), if_pos rfl]
      exact wide_natLE 2 0xfd n rest (by omega) (by omega)
    · next hmedium =>
      split
      · next hlarge =>
        rw [List.cons_append, decode, if_neg (by decide), if_pos rfl]
        exact wide_natLE 4 0x10000 n rest (by omega) (by omega)
      · next hlarge =>
        rw [List.cons_append, decode, if_pos rfl]
        exact wide_natLE 8 0x100000000 n rest (by omega) (by omega)

theorem wide_eq_ok {width least n : Nat} {bytes rest : Bytes}
    (h : wide width least bytes = .ok (n, rest)) :
    bytes = Bytes.natLE width n ++ rest ∧ least ≤ n ∧ n < 256 ^ width := by
  unfold wide at h
  split at h
  · simp at h
  · next field others hsplit =>
    obtain ⟨rfl, hlen⟩ := Bytes.splitExact?_eq_some.mp hsplit
    simp only at h
    split at h
    · simp at h
    · next hle =>
      simp only [Except.ok.injEq, Prod.mk.injEq] at h
      obtain ⟨rfl, rfl⟩ := h
      refine ⟨?_, by omega, ?_⟩
      · rw [← hlen, Bytes.natLE_toNatLE]
      · rw [← hlen]
        exact Bytes.toNatLE_lt field

theorem decode_eq_ok {bytes rest : Bytes} {n : Nat} (h : decode bytes = .ok (n, rest)) :
    bytes = encode n ++ rest ∧ n < 2 ^ 64 := by
  cases bytes with
  | nil => simp [decode] at h
  | cons marker tail =>
    simp only [decode] at h
    unfold encode
    split at h
    · next hm =>
      obtain ⟨rfl, hle, hlt⟩ := wide_eq_ok h
      rw [if_neg (by omega), if_neg (by omega), if_neg (by omega), hm]
      exact ⟨rfl, by omega⟩
    · split at h
      · next hm =>
        obtain ⟨rfl, hle, hlt⟩ := wide_eq_ok h
        rw [if_neg (by omega), if_neg (by omega), if_pos (by omega), hm]
        exact ⟨rfl, by omega⟩
      · split at h
        · next hm =>
          obtain ⟨rfl, hle, hlt⟩ := wide_eq_ok h
          rw [if_neg (by omega), if_pos (by omega), hm]
          exact ⟨rfl, by omega⟩
        · next hff hfe hfd =>
          simp only [Except.ok.injEq, Prod.mk.injEq] at h
          obtain ⟨rfl, rfl⟩ := h
          have hlt : marker.toNat < 256 := marker.toNat_lt
          have hsmall : marker.toNat < 0xfd := by
            have h1 : marker.toNat ≠ 0xff := fun he => hff (UInt8.toNat_inj.mp he)
            have h2 : marker.toNat ≠ 0xfe := fun he => hfe (UInt8.toNat_inj.mp he)
            have h3 : marker.toNat ≠ 0xfd := fun he => hfd (UInt8.toNat_inj.mp he)
            omega
          rw [if_pos hsmall]
          refine ⟨?_, by omega⟩
          simp

end Vtxo.CompactSize
