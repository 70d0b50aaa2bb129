import Vtxo.Encoding.Base58
import Vtxo.Proofs.Encoding.Radix
import Vtxo.Proofs.Success

/-!
# Base58, written and read

Each byte string has exactly one text, and each text that is read is the text of a byte string: one `1` for each zero
byte in front, and then the number that the other bytes are, in digits that begin with no `1`.

  1. `readDigits_eq_ok_iff`: which texts are digits.
  2. `decode_eq_ok_iff_spells`: which texts are read, and as what.
  3. `decode_eq_ok_iff_encode`: these are the texts that are written.
-/

set_option autoImplicit false

namespace Vtxo.Base58

/-! ## Digits -/

/-- The text of digit values. -/
def spell (digits : List Nat) : List Char :=
  digits.map fun d => alphabet.getD d '1'

/-- The digit of a value is ASCII and has that value. -/
theorem alphabet_getD : ∀ d ∈ List.range 58,
    (alphabet.getD d '1').toNat < 128 ∧ digitValue? (alphabet.getD d '1') = some d := by
  decide

theorem alphabet_getD_of_digitValue? {c : Char} {d : Nat} (h : digitValue? c = some d) : alphabet.getD d '1' = c := by
  obtain ⟨hlt, hfound, _⟩ := List.findIdx?_eq_some_iff_getElem.mp h
  rw [List.getD_eq_getElem?_getD, List.getElem?_eq_getElem hlt]
  exact eq_of_beq hfound

/-- A text is read as digits if it is the text of these digits. -/
theorem readDigits_eq_ok_iff {position : Nat} {text : List Char} {digits : List Nat} :
    readDigits position text = .ok digits ↔ text = spell digits ∧ ∀ d ∈ digits, d < 58 := by
  constructor
  · intro h
    refine ⟨?_, digits_lt h⟩
    induction text generalizing position digits with
    | nil =>
      cases h
      rfl
    | cons c rest ih =>
      rw [readDigits] at h
      split at h
      · split at h
        · next d hd =>
          obtain ⟨others, hothers, hcons⟩ := map_eq_ok.mp h
          cases hcons
          rw [ih hothers, spell, spell, List.map_cons, alphabet_getD_of_digitValue? hd]
        · cases h
      · cases h
  · rintro ⟨rfl, h⟩
    induction digits generalizing position with
    | nil => rfl
    | cons d rest ih =>
      obtain ⟨hfirst, hrest⟩ := List.forall_mem_cons.mp h
      obtain ⟨hascii, hvalue⟩ := alphabet_getD d (List.mem_range.mpr hfirst)
      rw [spell, List.map_cons, readDigits, if_pos hascii, hvalue, ← spell]
      simp only
      rw [ih hrest]
      rfl

/-! ## Bytes -/

theorem map_ofNat_eq_iff {values : List Nat} (h : ∀ v ∈ values, v < 256) {bytes : Bytes} :
    values.map UInt8.ofNat = bytes ↔ values = bytes.map UInt8.toNat := by
  constructor
  · rintro rfl
    rw [List.map_map]
    refine ((List.map_congr_left fun v hmem => ?_).trans (List.map_id values)).symm
    exact UInt8.toNat_ofNat_of_lt' (h v hmem)
  · rintro rfl
    rw [List.map_map]
    exact (List.map_congr_left fun b _ => UInt8.ofNat_toNat).trans (List.map_id bytes)

/-- A text is read as bytes if its digits are those of the bytes in base 58. -/
theorem decode_eq_ok_iff {text : List Char} {bytes : Bytes} :
    decode text = .ok bytes ↔
      ∃ digits, text = spell digits ∧ (∀ d ∈ digits, d < 58) ∧ Radix.rebase 58 256 digits = bytes.map UInt8.toNat := by
  rw [decode, map_eq_ok]
  constructor
  · rintro ⟨digits, hdigits, hbytes⟩
    obtain ⟨htext, hlt⟩ := readDigits_eq_ok_iff.mp hdigits
    exact ⟨digits, htext, hlt, (map_ofNat_eq_iff (Radix.rebase_lt (by omega) digits)).mp hbytes⟩
  · rintro ⟨digits, htext, hlt, hbytes⟩
    exact ⟨digits, readDigits_eq_ok_iff.mpr ⟨htext, hlt⟩,
      (map_ofNat_eq_iff (Radix.rebase_lt (by omega) digits)).mpr hbytes⟩

/-- The texts that are read are those that are written. -/
theorem decode_eq_ok_iff_encode {text : List Char} {bytes : Bytes} :
    decode text = .ok bytes ↔ text = (encode bytes).toList := by
  have hbytes : ∀ v ∈ bytes.map UInt8.toNat, v < 256 := List.forall_mem_map.mpr fun b _ => b.toNat_lt
  rw [decode_eq_ok_iff, encode, String.toList_ofList]
  constructor
  · rintro ⟨digits, rfl, hlt, hrebased⟩
    rw [← hrebased, Radix.rebase_rebase (by omega) (by omega) digits hlt]
    rfl
  · rintro rfl
    exact ⟨_, rfl, Radix.rebase_lt (by omega) _, Radix.rebase_rebase (by omega) (by omega) _ hbytes⟩

/-- A text spells a byte string: a one for each zero byte in front, then the number that the other bytes are, as digits
of which the first is not a one. -/
inductive Spells : Bytes → List Char → Prop where
  | intro (zeros : Nat) {number : Bytes} {digits : List Nat} (hnumber : number.head? ≠ some 0)
      (hdigits : digits.head? ≠ some 0) (hlt : ∀ d ∈ digits, d < 58)
      (hvalue : Nat.ofDigits 58 digits.reverse = Nat.ofDigits 256 (number.map UInt8.toNat).reverse) :
      Spells (List.replicate zeros 0 ++ number) (List.replicate zeros '1' ++ spell digits)

theorem spell_replicate_append (zeros : Nat) (digits : List Nat) :
    spell (List.replicate zeros 0 ++ digits) = List.replicate zeros '1' ++ spell digits := by
  rw [spell, List.map_append, List.map_replicate]
  rfl

theorem head?_map_toNat (bytes : Bytes) : (bytes.map UInt8.toNat).head? = some 0 ↔ bytes.head? = some 0 := by
  cases bytes with
  | nil => simp
  | cons b rest =>
    simp only [List.map_cons, List.head?_cons, Option.some.injEq]
    exact UInt8.toNat_inj (b := 0)

theorem map_toNat_eq_replicate_append {bytes : Bytes} {zeros : Nat} {values : List Nat}
    (h : bytes.map UInt8.toNat = List.replicate zeros 0 ++ values) :
    ∃ number : Bytes, bytes = List.replicate zeros 0 ++ number ∧ values = number.map UInt8.toNat := by
  obtain ⟨front, number, rfl, hfront, rfl⟩ := List.map_eq_append_iff.mp h
  refine ⟨number, ?_, rfl⟩
  obtain ⟨hlength, hzero⟩ := List.eq_replicate_iff.mp hfront
  rw [List.length_map] at hlength
  congr 1
  refine List.eq_replicate_iff.mpr ⟨hlength, fun b hmem => ?_⟩
  exact UInt8.toNat_inj.mp (hzero _ (List.mem_map_of_mem hmem))

/-- The texts that are read are those that spell bytes. -/
theorem decode_eq_ok_iff_spells {text : List Char} {bytes : Bytes} : decode text = .ok bytes ↔ Spells bytes text := by
  rw [decode_eq_ok_iff]
  constructor
  · rintro ⟨digits, rfl, hlt, hrebased⟩
    obtain ⟨zeros, digits, values, rfl, hbytes, hdigits, hvalues, _, hvalue⟩ :=
      (Radix.rebase_eq_iff (by omega)).mp hrebased
    obtain ⟨number, rfl, rfl⟩ := map_toNat_eq_replicate_append hbytes
    rw [spell_replicate_append]
    exact .intro zeros (fun hzero => hvalues ((head?_map_toNat number).mpr hzero)) hdigits
      (fun d hmem => hlt d (List.mem_append_right _ hmem)) hvalue.symm
  · rintro ⟨zeros, hnumber, hdigits, hlt, hvalue⟩
    refine ⟨_, (spell_replicate_append zeros _).symm, ?_, (Radix.rebase_eq_iff (by omega)).mpr
      ⟨zeros, _, _, rfl, ?_, hdigits, fun hzero => hnumber ((head?_map_toNat _).mp hzero), ?_, hvalue.symm⟩⟩
    · refine List.forall_mem_append.mpr ⟨fun d hmem => ?_, hlt⟩
      rw [List.eq_of_mem_replicate hmem]
      decide
    · rw [List.map_append, List.map_replicate]
      rfl
    · exact List.forall_mem_map.mpr fun b _ => b.toNat_lt

end Vtxo.Base58
