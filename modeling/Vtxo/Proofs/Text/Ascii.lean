import Vtxo.Text.Percent

/-!
# ASCII texts

Everything that is written here, digits and escapes alike, is ASCII, where a character and its UTF-8 form have the same
number. So a text that is written is read back code by code.

  1. `Utf8.encode_ofList`: the codes of an ASCII text.
  2. `Hex.decode_encode`: bytes are read back from their digits.
-/

set_option autoImplicit false

namespace Vtxo

/-! ## Codes of characters -/

namespace Utf8

/-- The character with an ASCII code. -/
def asciiChar (code : UInt8) : Char :=
  Char.ofNat code.toNat

theorem toNat_asciiChar {code : UInt8} (h : code < 0x80) : (asciiChar code).toNat = code.toNat := by
  have hlt : code.toNat < 128 := UInt8.lt_iff_toNat_lt.mp h
  have hvalid : code.toNat.isValidChar := .inl (by omega)
  rw [asciiChar, Char.ofNat, dif_pos hvalid]
  rfl

theorem encode_eq_flatMap (chars : List Char) :
    encode (String.ofList chars) = chars.flatMap String.utf8EncodeChar := by
  simp [encode, List.utf8Encode]

theorem utf8EncodeChar_of_lt {c : Char} (h : c.toNat < 128) :
    String.utf8EncodeChar c = [UInt8.ofNat c.toNat] := by
  have hle : c.val.toNat ≤ 0x7f := Nat.lt_succ_iff.mp h
  rw [String.utf8EncodeChar, if_pos hle]
  rfl

/-- The codes of an ASCII text are those of its characters. -/
theorem encode_ofList {chars : List Char} (h : ∀ c ∈ chars, c.toNat < 128) :
    encode (String.ofList chars) = chars.map fun c => UInt8.ofNat c.toNat := by
  rw [encode_eq_flatMap]
  induction chars with
  | nil => rfl
  | cons c rest ih =>
    obtain ⟨hfirst, hrest⟩ := List.forall_mem_cons.mp h
    rw [List.flatMap_cons, utf8EncodeChar_of_lt hfirst, ih hrest]
    rfl

theorem encode_map_asciiChar {codes : Bytes} (h : ∀ code ∈ codes, code < 0x80) :
    encode (String.ofList (codes.map asciiChar)) = codes := by
  have hchars : ∀ c ∈ codes.map asciiChar, c.toNat < 128 := by
    intro _ hmem
    obtain ⟨code, hcode, rfl⟩ := List.mem_map.mp hmem
    rw [toNat_asciiChar (h code hcode)]
    exact UInt8.lt_iff_toNat_lt.mp (h code hcode)
  rw [encode_ofList hchars, List.map_map]
  refine (List.map_congr_left fun code hcode => ?_).trans (List.map_id codes)
  simp [toNat_asciiChar (h code hcode)]

end Utf8

/-! ## Digits -/

namespace Hex

theorem digit_lt : ∀ n ∈ List.range 16, (digit n).toNat < 128 := by
  decide

theorem digitValue?_ofNat {n : Nat} (h : n < 16) :
    digitValue? (UInt8.ofNat (digit n).toNat) = some (UInt8.ofNat n) :=
  digitValue?_digit n (List.mem_range.mpr h)

theorem byteDigits_lt (b : UInt8) : ∀ c ∈ byteDigits b, c.toNat < 128 := by
  have hb : b.toNat < 256 := b.toNat_lt
  simp only [byteDigits, List.mem_cons, List.not_mem_nil, or_false, forall_eq_or_imp, forall_eq]
  exact ⟨digit_lt _ (List.mem_range.mpr (by omega)), digit_lt _ (List.mem_range.mpr (by omega))⟩

theorem sixteens (b : UInt8) : 16 * UInt8.ofNat (b.toNat / 16) + UInt8.ofNat (b.toNat % 16) = b := by
  have hb : b.toNat < 256 := b.toNat_lt
  apply UInt8.toNat_inj.mp
  simp only [UInt8.toNat_add, UInt8.toNat_mul, UInt8.toNat_ofNat', UInt8.reduceToNat]
  omega

/-- The codes of the digits of some bytes. -/
def codes (bytes : Bytes) : Bytes :=
  (bytes.flatMap byteDigits).map fun c => UInt8.ofNat c.toNat

theorem encode_codes (bytes : Bytes) : Utf8.encode (encode bytes) = codes bytes := by
  refine Utf8.encode_ofList fun c hmem => ?_
  obtain ⟨b, _, hc⟩ := List.mem_flatMap.mp hmem
  exact byteDigits_lt b c hc

theorem length_codes (bytes : Bytes) : (codes bytes).length = 2 * bytes.length := by
  induction bytes with
  | nil => rfl
  | cons b rest ih =>
    simp only [codes, List.flatMap_cons, List.map_append, List.length_append, List.length_map] at ih ⊢
    simp only [byteDigits, List.length_cons, List.length_nil] at ih ⊢
    omega

theorem decodePairs_codes (position : Nat) (bytes : Bytes) : decodePairs position (codes bytes) = .ok bytes := by
  induction bytes generalizing position with
  | nil => rfl
  | cons b rest ih =>
    have hb : b.toNat < 256 := b.toNat_lt
    have hcodes : codes (b :: rest) = UInt8.ofNat (digit (b.toNat / 16)).toNat ::
        UInt8.ofNat (digit (b.toNat % 16)).toNat :: codes rest := rfl
    rw [hcodes, decodePairs, digitValue?_ofNat (by omega), digitValue?_ofNat (by omega)]
    simp only
    rw [ih, sixteens]
    rfl

/-- Bytes are read back from their digits. -/
theorem decode_encode (bytes : Bytes) : decode (encode bytes) = .ok bytes := by
  have heven : ¬ (codes bytes).length % 2 = 1 := by
    rw [length_codes]
    omega
  rw [decode, encode_codes, if_neg heven, decodePairs_codes]

end Hex

end Vtxo
