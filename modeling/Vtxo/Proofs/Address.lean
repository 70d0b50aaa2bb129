import Vtxo.Address
import Vtxo.Proofs.Encoding.Bech32mText
import Vtxo.Proofs.Success
import Vtxo.Taproot.Commitment

/-!
# Addresses, written and read

An address is written in lower case and is never too long, so it is read back with its label, also when its letters are
all made upper case. Its payload fills its five-bit values exactly. One value more holds five bits that fill no byte, and
these are ignored: besides its own text, an address has 32 texts that are longer by a character.

  1. `parse_eq_ok_iff`: the texts that are read as an address.
  2. `parse_render`, `parse_encode`: an address is read back.
  3. `encode_eq_toLower_iff`: which of the texts of an address is the one that is written.
-/

set_option autoImplicit false

namespace Vtxo.Address

/-! ## Letters -/

/-- The character is no upper-case letter. -/
def IsLower (c : Char) : Prop :=
  ¬ ('A' ≤ c ∧ c ≤ 'Z')

theorem isUpper_iff (c : Char) : ('A' ≤ c ∧ c ≤ 'Z') ↔ 65 ≤ c.toNat ∧ c.toNat ≤ 90 := by
  rw [Char.le_def, Char.le_def, UInt32.le_iff_toNat_le, UInt32.le_iff_toNat_le]
  rfl

theorem isSmallLetter_iff (c : Char) : ('a' ≤ c ∧ c ≤ 'z') ↔ 97 ≤ c.toNat ∧ c.toNat ≤ 122 := by
  rw [Char.le_def, Char.le_def, UInt32.le_iff_toNat_le, UInt32.le_iff_toNat_le]
  rfl

theorem toNat_toLower (c : Char) :
    c.toLower.toNat = if 65 ≤ c.toNat ∧ c.toNat ≤ 90 then c.toNat + 32 else c.toNat := by
  have hrange : (c.val ≥ 'A'.val ∧ c.val ≤ 'Z'.val) ↔ 65 ≤ c.toNat ∧ c.toNat ≤ 90 := isUpper_iff c
  unfold Char.toLower
  split
  · next h =>
    obtain ⟨_, hhigh⟩ := hrange.mp h
    rw [if_pos (hrange.mp h)]
    change (c.val + ('a'.val - 'A'.val)).toNat = _
    rw [UInt32.toNat_add]
    exact Nat.mod_eq_of_lt (Nat.lt_of_le_of_lt (Nat.add_le_add_right hhigh 32) (by decide))
  · next h => rw [if_neg (mt hrange.mpr h)]

theorem toNat_toUpper (c : Char) :
    c.toUpper.toNat = if 97 ≤ c.toNat ∧ c.toNat ≤ 122 then c.toNat - 32 else c.toNat := by
  have hrange : ('a'.val ≤ c.val ∧ c.val ≤ 'z'.val) ↔ 97 ≤ c.toNat ∧ c.toNat ≤ 122 := isSmallLetter_iff c
  unfold Char.toUpper
  split
  · next h =>
    obtain ⟨_, _⟩ := hrange.mp h
    rw [if_pos (hrange.mp h)]
    change (c.val + ('A'.val - 'a'.val)).toNat = _
    have hminus : ('A'.val - 'a'.val).toNat = 2 ^ 32 - 32 := rfl
    have hval : c.val.toNat = c.toNat := rfl
    rw [UInt32.toNat_add, hminus, hval]
    omega
  · next h => rw [if_neg (mt hrange.mpr h)]

theorem lowerChar_eq_toLower (c : Char) : lowerChar c = c.toLower := by
  apply Char.toNat_inj.mp
  rw [toNat_toLower, lowerChar]
  simp only [isUpper_iff]
  split
  · next h =>
    have hvalid : (c.toNat + 32).isValidChar := .inl (by omega)
    rw [Char.ofNat, dif_pos hvalid]
    rfl
  · rfl

theorem toLower_of_isLower {c : Char} (h : IsLower c) : c.toLower = c := by
  apply Char.toNat_inj.mp
  rw [IsLower, isUpper_iff] at h
  rw [toNat_toLower, if_neg h]

theorem toLower_toUpper {c : Char} (h : IsLower c) : c.toUpper.toLower = c := by
  apply Char.toNat_inj.mp
  rw [IsLower, isUpper_iff] at h
  rw [toNat_toLower, toNat_toUpper]
  by_cases hsmall : 97 ≤ c.toNat ∧ c.toNat ≤ 122
  · rw [if_pos hsmall, if_pos (by omega)]
    omega
  · rw [if_neg hsmall, if_neg h]

theorem toList_toLower (text : String) : text.toLower.toList = text.toList.map Char.toLower :=
  String.toList_map

theorem toList_toUpper (text : String) : text.toUpper.toList = text.toList.map Char.toUpper :=
  String.toList_map

theorem isMixedCase_of_lower {text : List Char} (h : ∀ c ∈ text, IsLower c) : isMixedCase text = false := by
  have hupper : (text.any fun c => 'A' ≤ c && c ≤ 'Z') = false := by
    refine List.any_eq_false.mpr fun c hmem => ?_
    have := h c hmem
    simpa [IsLower] using this
  rw [isMixedCase, hupper, Bool.and_false]

theorem isMixedCase_toUpper (text : String) : isMixedCase text.toUpper.toList = false := by
  have hlower : (text.toUpper.toList.any fun c => 'a' ≤ c && c ≤ 'z') = false := by
    refine List.any_eq_false.mpr fun c hmem => ?_
    rw [toList_toUpper] at hmem
    obtain ⟨original, _, rfl⟩ := List.mem_map.mp hmem
    have hsmall : ¬ ('a' ≤ original.toUpper ∧ original.toUpper ≤ 'z') := by
      rw [isSmallLetter_iff, toNat_toUpper]
      split <;> omega
    simpa using hsmall
  rw [isMixedCase, hlower, Bool.false_and]

theorem ofList_map_lowerChar (text : String) : String.ofList (text.toList.map lowerChar) = text.toLower := by
  apply String.toList_injective
  rw [String.toList_ofList, toList_toLower]
  exact List.map_congr_left fun c _ => lowerChar_eq_toLower c

theorem toLower_eq_self {text : String} (h : ∀ c ∈ text.toList, IsLower c) : text.toLower = text := by
  apply String.toList_injective
  rw [toList_toLower]
  exact (List.map_congr_left fun c hmem => toLower_of_isLower (h c hmem)).trans (List.map_id _)

theorem toLower_toUpper_eq_self {text : String} (h : ∀ c ∈ text.toList, IsLower c) : text.toUpper.toLower = text := by
  apply String.toList_injective
  rw [toList_toLower, toList_toUpper, List.map_map]
  exact (List.map_congr_left fun c hmem => toLower_toUpper (h c hmem)).trans (List.map_id _)

theorem length_toLower (text : String) : text.toLower.length = text.length :=
  String.length_map

/-! ## Labels and payloads -/

theorem label_isLower (mainnet : Bool) : ∀ c ∈ (label mainnet).toList, IsLower c := by
  have hall : (label mainnet).toList.all (fun c => !('A' ≤ c && c ≤ 'Z')) = true := by
    cases mainnet <;> decide
  rintro c hmem ⟨hlow, hhigh⟩
  have hchar := List.all_eq_true.mp hall c hmem
  simp [hlow, hhigh] at hchar

theorem isLabel_label (mainnet : Bool) : Bech32m.isLabel (label mainnet).toList = true := by
  cases mainnet <;> decide

theorem length_label_le (mainnet : Bool) : (label mainnet).length ≤ 4 := by
  cases mainnet <;> decide

theorem mainnetOfLabel?_eq_some {text : String} {mainnet : Bool} :
    mainnetOfLabel? text = some mainnet ↔ text = label mainnet := by
  constructor
  · intro h
    rw [mainnetOfLabel?] at h
    split at h
    · next hmain =>
      cases h
      exact hmain
    · split at h
      · next hother =>
        cases h
        exact hother
      · cases h
  · rintro rfl
    cases mainnet <;> decide

theorem length_payload (address : Address) : address.payload.length = 65 := by
  simp [payload, XOnlyKey.length_bytes]

/-- A payload is read as the address that has it, and as no other. -/
theorem ofPayload_eq_ok {bytes : Bytes} {address : Address} :
    ofPayload bytes = .ok address ↔ address.payload = bytes := by
  constructor
  · intro h
    unfold ofPayload at h
    split at h
    · cases h
    · split at h
      · cases h
      · next version keys _ =>
        split at h
        · cases h
        · cases h
        · next server outputKey hserver houtput =>
          cases h
          rw [payload, XOnlyKey.ofBytes?_eq_some.mp hserver, XOnlyKey.ofBytes?_eq_some.mp houtput,
            List.take_append_drop]
  · rintro rfl
    exact ofPayload_payload address

/-! ## Texts -/

/-- The text of an address with one more value in front of the checksum. -/
def renderWith (address : Address) (mainnet : Bool) (extra : Nat) : String :=
  Bech32m.spell (label mainnet) (Bech32m.toFives address.payload ++ [extra])

theorem render_eq_spell (address : Address) (mainnet : Bool) :
    address.render mainnet = Bech32m.spell (label mainnet) (Bech32m.toFives address.payload) :=
  Bech32m.encode_eq_spell _ _

theorem length_toFives_payload (address : Address) : (Bech32m.toFives address.payload).length ≤ 104 := by
  have hfives := Bech32m.length_toFives_le address.payload
  rw [length_payload] at hfives
  omega

theorem length_render_lt (address : Address) (mainnet : Bool) :
    (address.render mainnet).length < Bech32m.maxLength := by
  have hlabel := length_label_le mainnet
  have hfives := length_toFives_payload address
  rw [render_eq_spell, Bech32m.length_spell, Bech32m.maxLength]
  omega

theorem length_renderWith (address : Address) (mainnet : Bool) (extra : Nat) :
    (address.renderWith mainnet extra).length = (address.render mainnet).length + 1 := by
  rw [renderWith, render_eq_spell, Bech32m.length_spell, Bech32m.length_spell, List.length_append,
    List.length_singleton]
  omega

theorem renderWith_ne_render (address : Address) (mainnet : Bool) (extra : Nat) :
    address.renderWith mainnet extra ≠ address.render mainnet := by
  intro hsame
  have hlength := length_renderWith address mainnet extra
  rw [hsame] at hlength
  omega

theorem isLower_spell {mainnet : Bool} {values : List Nat} (h : ∀ v ∈ values, v < 32) :
    ∀ c ∈ (Bech32m.spell (label mainnet) values).toList, IsLower c := by
  intro c hmem
  rw [Bech32m.toList_spell] at hmem
  rcases List.mem_append.mp hmem with hlabel | hrest
  · exact label_isLower mainnet c hlabel
  · rcases List.mem_cons.mp hrest with rfl | hchar
    · unfold IsLower
      decide
    · obtain ⟨v, hv, rfl⟩ := List.mem_map.mp hchar
      exact (Bech32m.alphabet_getD v (List.mem_range.mpr (Bech32m.completed_lt _ h v hv))).2.2

theorem isLower_render (address : Address) (mainnet : Bool) : ∀ c ∈ (address.render mainnet).toList, IsLower c :=
  isLower_spell (Bech32m.groups_lt _)

/-- An address is read if there is no mixture of cases and if label and payload are read from the text in lower case. -/
theorem parse_eq_ok_iff_decode {text : String} {address : Address} {mainnet : Bool} :
    parse text = .ok (address, mainnet) ↔
      isMixedCase text.toList = false ∧ Bech32m.decode text.toLower = .ok (label mainnet, address.payload) := by
  rw [parse, ofList_map_lowerChar]
  constructor
  · intro h
    split at h
    · cases h
    · next hmixed =>
      split at h
      · cases h
      · cases h
      · next found bytes hread =>
        split at h
        · cases h
        · next flag hflag =>
          obtain ⟨_, haddress, hpair⟩ := map_eq_ok.mp h
          cases hpair
          rw [hread, mainnetOfLabel?_eq_some.mp hflag, ofPayload_eq_ok.mp haddress]
          exact ⟨by simpa using hmixed, rfl⟩
  · rintro ⟨hmixed, hread⟩
    have hflag := mainnetOfLabel?_eq_some.mpr (@rfl _ (label mainnet))
    rw [if_neg (by rw [hmixed]; decide), hread]
    simp only
    rw [hflag]
    exact map_eq_ok.mpr ⟨address, ofPayload_payload address, rfl⟩

/-- The texts in lower case that hold the payload of an address. -/
theorem decode_payload_iff {text : String} {address : Address} {mainnet : Bool} :
    Bech32m.decode text = .ok (label mainnet, address.payload) ↔
      text = address.render mainnet ∨ ∃ extra, extra < 32 ∧ text = address.renderWith mainnet extra := by
  have hpayload : address.payload.length % 5 = 0 := by rw [length_payload]
  have hlength := length_render_lt address mainnet
  rw [Bech32m.decode_eq_ok_iff]
  constructor
  · rintro ⟨_, _, values, hvalues, htext, hfives⟩
    rcases (Bech32m.ofFives_eq_iff hvalues hpayload).mp hfives with rfl | ⟨extra, hextra, rfl⟩
    · exact .inl htext
    · exact .inr ⟨extra, hextra, htext⟩
  · rintro (rfl | ⟨extra, hextra, rfl⟩)
    · exact ⟨isLabel_label mainnet, Nat.le_of_lt hlength, _, Bech32m.groups_lt _, rfl, Bech32m.ofFives_toFives _⟩
    · have hvalues : ∀ v ∈ Bech32m.toFives address.payload ++ [extra], v < 32 :=
        List.forall_mem_append.mpr ⟨Bech32m.groups_lt _, List.forall_mem_singleton.mpr hextra⟩
      refine ⟨isLabel_label mainnet, ?_, _, hvalues, rfl,
        (Bech32m.ofFives_eq_iff hvalues hpayload).mpr (.inr ⟨extra, hextra, rfl⟩)⟩
      rw [length_renderWith]
      exact hlength

/-- The texts that are read as an address: its own, and those with one more value, in lower or in upper case. -/
theorem parse_eq_ok_iff {text : String} {address : Address} {mainnet : Bool} :
    parse text = .ok (address, mainnet) ↔
      isMixedCase text.toList = false ∧
        (text.toLower = address.render mainnet ∨
          ∃ extra, extra < 32 ∧ text.toLower = address.renderWith mainnet extra) := by
  rw [parse_eq_ok_iff_decode, decode_payload_iff]

/-- An address is read back, with the chain it was written for. -/
theorem parse_render (address : Address) (mainnet : Bool) :
    parse (address.render mainnet) = .ok (address, mainnet) := by
  have hlower := isLower_render address mainnet
  exact parse_eq_ok_iff.mpr ⟨isMixedCase_of_lower hlower, .inl (toLower_eq_self hlower)⟩

/-- The text of an address has a label that may stand there and is not too long, and the address is read back from it,
in lower and in upper case, with the chain of its network. -/
theorem parse_encode (address : Address) (network : Network) :
    Bech32m.isLabel (label network.isMain).toList = true ∧ (address.encode network).length ≤ Bech32m.maxLength ∧
      parse (address.encode network) = .ok (address, network.isMain) ∧
      parse (address.encode network).toUpper = .ok (address, network.isMain) := by
  have hupper : (address.encode network).toUpper.toLower = address.render network.isMain :=
    toLower_toUpper_eq_self (isLower_render address network.isMain)
  exact ⟨isLabel_label _, Nat.le_of_lt (length_render_lt address _), parse_render address _,
    parse_eq_ok_iff.mpr ⟨isMixedCase_toUpper _, .inl hupper⟩⟩

/-! ## One text of several -/

/-- A text that is read as an address is the one that is written for it, but for the case of its letters, if and only if
it is as long. Any other is one character longer and has one more value in front of its checksum. -/
theorem encode_eq_toLower_iff {text : String} {address : Address} {network : Network}
    (h : parse text = .ok (address, network.isMain)) :
    (address.encode network = text.toLower ↔ text.length = (address.encode network).length) ∧
      (address.encode network ≠ text.toLower ↔
        ∃ extra, extra < 32 ∧ text.toLower = address.renderWith network.isMain extra) := by
  have hother : ∀ extra, text.toLower = address.renderWith network.isMain extra →
      text.length ≠ (address.encode network).length := by
    intro extra htext hlength
    have hlonger := length_renderWith address network.isMain extra
    rw [← htext, length_toLower, hlength, encode] at hlonger
    omega
  have hsame : address.encode network = text.toLower → text.length = (address.encode network).length := by
    intro htext
    rw [htext, length_toLower]
  obtain ⟨_, htext | ⟨extra, hextra, htext⟩⟩ := parse_eq_ok_iff.mp h
  · refine ⟨iff_of_true htext.symm (hsame htext.symm), iff_of_false (not_not_intro htext.symm) ?_⟩
    rintro ⟨extra, _, hlonger⟩
    exact hother extra hlonger (hsame htext.symm)
  · have hne := hother extra htext
    exact ⟨iff_of_false (mt hsame hne) hne, iff_of_true (mt hsame hne) ⟨extra, hextra, htext⟩⟩

/-- An address of which the version and both keys take 104 values, written with 105. -/
def paddedText : String :=
  "tark1qpgf9xm5cxsyj49h3d9kqd0f0f0q0zj6pu5we9k4g7l7axkwsqavq5yjnd6vrgzf2jmckjmqxh5h5hs83fdq728vjm2500lwnt8gqwkqq7g3x3r"

theorem paddedText_eq : paddedText = (ofKeys unspendableKey unspendableKey).renderWith false 0 := by
  apply String.toList_injective
  rw [renderWith, Bech32m.toList_spell]
  decide +kernel

theorem isLower_paddedText : ∀ c ∈ paddedText.toList, IsLower c := by
  rw [paddedText_eq]
  exact isLower_spell (List.forall_mem_append.mpr ⟨Bech32m.groups_lt _, by decide⟩)

theorem parse_paddedText :
    parse paddedText = .ok (ofKeys unspendableKey unspendableKey, Network.signet.isMain) :=
  parse_eq_ok_iff.mpr ⟨isMixedCase_of_lower isLower_paddedText,
    .inr ⟨0, by decide, (toLower_eq_self isLower_paddedText).trans paddedText_eq⟩⟩

theorem encode_eq_toLower_iff_paddedText :
    parse paddedText = .ok (ofKeys unspendableKey unspendableKey, Network.signet.isMain) ∧
      ((ofKeys unspendableKey unspendableKey).encode .signet = paddedText.toLower ↔
        paddedText.length = ((ofKeys unspendableKey unspendableKey).encode .signet).length) ∧
      ((ofKeys unspendableKey unspendableKey).encode .signet ≠ paddedText.toLower ↔
        ∃ extra, extra < 32 ∧
          paddedText.toLower = (ofKeys unspendableKey unspendableKey).renderWith Network.signet.isMain extra) :=
  ⟨parse_paddedText, encode_eq_toLower_iff parse_paddedText⟩

/-- Not every text that is read is the one that is written. -/
theorem not_forall_encode_eq_toLower :
    ¬ ∀ (text : String) (address : Address) (network : Network),
      parse text = .ok (address, network.isMain) → address.encode network = text.toLower := by
  intro hall
  have hsame := hall _ _ .signet parse_paddedText
  rw [toLower_eq_self isLower_paddedText, paddedText_eq] at hsame
  exact renderWith_ne_render _ false 0 hsame.symm

end Vtxo.Address
