import Vtxo.Contract.Note
import Vtxo.Proofs.Bytes
import Vtxo.Proofs.Encoding.Base58

/-!
# Notes, written and read

Each note has one payload and each payload one Base58 text, so notes and the texts that are read as notes correspond to
each other.

  1. `ofPayload?_eq_some_iff`: the payload of a note.
  2. `parse_eq_ok_iff`: the text of a note.
  3. `text_bijective`: what this text looks like.
-/

set_option autoImplicit false

namespace Vtxo

namespace Note

/-- The bytes that are read as a note are its payload. -/
theorem ofPayload?_eq_some_iff {bytes : Bytes} {note : Note} : ofPayload? bytes = some note ↔ note.payload = bytes := by
  constructor
  · intro h
    rw [ofPayload?] at h
    split at h
    · next hlength =>
      obtain ⟨preimage, hpreimage, rfl⟩ := Option.map_eq_some_iff.mp h
      have htake : preimage.val = bytes.take 32 := Sized.val_of_ofBytes? hpreimage
      have hwidth : (bytes.drop 32).length = 4 := by rw [List.length_drop, hlength]
      have hlt := Bytes.toNatBE_lt (bytes.drop 32)
      rw [hwidth] at hlt
      rw [payload, htake, UInt32.toNat_ofNat_of_lt' hlt]
      have hvalue := Bytes.natBE_toNatBE (bytes.drop 32)
      rw [hwidth] at hvalue
      rw [hvalue, List.take_append_drop]
    · cases h
  · rintro rfl
    obtain ⟨⟨preimage, hp⟩, value⟩ := note
    have htake : (preimage ++ Bytes.natBE 4 value.toNat).take 32 = preimage := by
      rw [← hp, List.take_left]
    have hdrop : (preimage ++ Bytes.natBE 4 value.toNat).drop 32 = Bytes.natBE 4 value.toNat := by
      rw [← hp, List.drop_left]
    have hvalue : UInt32.ofNat (Bytes.toNatBE (Bytes.natBE 4 value.toNat)) = value := by
      rw [Bytes.toNatBE_natBE, Nat.mod_eq_of_lt (by have := value.toNat_lt; omega)]
      exact UInt32.ofNat_toNat
    simp [ofPayload?, payload, hp, htake, hdrop, hvalue, Sized.ofBytes?]

theorem afterTag?_eq_some_iff {text encoded : List Char} :
    afterTag? text = some encoded ↔ text = tag.toList ++ encoded := by
  have hlength : tag.length = tag.toList.length := String.length_toList.symm
  rw [afterTag?, hlength]
  constructor
  · intro h
    split at h
    · next htag =>
      cases h
      exact (List.take_append_drop _ text).symm.trans (congrArg (· ++ _) htag)
    · cases h
  · rintro rfl
    rw [List.take_left, if_pos rfl, List.drop_left]

theorem toList_render (note : Note) : note.render.toList = tag.toList ++ (Base58.encode note.payload).toList :=
  String.toList_append

/-- The text that is read as a note is its text. -/
theorem parse_eq_ok_iff {text : String} {note : Note} : parse text = .ok note ↔ note.render = text := by
  constructor
  · intro h
    rw [parse] at h
    split at h
    · cases h
    · next encoded htag =>
      split at h
      · cases h
      · next payload hpayload =>
        split at h
        · next found hfound =>
          cases h
          rw [← String.toList_inj, toList_render, ofPayload?_eq_some_iff.mp hfound,
            ← Base58.decode_eq_ok_iff_encode.mp hpayload, afterTag?_eq_some_iff.mp htag]
        · cases h
  · rintro rfl
    rw [parse, afterTag?_eq_some_iff.mpr note.toList_render]
    simp only
    rw [Base58.decode_eq_ok_iff_encode.mpr rfl]
    simp only
    rw [ofPayload?_eq_some_iff.mpr rfl]

theorem parse_render (note : Note) : parse note.render = .ok note :=
  parse_eq_ok_iff.mpr rfl

/-- A note is read back from its text and from no other text, and this text is the tag followed by the one that spells
the preimage and the four bytes of the value. -/
theorem text_bijective (text : String) (note : Note) :
    (parse text = .ok note ↔ note.render = text) ∧
      (note.render = text ↔ ∃ encoded, text.toList = tag.toList ++ encoded ∧
        Base58.Spells (note.preimage.val ++ Bytes.natBE 4 note.value.toNat) encoded) := by
  refine ⟨parse_eq_ok_iff, ?_⟩
  rw [← String.toList_inj, toList_render]
  constructor
  · intro h
    exact ⟨_, h.symm, Base58.decode_eq_ok_iff_spells.mp (Base58.decode_eq_ok_iff_encode.mpr rfl)⟩
  · rintro ⟨encoded, htext, hspells⟩
    rw [htext, Base58.decode_eq_ok_iff_encode.mp (Base58.decode_eq_ok_iff_spells.mpr hspells)]
    rfl

end Note

end Vtxo
