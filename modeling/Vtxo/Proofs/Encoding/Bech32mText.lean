import Mathlib.Data.List.GetD
import Mathlib.Data.List.TakeWhile
import Vtxo.Proofs.Encoding.Bech32m

/-!
# Which texts are read as Bech32m

A text that is read consists of a label, the separator, the characters of some values and those of their checksum.
The label and the values can be chosen, and nothing else: the separator is the last one, each character has one value,
and only one checksum completes the rest. What is read are the bytes that the values hold.

  1. `splitAtLast_eq_some`: the two parts of a text.
  2. `decode_eq_ok_iff`: which texts are read, and as what.
  3. `decode_encode`: a text is read back.
-/

set_option autoImplicit false

namespace Vtxo.Bech32m

/-! ## Characters -/

/-- The character of a value has that value, is no separator and no upper-case letter. -/
theorem alphabet_getD : ∀ v ∈ List.range 32, charValue? (alphabet.getD v 'q') = some v ∧
    alphabet.getD v 'q' ≠ '1' ∧ ¬ ('A' ≤ alphabet.getD v 'q' ∧ alphabet.getD v 'q' ≤ 'Z') := by
  decide

theorem alphabet_getD_of_charValue? {c : Char} {v : Nat} (h : charValue? c = some v) :
    v < 32 ∧ alphabet.getD v 'q' = c := by
  obtain ⟨hlt, hc, _⟩ := List.findIdx?_eq_some_iff_getElem.mp h
  have hlength : alphabet.length = 32 := by decide
  refine ⟨hlength ▸ hlt, ?_⟩
  rw [List.getD_eq_getElem _ _ hlt]
  exact beq_iff_eq.mp hc

/-- The characters of values. -/
def chars (values : List Nat) : List Char :=
  values.map fun v => alphabet.getD v 'q'

theorem mapM_charValue? {values : List Nat} (h : ∀ v ∈ values, v < 32) :
    (chars values).mapM charValue? = some values := by
  induction values with
  | nil => rfl
  | cons v rest ih =>
    obtain ⟨hfirst, hrest⟩ := List.forall_mem_cons.mp h
    have hvalue := (alphabet_getD v (List.mem_range.mpr hfirst)).1
    have hothers := ih hrest
    rw [chars] at hothers ⊢
    rw [List.map_cons, List.mapM_cons, hvalue, hothers]
    rfl

/-- Characters that have values are those of their values. -/
theorem chars_of_mapM {text : List Char} {values : List Nat} (h : text.mapM charValue? = some values) :
    (∀ v ∈ values, v < 32) ∧ chars values = text := by
  induction text generalizing values with
  | nil =>
    cases h
    exact ⟨List.forall_mem_nil _, rfl⟩
  | cons c rest ih =>
    rw [List.mapM_cons] at h
    obtain ⟨v, hv, h⟩ := Option.bind_eq_some_iff.mp h
    obtain ⟨others, hothers, h⟩ := Option.bind_eq_some_iff.mp h
    cases h
    obtain ⟨hlt, hchar⟩ := alphabet_getD_of_charValue? hv
    obtain ⟨hrest, rfl⟩ := ih hothers
    exact ⟨List.forall_mem_cons.mpr ⟨hlt, hrest⟩, congrArg (· :: chars others) hchar⟩

theorem separator_notMem_chars {values : List Nat} (h : ∀ v ∈ values, v < 32) : '1' ∉ chars values := by
  intro hmem
  obtain ⟨v, hv, hchar⟩ := List.mem_map.mp hmem
  exact (alphabet_getD v (List.mem_range.mpr (h v hv))).2.1 hchar

/-! ## The last separator -/

theorem bne_of_mem_reverse {separator : Char} {text : List Char} (h : separator ∉ text) :
    ∀ c ∈ text.reverse, (c != separator) = true := by
  intro c hmem
  have hne : c ≠ separator := fun heq => h (heq ▸ List.mem_reverse.mp hmem)
  simpa using hne

theorem splitAtLast_append {separator : Char} {after : List Char} (h : separator ∉ after) (label : List Char) :
    splitAtLast separator (label ++ separator :: after) = some (label, after) := by
  have hafter : ((label ++ separator :: after).reverse.takeWhile (· != separator)).reverse = after := by
    rw [List.reverse_append, List.reverse_cons, List.append_assoc,
      List.takeWhile_append_of_pos (bne_of_mem_reverse h)]
    simp
  have hlength : ¬ after.length = (label ++ separator :: after).length := by
    rw [List.length_append, List.length_cons]
    omega
  have hlabel : (label ++ separator :: after).length - after.length - 1 = label.length := by
    rw [List.length_append, List.length_cons]
    omega
  rw [splitAtLast]
  simp only [hafter]
  rw [if_neg hlength, hlabel, List.take_left]

theorem splitAtLast_of_notMem {separator : Char} {text : List Char} (h : separator ∉ text) :
    splitAtLast separator text = none := by
  have hall : text.reverse.takeWhile (· != separator) = text.reverse :=
    List.takeWhile_eq_self_iff.mpr (bne_of_mem_reverse h)
  rw [splitAtLast, hall, List.reverse_reverse, if_pos rfl]

/-- A text is what precedes its last separator, the separator and what follows. -/
theorem splitAtLast_eq_some {separator : Char} {text label after : List Char} :
    splitAtLast separator text = some (label, after) ↔ text = label ++ separator :: after ∧ separator ∉ after := by
  constructor
  · intro h
    by_cases hmem : separator ∈ text
    · obtain ⟨back, front, hreverse, hlast⟩ := List.eq_append_cons_of_mem (List.mem_reverse.mpr hmem)
      have htext : text = front.reverse ++ separator :: back.reverse := by
        rw [← List.reverse_reverse text, hreverse]
        simp
      have hafter : separator ∉ back.reverse := fun hback => hlast (List.mem_reverse.mp hback)
      rw [htext, splitAtLast_append hafter] at h
      cases h
      exact ⟨htext, hafter⟩
    · rw [splitAtLast_of_notMem hmem] at h
      cases h
  · rintro ⟨rfl, h⟩
    exact splitAtLast_append h label

/-! ## Whole texts -/

/-- The text of a label and five-bit values, completed by their checksum. -/
def spell (label : String) (values : List Nat) : String :=
  label ++ "1" ++ String.ofList (chars (values ++ checksum label.toList values))

theorem encode_eq_spell (label : String) (bytes : Bytes) : encode label bytes = spell label (toFives bytes) := rfl

theorem toList_spell (label : String) (values : List Nat) :
    (spell label values).toList = label.toList ++ '1' :: chars (values ++ checksum label.toList values) := by
  simp [spell]

theorem length_spell (label : String) (values : List Nat) :
    (spell label values).length = label.length + values.length + 7 := by
  rw [← String.length_toList, toList_spell, List.length_append, List.length_cons, chars, List.length_map,
    List.length_append, length_checksum, String.length_toList]
  omega

theorem completed_lt (label : List Char) {values : List Nat} (h : ∀ v ∈ values, v < 32) :
    ∀ v ∈ values ++ checksum label values, v < 32 :=
  List.forall_mem_append.mpr ⟨h, checksum_lt label values⟩

/-- Values that give the right remainder end in the checksum of those before it. -/
theorem take_append_checksum {label : List Char} {values : List Nat} (hvalues : ∀ v ∈ values, v < 32)
    (hsix : 6 ≤ values.length) (h : polymod (labelValues label ++ values) = residue) :
    values.take (values.length - 6) ++ checksum label (values.take (values.length - 6)) = values := by
  have hparts := List.take_append_drop (values.length - 6) values
  have hlast : values.drop (values.length - 6) = checksum label (values.take (values.length - 6)) := by
    refine eq_checksum (fun v hmem => hvalues v (List.mem_of_mem_drop hmem)) ?_ ?_
    · rw [List.length_drop]
      omega
    · rw [List.append_assoc, hparts, h]
  rw [← hlast, hparts]

/-- The texts that are read are those of a label and values, if the label may stand there and the text is not too long.
They are read as the bytes that the values hold. -/
theorem decode_eq_ok_iff {text label : String} {bytes : Bytes} :
    decode text = .ok (label, bytes) ↔
      isLabel label.toList = true ∧ text.length ≤ maxLength ∧
        ∃ values, (∀ v ∈ values, v < 32) ∧ text = spell label values ∧ ofFives values = bytes := by
  constructor
  · intro h
    rw [decode] at h
    split at h
    · cases h
    · next front after hsplit =>
      split at h
      · cases h
      · next values hvalues =>
        split at h
        · cases h
        · next hlabel =>
          split at h
          · cases h
          · next haccepted =>
            cases h
            obtain ⟨hshort, hsix, hremainder⟩ : text.toList.length ≤ maxLength ∧ 6 ≤ values.length ∧
                polymod (labelValues front ++ values) = residue := by
              simpa [not_or] using haccepted
            obtain ⟨htext, _⟩ := splitAtLast_eq_some.mp hsplit
            obtain ⟨hlt, rfl⟩ := chars_of_mapM hvalues
            refine ⟨by simpa using hlabel, String.length_toList ▸ hshort, values.take (values.length - 6),
              fun v hmem => hlt v (List.mem_of_mem_take hmem), String.toList_injective ?_, rfl⟩
            rw [toList_spell, String.toList_ofList, take_append_checksum hlt hsix hremainder, htext]
  · rintro ⟨hlabel, hlength, values, hvalues, rfl, rfl⟩
    have hcompleted := completed_lt label.toList hvalues
    have hsplit := splitAtLast_append (separator_notMem_chars hcompleted) label.toList
    have hremainder : polymod (labelValues label.toList ++ (values ++ checksum label.toList values)) = residue := by
      rw [← List.append_assoc, polymod_checksum]
    have hsix : (values ++ checksum label.toList values).length - 6 = values.length := by
      rw [List.length_append, length_checksum, Nat.add_sub_cancel]
    have haccepted : ¬ ((spell label values).toList.length > maxLength ∨
        (values ++ checksum label.toList values).length < 6 ∨
        polymod (labelValues label.toList ++ (values ++ checksum label.toList values)) ≠ residue) := by
      rw [hremainder, List.length_append, length_checksum, String.length_toList]
      simp only [ne_eq, not_true_eq_false, or_false]
      omega
    rw [decode, toList_spell, hsplit, ← toList_spell]
    simp only
    rw [mapM_charValue? hcompleted]
    simp only
    rw [if_neg (not_not_intro hlabel), if_neg haccepted, hsix, List.take_left, String.ofList_toList]

/-- A text is read back if its label may stand there and it is not too long. -/
theorem decode_encode {label : String} (hlabel : isLabel label.toList = true) {bytes : Bytes}
    (hlength : (encode label bytes).length ≤ maxLength) : decode (encode label bytes) = .ok (label, bytes) :=
  decode_eq_ok_iff.mpr ⟨hlabel, hlength, toFives bytes, groups_lt _, rfl, ofFives_toFives bytes⟩

end Vtxo.Bech32m
