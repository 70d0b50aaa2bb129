import Vtxo.Proofs.Encoding.CompactSize
import Vtxo.Psbt.Records

/-!
# Protocol records, written and read

Writing the record of one name does not change what is read under another, because no name begins with another one.
What a witness must hold besides signatures is read back if it is not too long for the reader.

  1. `record?_replace`, `record?_replace_of_ne`: the record of a name, once one was written.
  2. `decodeWitness_encodeWitness`: the elements of a witness.
  3. `condition_setCondition`: what is read back as a condition.
-/

set_option autoImplicit false

namespace Vtxo

namespace SortedMap

variable {κ ν : Type} [ByteKey κ]

/-! ## First entries of a kind -/

theorem find?_insertEntry_of_wanted {wanted : κ → Bool} {key : κ} (value : ν) (hkey : wanted key = true)
    {entries : List (κ × ν)} (h : ∀ entry ∈ entries, wanted entry.1 = false) :
    (insertEntry key value entries).find? (fun entry => wanted entry.1) = some (key, value) := by
  induction entries with
  | nil => simp [insertEntry, hkey]
  | cons first rest ih =>
    obtain ⟨hfirst, hrest⟩ := List.forall_mem_cons.mp h
    rw [insertEntry]
    split
    · simp [hkey]
    · split
      · simp [hfirst, ih hrest]
      · simp [hkey]

theorem find?_insertEntry_of_unwanted {wanted : κ → Bool} {key : κ} (value : ν) (hkey : wanted key = false)
    (entries : List (κ × ν)) :
    (insertEntry key value entries).find? (fun entry => wanted entry.1) =
      entries.find? fun entry => wanted entry.1 := by
  induction entries with
  | nil => simp [insertEntry, hkey]
  | cons first rest ih =>
    rw [insertEntry]
    split
    · simp [hkey]
    · next hbefore =>
      split
      · rw [List.find?_cons, List.find?_cons, ih]
      · next hafter =>
        -- The entry that is replaced has the same key, so it was not wanted either.
        have hsame : key = first.1 := eq_of_not_before hbefore hafter
        simp [hkey, hsame ▸ hkey]

/-- The only entry of a kind, where all others were erased. -/
theorem findKey?_insert_erase (map : SortedMap κ ν) {wanted : κ → Bool} {key : κ} (value : ν)
    (hkey : wanted key = true) : ((map.erase wanted).insert key value).findKey? wanted = some (key, value) := by
  refine find?_insertEntry_of_wanted value hkey fun entry hmem => ?_
  simpa using (List.mem_filter.mp hmem).2

/-- Entries of another kind stay as they were. -/
theorem findKey?_insert_erase_of_disjoint (map : SortedMap κ ν) {dropped wanted : κ → Bool} {key : κ} (value : ν)
    (hkey : wanted key = false) (h : ∀ other, wanted other = true → dropped other = false) :
    ((map.erase dropped).insert key value).findKey? wanted = map.findKey? wanted := by
  refine (find?_insertEntry_of_unwanted value hkey _).trans ?_
  rw [erase, List.find?_filter, findKey?]
  congr 1
  funext entry
  by_cases hwanted : wanted entry.1 = true
  · simp [hwanted, h entry.1 hwanted]
  · simp [hwanted]

end SortedMap

namespace RecordName

theorem isPrefixOf_of_ne {name other : RecordName} (h : name ≠ other) : name.bytes.isPrefixOf other.bytes = false := by
  cases name <;> cases other <;> first | exact absurd rfl h | decide +kernel

/-- A record belongs to one name. -/
theorem owns_disjoint {name other : RecordName} (h : name ≠ other) {key : RecordKey} (howns : name.owns key = true) :
    other.owns key = false := by
  rw [owns, Bool.and_eq_true, List.isPrefixOf_iff_prefix] at howns
  refine Bool.eq_false_iff.mpr fun howns' => ?_
  rw [owns, Bool.and_eq_true, List.isPrefixOf_iff_prefix] at howns'
  -- The shorter one of two names that a record's key begins with begins the longer one.
  rcases List.prefix_or_prefix_of_prefix howns.2 howns'.2 with hprefix | hprefix
  · have hnone := isPrefixOf_of_ne h
    rw [List.isPrefixOf_iff_prefix.mpr hprefix] at hnone
    cases hnone
  · have hnone := isPrefixOf_of_ne h.symm
    rw [List.isPrefixOf_iff_prefix.mpr hprefix] at hnone
    cases hnone

theorem owns_key (name : RecordName) : name.owns name.key = true := by
  simp [owns, key]

end RecordName

/-! ## Witness stacks -/

theorem length_countedBytes (bytes : Bytes) :
    (countedBytes bytes).length = CompactSize.length bytes.length + bytes.length := by
  rw [countedBytes, List.length_append, CompactSize.length_encode]

theorem length_le_flatMap_countedBytes (elements : List Bytes) :
    elements.length ≤ (elements.flatMap countedBytes).length := by
  induction elements with
  | nil => exact Nat.le_refl _
  | cons element rest ih =>
    have hsize := CompactSize.one_le_length element.length
    rw [List.flatMap_cons, List.length_append, length_countedBytes, List.length_cons]
    omega

/-- Elements are read back while the space they ask for is within the limit. -/
theorem decodeElements_countedBytes {space : Nat} (hspace : maxWitnessBytes + space < UInt64.size) (rest : Bytes)
    {elements : List Bytes} {cursor : Nat}
    (h : cursor + (elements.flatMap countedBytes).length ≤ maxWitnessBytes + space) :
    decodeElements space elements.length cursor (elements.flatMap countedBytes ++ rest) = .ok (elements, rest) := by
  induction elements generalizing cursor with
  | nil => rfl
  | cons element others ih =>
    rw [List.flatMap_cons, List.length_append, length_countedBytes] at h
    have hlength : element.length < 2 ^ 64 := by
      have hsize : UInt64.size = 2 ^ 64 := rfl
      omega
    have hrequested : requestedSpace cursor element.length =
        cursor + element.length + CompactSize.length element.length :=
      if_pos (by omega)
    have hsplit : Bytes.splitExact? element.length (element ++ (others.flatMap countedBytes ++ rest)) =
        some (element, others.flatMap countedBytes ++ rest) :=
      Bytes.splitExact?_eq_some.mpr ⟨rfl, rfl⟩
    rw [List.flatMap_cons, countedBytes, List.append_assoc, List.append_assoc, List.length_cons, decodeElements,
      CompactSize.decode_encode hlength]
    simp only
    rw [hrequested, if_neg (by omega), hsplit]
    simp only
    rw [ih (by omega)]
    rfl

theorem decodeWitness_encodeWitness {elements : List Bytes}
    (h : (elements.flatMap countedBytes).length ≤ maxWitnessBytes) :
    decodeWitness (encodeWitness elements) = .ok elements := by
  have hcount : elements.length ≤ maxWitnessBytes := Nat.le_trans (length_le_flatMap_countedBytes elements) h
  have hlimit : elements.length < 2 ^ 64 := Nat.lt_of_le_of_lt hcount (by decide)
  have hspace : maxWitnessBytes + 4 * elements.length < UInt64.size := by
    have hmax : maxWitnessBytes = 4000000 := rfl
    have hsize : UInt64.size = 2 ^ 64 := rfl
    omega
  have helements : decodeElements (4 * elements.length) elements.length (4 * elements.length)
      (elements.flatMap countedBytes ++ []) = .ok (elements, []) :=
    decodeElements_countedBytes hspace [] (by omega)
  rw [List.append_nil] at helements
  rw [encodeWitness, decodeWitness, CompactSize.decode_encode hlimit]
  simp only
  rw [if_neg (Nat.not_lt.mpr hcount), helements]
  rfl

namespace InputMaps

theorem record?_replace (maps : InputMaps) (name : RecordName) (value : Bytes) :
    (maps.replace name value).record? name = some value := by
  rw [record?, replace, SortedMap.findKey?_insert_erase _ _ name.owns_key]
  rfl

theorem record?_replace_of_ne (maps : InputMaps) {name other : RecordName} (h : name ≠ other) (value : Bytes) :
    (maps.replace name value).record? other = maps.record? other := by
  rw [record?, replace, SortedMap.findKey?_insert_erase_of_disjoint]
  · rfl
  · exact RecordName.owns_disjoint h name.owns_key
  · exact fun key howns => RecordName.owns_disjoint h.symm howns

theorem condition_of_record?_none {maps : InputMaps} (h : maps.record? .condition = none) :
    maps.condition = .ok none := by
  rw [condition, h]

/-- A condition is read back if its elements and their lengths are not more than the reader takes. -/
theorem condition_setCondition (maps : InputMaps) {witness : List Bytes}
    (h : (witness.flatMap countedBytes).length ≤ maxWitnessBytes) :
    (maps.setCondition witness).condition = .ok (some witness) := by
  rw [condition, setCondition, record?_replace]
  simp only
  rw [decodeWitness_encodeWitness h]

end InputMaps

end Vtxo
