import Vtxo.Proofs.Encoding.CompactSize
import Vtxo.Proofs.Success
import Vtxo.Taproot.ScriptList

/-!
# Script lists, written and read

Each record says where it ends, so scripts are read back one by one, as long as no one of them is longer than the reader
takes. Nothing but a sequence of records is read, and of a record everything but the depth is fixed.

  1. `decodeRecord_append`, `decode_eq_ok_cons_iff`: the first record of an input, and what is read after it.
  2. `decode_encode`: all records.
  3. `decodeRecord_eq_ok_iff`, `decode_eq_ok_iff`: what is read as a record, and what as a list of them.
  4. `exists_reads`: reading ends, whatever the input is.
  5. `decode_exactly_records`: all of this together.
-/

set_option autoImplicit false

namespace Vtxo.ScriptList

/-- The script and its length are not more than the reader takes. -/
def Fits (script : Bytes) : Prop :=
  CompactSize.length script.length + script.length ≤ maxScriptBytes

theorem fits_of_length {script : Bytes} (h : script.length < 3999995) : Fits script := by
  unfold Fits CompactSize.length maxScriptBytes
  split
  · omega
  · split
    · omega
    · split <;> omega

theorem length_lt_of_fits {script : Bytes} (h : Fits script) : script.length < 2 ^ 64 := by
  unfold Fits maxScriptBytes at h
  omega

theorem decodeScript_append {script : Bytes} (h : Fits script) (rest : Bytes) :
    decodeScript (CompactSize.encode script.length ++ script ++ rest) = .ok (script, rest) := by
  have hlimit := length_lt_of_fits h
  have hsplit : Bytes.splitExact? script.length (script ++ rest) = some (script, rest) :=
    Bytes.splitExact?_eq_some.mpr ⟨rfl, rfl⟩
  rw [List.append_assoc, decodeScript, CompactSize.decode_encode hlimit]
  simp only
  rw [if_neg (Nat.not_lt.mpr h), hsplit]

theorem decodeRecord_append {script : Bytes} (h : Fits script) (rest : Bytes) :
    decodeRecord (encodeRecord script ++ rest) = .ok (script, rest) := by
  rw [encodeRecord, List.cons_append, List.cons_append, decodeRecord, if_neg fun hne => hne rfl,
    decodeScript_append h]

theorem decode_eq_ok_nil_iff {bytes : Bytes} : decode bytes = .ok [] ↔ bytes = [] := by
  rw [decode]
  constructor
  · intro h
    split at h
    · next hempty => exact List.isEmpty_iff.mp hempty
    · split at h
      · cases h
      · obtain ⟨_, _, hcons⟩ := map_eq_ok.mp h
        cases hcons
  · rintro rfl
    rfl

theorem decode_eq_ok_cons_iff {bytes script : Bytes} {scripts : List Bytes} :
    decode bytes = .ok (script :: scripts) ↔
      ∃ rest, decodeRecord bytes = .ok (script, rest) ∧ decode rest = .ok scripts := by
  rw [decode]
  constructor
  · intro h
    split at h
    · cases h
    · split at h
      · cases h
      · next found rest hfound =>
        obtain ⟨others, hothers, hcons⟩ := map_eq_ok.mp h
        cases hcons
        exact ⟨rest, hfound, hothers⟩
  · rintro ⟨rest, hfirst, hrest⟩
    have hnonempty : ¬ bytes.isEmpty = true := by
      intro hempty
      rw [List.isEmpty_iff.mp hempty] at hfirst
      cases hfirst
    rw [if_neg hnonempty]
    split
    · next error herror =>
      rw [hfirst] at herror
      cases herror
    · next found others hfound =>
      rw [hfirst] at hfound
      cases hfound
      rw [hrest]
      rfl

/-- Scripts are read back from their records. -/
theorem decode_encode {scripts : List Bytes} (h : ∀ script ∈ scripts, Fits script) :
    decode (encode scripts) = .ok scripts := by
  induction scripts with
  | nil => exact decode_eq_ok_nil_iff.mpr rfl
  | cons script rest ih =>
    obtain ⟨hfirst, hrest⟩ := List.forall_mem_cons.mp h
    rw [encode, List.flatMap_cons, ← encode]
    exact decode_eq_ok_cons_iff.mpr ⟨encode rest, decodeRecord_append hfirst _, ih hrest⟩

/-! ## Records -/

/-- Any depth, the leaf version, the length of a script in its shortest form, and the script. -/
structure Record where
  depth : UInt8
  size : Bytes
  script : Bytes
  shortest : CompactSize.Shortest script.length size

namespace Record

def bytes (record : Record) : Bytes :=
  record.depth :: leafVersion :: (record.size ++ record.script)

/-- The same record with another depth. -/
def withDepth (record : Record) (depth : UInt8) : Record :=
  { record with depth }

theorem size_eq (record : Record) : record.size = CompactSize.encode record.script.length :=
  (CompactSize.shortest_iff.mp record.shortest).1

theorem bytes_withDepth (record : Record) : (record.withDepth recordDepth).bytes = encodeRecord record.script := by
  rw [encodeRecord, ← record.size_eq]
  rfl

theorem length_bytes (record : Record) :
    record.bytes.length = 2 + CompactSize.length record.script.length + record.script.length := by
  rw [bytes, List.length_cons, List.length_cons, List.length_append, record.size_eq, CompactSize.length_encode]
  omega

/-- The record of a script with a depth. -/
theorem exists_record (depth : UInt8) {script : Bytes} (h : script.length < 2 ^ 64) :
    ∃ record : Record, record.script = script ∧
      record.bytes = depth :: leafVersion :: (CompactSize.encode script.length ++ script) :=
  ⟨⟨depth, _, script, CompactSize.shortest_iff.mpr ⟨rfl, h⟩⟩, rfl, rfl⟩

end Record

/-- The records one after the other. -/
def joined (records : List Record) : Bytes :=
  records.flatMap Record.bytes

theorem joined_withDepth (records : List Record) :
    joined (records.map fun record => record.withDepth recordDepth) = encode (records.map Record.script) := by
  rw [joined, encode, List.flatMap_map, List.flatMap_map]
  exact List.flatMap_congr fun record _ => record.bytes_withDepth

/-! ## What is read -/

theorem decodeScript_eq_ok_iff {bytes script rest : Bytes} :
    decodeScript bytes = .ok (script, rest) ↔
      bytes = CompactSize.encode script.length ++ script ++ rest ∧ Fits script := by
  refine ⟨fun h => ?_, fun ⟨hbytes, hfits⟩ => hbytes ▸ decodeScript_append hfits rest⟩
  rw [decodeScript] at h
  split at h
  · cases h
  · next n tail hsize =>
    split at h
    · cases h
    · next hlimit =>
      split at h
      · next split hsplit =>
        cases h
        obtain ⟨rfl, rfl⟩ := Bytes.splitExact?_eq_some.mp hsplit
        obtain ⟨rfl, _⟩ := CompactSize.decode_eq_ok hsize
        exact ⟨(List.append_assoc _ _ _).symm, Nat.not_lt.mp hlimit⟩
      · cases h

/-- What is read first is a record with any depth. -/
theorem decodeRecord_eq_ok_iff {bytes script rest : Bytes} :
    decodeRecord bytes = .ok (script, rest) ↔
      (∃ record : Record, record.script = script ∧ bytes = record.bytes ++ rest) ∧ Fits script := by
  constructor
  · intro h
    unfold decodeRecord at h
    split at h
    · next depth version tail =>
      split at h
      · cases h
      · next hversion =>
        split at h
        · next split hscript =>
          cases h
          obtain ⟨rfl, hfits⟩ := decodeScript_eq_ok_iff.mp hscript
          obtain ⟨record, hrecord, hbytes⟩ := Record.exists_record depth (length_lt_of_fits hfits)
          refine ⟨⟨record, hrecord, ?_⟩, hfits⟩
          rw [hbytes, Decidable.not_not.mp hversion]
          rfl
        · cases h
    · cases h
  · rintro ⟨⟨record, rfl, rfl⟩, hfits⟩
    rw [Record.bytes, record.size_eq, List.cons_append, List.cons_append, decodeRecord, if_neg fun hne => hne rfl,
      decodeScript_append hfits]

/-- A list is read from the records of its scripts, if the reader takes each of them. -/
theorem decode_eq_ok_iff {bytes : Bytes} {scripts : List Bytes} :
    decode bytes = .ok scripts ↔
      (∃ records, joined records = bytes ∧ records.map Record.script = scripts) ∧ ∀ script ∈ scripts, Fits script := by
  induction scripts generalizing bytes with
  | nil =>
    rw [decode_eq_ok_nil_iff]
    constructor
    · rintro rfl
      exact ⟨⟨[], rfl, rfl⟩, List.forall_mem_nil _⟩
    · rintro ⟨⟨records, rfl, hscripts⟩, _⟩
      rw [List.map_eq_nil_iff.mp hscripts]
      rfl
  | cons script scripts ih =>
    rw [decode_eq_ok_cons_iff, List.forall_mem_cons]
    constructor
    · rintro ⟨rest, hfirst, hrest⟩
      obtain ⟨⟨record, rfl, rfl⟩, hfits⟩ := decodeRecord_eq_ok_iff.mp hfirst
      obtain ⟨⟨records, rfl, rfl⟩, hothers⟩ := ih.mp hrest
      exact ⟨⟨record :: records, rfl, rfl⟩, hfits, hothers⟩
    · rintro ⟨⟨records, rfl, hscripts⟩, hfits, hothers⟩
      obtain ⟨record, others, rfl, rfl, rfl⟩ := List.map_eq_cons_iff.mp hscripts
      exact ⟨joined others, decodeRecord_eq_ok_iff.mpr ⟨⟨record, rfl, rfl⟩, hfits⟩,
        ih.mpr ⟨⟨others, rfl, rfl⟩, hothers⟩⟩

/-! ## Short inputs -/

theorem length_joined (records : List Record) :
    (joined records).length = (encode (records.map Record.script)).length := by
  rw [← joined_withDepth, joined, joined, List.flatMap_map, List.length_flatMap, List.length_flatMap]
  rfl

/-- The scripts of a short list are short enough for the reader. -/
theorem fits_of_encode {scripts : List Bytes} (h : (encode scripts).length < 3999995) :
    ∀ script ∈ scripts, Fits script := by
  intro script hmem
  have hle : (encodeRecord script).length ≤ (encode scripts).length := by
    rw [encode, List.flatMap_def]
    exact (List.sublist_flatten_of_mem (List.mem_map_of_mem hmem)).length_le
  rw [encodeRecord, List.length_cons, List.length_cons, List.length_append] at hle
  exact fits_of_length (by omega)

theorem encode_inj {scripts others : List Bytes} (h : (encode scripts).length < 3999995)
    (heq : encode scripts = encode others) : scripts = others := by
  have hread := decode_encode (fits_of_encode h)
  have hothers := decode_encode (fits_of_encode (heq ▸ h))
  rw [heq, hothers] at hread
  exact (Except.ok.inj hread).symm

/-! ## Reading ends -/

/-- The records of some scripts are read one by one from the front of an input, and the rest is left. -/
inductive Reads : Bytes → List Bytes → Bytes → Prop where
  | done (bytes : Bytes) : Reads bytes [] bytes
  | record {bytes script rest left : Bytes} {scripts : List Bytes} (hfirst : decodeRecord bytes = .ok (script, rest))
      (hrest : Reads rest scripts left) : Reads bytes (script :: scripts) left

/-- Every record takes a depth, a version and a length at least. -/
theorem Reads.length_le {bytes left : Bytes} {scripts : List Bytes} (h : Reads bytes scripts left) :
    3 * scripts.length + left.length ≤ bytes.length := by
  induction h with
  | done => simp
  | record hfirst _ ih =>
    obtain ⟨⟨record, rfl, rfl⟩, _⟩ := decodeRecord_eq_ok_iff.mp hfirst
    have hsize := CompactSize.one_le_length record.script.length
    rw [List.length_append, record.length_bytes, List.length_cons]
    omega

/-- Records are read until nothing is left or no record can be read, and that is what reading comes to. -/
theorem exists_reads (bytes : Bytes) :
    ∃ scripts left, Reads bytes scripts left ∧
      ((left = [] ∧ decode bytes = .ok scripts) ∨
        left ≠ [] ∧ ∃ error, decodeRecord left = .error error ∧ decode bytes = .error error) := by
  fun_induction decode bytes with
  | case1 bytes hempty => exact ⟨[], bytes, .done bytes, .inl ⟨List.isEmpty_iff.mp hempty, rfl⟩⟩
  | case2 bytes hnonempty error herror =>
    exact ⟨[], bytes, .done bytes, .inr ⟨fun hnil => hnonempty (List.isEmpty_iff.mpr hnil), error, herror, rfl⟩⟩
  | case3 bytes hnonempty script rest hfirst _ ih =>
    obtain ⟨scripts, left, hreads, ⟨hnil, hrest⟩ | ⟨hleft, error, herror, hrest⟩⟩ := ih
    · exact ⟨script :: scripts, left, .record hfirst hreads, .inl ⟨hnil, by rw [hrest]; rfl⟩⟩
    · exact ⟨script :: scripts, left, .record hfirst hreads, .inr ⟨hleft, error, herror, by rw [hrest]; rfl⟩⟩

/-- A short input is read as a list of scripts exactly if it is a sequence of records of these scripts. It is then what
is written for them, but for the depths, so what is written is read back. Reading ends on every input, after as many
records at most as there are three bytes for each. -/
theorem decode_exactly_records :
    (∀ bytes : Bytes, bytes.length < 3999995 → ∀ scripts,
      (decode bytes = .ok scripts ↔ ∃ records, joined records = bytes ∧ records.map Record.script = scripts) ∧
      (decode bytes = .ok scripts ↔ ∃ records, joined records = bytes ∧
        encode scripts = joined (records.map fun record => record.withDepth 1))) ∧
    (∀ scripts, (encode scripts).length < 3999995 → decode (encode scripts) = .ok scripts) ∧
    ∀ bytes, ∃ scripts left, Reads bytes scripts left ∧ 3 * scripts.length + left.length ≤ bytes.length ∧
      ((left = [] ∧ decode bytes = .ok scripts) ∨
        left ≠ [] ∧ ∃ error, decodeRecord left = .error error ∧ decode bytes = .error error) := by
  refine ⟨fun bytes h scripts => ?_, fun scripts h => decode_encode (fits_of_encode h), fun bytes => ?_⟩
  · have hrecords : decode bytes = .ok scripts ↔
        ∃ records, joined records = bytes ∧ records.map Record.script = scripts := by
      rw [decode_eq_ok_iff, and_iff_left_of_imp]
      rintro ⟨records, rfl, rfl⟩
      exact fits_of_encode (length_joined records ▸ h)
    refine ⟨hrecords, hrecords.trans ⟨?_, ?_⟩⟩
    · rintro ⟨records, rfl, rfl⟩
      exact ⟨records, rfl, (joined_withDepth records).symm⟩
    · rintro ⟨records, rfl, hwritten⟩
      have hencoded : encode (records.map Record.script) = encode scripts :=
        (joined_withDepth records).symm.trans hwritten.symm
      exact ⟨records, rfl, encode_inj (length_joined records ▸ h) hencoded⟩
  · obtain ⟨scripts, left, hreads, hends⟩ := exists_reads bytes
    exact ⟨scripts, left, hreads, hreads.length_le, hends⟩

/-- Two records, with depths that are not written. -/
theorem decode_exactly_records_otherDepths :
    ([7, 0xc0, 1, 0x51, 0, 0xc0, 0] : Bytes).length < 3999995 ∧
      decode [7, 0xc0, 1, 0x51, 0, 0xc0, 0] = .ok [[0x51], []] ∧
      (encode [[0x51], []]).length < 3999995 ∧ decode (encode [[0x51], []]) = .ok [[0x51], []] :=
  have hread := (decode_exactly_records.1 [7, 0xc0, 1, 0x51, 0, 0xc0, 0] (by decide) [[0x51], []]).1
  ⟨by decide,
    hread.mpr ⟨[⟨7, [1], [0x51], CompactSize.shortest_iff.mpr (by decide)⟩,
      ⟨0, [0], [], CompactSize.shortest_iff.mpr (by decide)⟩], by decide, rfl⟩,
    by decide, decode_exactly_records.2.1 _ (by decide)⟩

end Vtxo.ScriptList
