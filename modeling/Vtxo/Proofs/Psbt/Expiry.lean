import Vtxo.Proofs.Psbt.Independence

/-!
# Expiries, read and written again

The sequence that says zero intervals of 512 seconds is read as a lock of zero seconds, which no sequence enforces: an
expiry that holds it can be read but not written. Every other expiry that is read from the record under the name itself
is written as it was, because its number has one form and its lock one sequence.

  1. `record?_of_find?`: the record under a name itself is the first one of the name.
  2. `setExpiry_of_read`: what is written for a lock that was read.
  3. `expiry_lossless_iff`: which expiries are kept.
-/

set_option autoImplicit false

namespace Vtxo

/-- An entry of a kind, before which no key of the kind comes, is the first one of the kind. -/
theorem SortedMap.findKey?_of_first {κ ν : Type} [ByteKey κ] [DecidableEq κ] {map : SortedMap κ ν} {wanted : κ → Bool}
    {key : κ} {value : ν} (hfound : map.find? key = some value) (hkey : wanted key = true)
    (hfirst : ∀ other, wanted other = true → ¬ keyBefore other key) : map.findKey? wanted = some (key, value) := by
  obtain ⟨entry, hentry, rfl⟩ := Option.map_eq_some_iff.mp hfound
  obtain ⟨hsame, before, after, hsplit, -⟩ := List.find?_eq_some_iff_append.mp hentry
  have hsame : entry.1 = key := beq_iff_eq.mp hsame
  subst hsame
  refine List.find?_eq_some_iff_append.mpr ⟨hkey, before, after, hsplit, fun other hmem => ?_⟩
  have hsorted := map.sorted
  rw [hsplit] at hsorted
  have hbefore : keyBefore other.1 entry.1 :=
    (List.pairwise_append.mp hsorted).2.2 other hmem entry List.mem_cons_self
  rw [Bool.not_eq_true', Bool.eq_false_iff]
  exact fun hwanted => hfirst other.1 hwanted hbefore

/-- No record of a name comes before the one under the name itself. -/
theorem RecordName.not_keyBefore_key {name : RecordName} {key : RecordKey} (h : name.owns key = true) :
    ¬ keyBefore key name.key := by
  rw [owns, Bool.and_eq_true, beq_iff_eq, List.isPrefixOf_iff_prefix] at h
  obtain ⟨htype, hname⟩ := h
  have hbegins : ByteKey.keyBytes name.key <+: ByteKey.keyBytes key := List.cons_prefix_cons.mpr ⟨htype.symm, hname⟩
  exact List.not_lt.mpr hbegins.le

namespace InputMaps

variable {maps : InputMaps}

theorem record?_of_find? {name : RecordName} {bytes : Bytes} (h : maps.records.find? name.key = some bytes) :
    maps.record? name = some bytes := by
  rw [record?, SortedMap.findKey?_of_first h name.owns_key fun _ => RecordName.not_keyBefore_key]
  rfl

theorem find?_replace (maps : InputMaps) (name : RecordName) (value : Bytes) :
    (maps.replace name value).records.find? name.key = some value := by
  rw [replace, SortedMap.find?_insert, if_pos rfl]

/-- What the record under the name itself holds is read. -/
theorem expiry_eq_ok_iff {bytes : Bytes} {lock : RelativeLock}
    (h : maps.records.find? RecordName.expiry.key = some bytes) :
    maps.expiry = .ok (some lock) ↔
      ∃ sequence : UInt32, bytes = ScriptNumber.encode sequence.toNat ∧ RelativeLock.ofSequence sequence = .ok lock := by
  rw [expiry, record?_of_find? h, ← decodeExpiry_eq_ok_iff]
  simp only
  rw [map_eq_ok]
  constructor
  · rintro ⟨other, hread, hsame⟩
    cases hsame
    exact hread
  · exact fun hread => ⟨lock, hread, rfl⟩

/-- A lock that was read from a sequence is written as the number of the same sequence, if it is written. -/
theorem setExpiry_of_read {sequence : UInt32} {lock : RelativeLock} (h : RelativeLock.ofSequence sequence = .ok lock) :
    (∃ written, maps.setExpiry lock = (written, .ok ()) ∧
      written.records.find? RecordName.expiry.key = some (ScriptNumber.encode sequence.toNat)) ↔
      sequence ≠ RelativeLock.intervalFlag := by
  rw [← RelativeLock.toSequence_eq_iff h]
  constructor
  · rintro ⟨written, hwritten, -⟩
    obtain ⟨enforcing, henforcing, -⟩ := setExpiry_eq_ok_iff.mp hwritten
    rw [henforcing, RelativeLock.toSequence_ofSequence h henforcing]
  · intro hsequence
    exact ⟨_, setExpiry_eq_ok_iff.mpr ⟨sequence, hsequence, rfl⟩, find?_replace maps .expiry _⟩

/-! ## Keeping an expiry -/

/-- The expiry that is read from the record under the name itself can be written, and the record is the same again. -/
def ExpiryKept (maps : InputMaps) : Prop :=
  ∀ (bytes : Bytes) (lock : RelativeLock), maps.records.find? RecordName.expiry.key = some bytes →
    maps.expiry = .ok (some lock) →
    ∃ written, maps.setExpiry lock = (written, .ok ()) ∧ written.records.find? RecordName.expiry.key = some bytes

/-- The number of the sequence that says zero intervals. -/
def zeroIntervals : Bytes := [0x00, 0x00, 0x40]

theorem encode_intervalFlag : ScriptNumber.encode RelativeLock.intervalFlag.toNat = zeroIntervals := by
  decide +kernel

theorem expiryKept_iff (maps : InputMaps) :
    maps.ExpiryKept ↔ maps.records.find? RecordName.expiry.key ≠ some zeroIntervals := by
  constructor
  · intro hkept hfound
    -- Zero intervals are read as zero seconds.
    have hlock : RelativeLock.ofSequence RelativeLock.intervalFlag = .ok (.seconds 0) := rfl
    have hread : maps.expiry = .ok (some (.seconds 0)) :=
      (expiry_eq_ok_iff hfound).mpr ⟨_, encode_intervalFlag.symm, hlock⟩
    have hwritten := hkept _ _ hfound hread
    rw [← encode_intervalFlag] at hwritten
    exact (setExpiry_of_read hlock).mp hwritten rfl
  · intro hother bytes lock hfound hread
    obtain ⟨sequence, rfl, hlock⟩ := (expiry_eq_ok_iff hfound).mp hread
    refine (setExpiry_of_read hlock).mpr ?_
    rintro rfl
    exact hother (hfound.trans (congrArg some encode_intervalFlag))

/-- Reading an expiry and writing it loses nothing, except where zero intervals are read; writing and reading loses
nothing at all. -/
theorem expiry_lossless_iff (maps : InputMaps) :
    (maps.ExpiryKept ↔ maps.records.find? RecordName.expiry.key ≠ some zeroIntervals) ∧
    (∀ (lock : RelativeLock) (written : InputMaps), maps.setExpiry lock = (written, .ok ()) →
      written.expiry = .ok (some lock)) ∧
    (∀ (sequence : UInt32) (lock : RelativeLock), RelativeLock.ofSequence sequence = .ok lock →
      (lock.toSequence = .ok sequence ↔ sequence ≠ RelativeLock.intervalFlag)) :=
  ⟨expiryKept_iff maps, fun _ _ => expiry_setExpiry, fun _ _ => RelativeLock.toSequence_eq_iff⟩

/-- One interval of 512 seconds, next to a record whose key only begins with the name. -/
theorem expiry_lossless_iff_oneInterval :
    let maps := (InputMaps.empty.setRecord RecordName.expiry.key [0x01, 0x00, 0x40]).setRecord
      ⟨protocolRecordType, RecordName.expiry.bytes ++ [0]⟩ [0x05]
    maps.expiry = .ok (some (.seconds 512)) ∧
    (∃ written, maps.setExpiry (.seconds 512) = (written, .ok ()) ∧
      written.records.find? RecordName.expiry.key = some [0x01, 0x00, 0x40] ∧
      written.expiry = .ok (some (.seconds 512))) ∧
    (RelativeLock.seconds 512).toSequence = .ok 0x00400001 := by
  intro maps
  obtain ⟨hkept, hread, hsequence⟩ := expiry_lossless_iff maps
  have hfound : maps.records.find? RecordName.expiry.key = some [0x01, 0x00, 0x40] := by decide +kernel
  have hlock : RelativeLock.ofSequence 0x00400001 = .ok (.seconds 512) := rfl
  have hexpiry : maps.expiry = .ok (some (.seconds 512)) :=
    (expiry_eq_ok_iff hfound).mpr ⟨0x00400001, by decide +kernel, hlock⟩
  obtain ⟨written, hwritten, hsame⟩ := hkept.mpr (by rw [hfound]; decide) _ _ hfound hexpiry
  exact ⟨hexpiry, ⟨written, hwritten, hsame, hread _ _ hwritten⟩, (hsequence _ _ hlock).mpr (by decide)⟩

/-- Zero intervals are read as a lock that cannot be written. -/
theorem not_expiryKept_zeroIntervals : ¬ (InputMaps.empty.setRecord RecordName.expiry.key zeroIntervals).ExpiryKept := by
  intro hkept
  obtain ⟨written, hwritten, -⟩ := hkept zeroIntervals (.seconds 0) (by decide +kernel) (by rfl)
  cases hwritten

end InputMaps

end Vtxo
