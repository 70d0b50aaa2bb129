import Mathlib.Data.List.Induction
import Vtxo.Proofs.Psbt.Records
import Vtxo.Proofs.Script.Timelocks
import Vtxo.Proofs.Success
import Vtxo.Proofs.Taproot.ScriptList

/-!
# Protocol records over a history of writes

All records of the protocol lie in one map and are told apart by what their keys begin with. What is read under a name
depends on the records of this name only, and a write changes the records of its own name only. So each name has the
value that was written last, whatever was written under other names before and after, and whatever other records the map
held at the start.

  1. `InputMaps.owned_perform_of_ne`: a write leaves the records of other names alone.
  2. `InputMaps.read_performAll`: what one write does to what is read decides what a history does.
  3. `InputMaps.cosigners_of_holds`: the cosigners, from the records that there are.
  4. `InputMaps.records_independent`: what is read after a history.
-/

set_option autoImplicit false

namespace Vtxo

namespace SortedMap

variable {κ ν : Type} [ByteKey κ]

theorem filter_insertEntry_of_unwanted {wanted : κ → Bool} {key : κ} (value : ν) (hkey : wanted key = false)
    (entries : List (κ × ν)) :
    (insertEntry key value entries).filter (fun entry => wanted entry.1) =
      entries.filter fun entry => wanted entry.1 := by
  induction entries with
  | nil => simp [insertEntry, hkey]
  | cons first rest ih =>
    rw [insertEntry]
    split
    · simp [hkey]
    · next hbefore =>
      split
      · rw [List.filter_cons, List.filter_cons, ih]
      · next hafter =>
        have hsame : key = first.1 := eq_of_not_before hbefore hafter
        simp [hkey, hsame ▸ hkey]

theorem ne_of_keyBefore {a b : κ} (h : keyBefore a b) : a ≠ b :=
  fun heq => keyBefore_irrefl b (heq ▸ h)

/-- An entry is the one that was inserted or has another key. -/
theorem mem_insertEntry_iff {key : κ} {value : ν} {entries : List (κ × ν)}
    (h : entries.Pairwise fun a b => keyBefore a.1 b.1) {entry : κ × ν} :
    entry ∈ insertEntry key value entries ↔ entry = (key, value) ∨ entry ∈ entries ∧ entry.1 ≠ key := by
  induction entries with
  | nil => simp [insertEntry]
  | cons first rest ih =>
    obtain ⟨hfirst, hrest⟩ := List.pairwise_cons.mp h
    rw [insertEntry]
    split
    · next hbefore =>
      have hothers : ∀ other ∈ first :: rest, other.1 ≠ key := by
        refine List.forall_mem_cons.mpr ⟨(ne_of_keyBefore hbefore).symm, fun other hmem => ?_⟩
        exact (ne_of_keyBefore (keyBefore_trans hbefore (hfirst other hmem))).symm
      rw [List.mem_cons]
      exact or_congr_right ⟨fun hmem => ⟨hmem, hothers entry hmem⟩, fun hmem => hmem.1⟩
    · next hbefore =>
      split
      · next hafter =>
        have hne : first.1 ≠ key := ne_of_keyBefore hafter
        rw [List.mem_cons, ih hrest, List.mem_cons]
        constructor
        · rintro (rfl | rfl | ⟨hmem, hkey⟩)
          · exact .inr ⟨.inl rfl, hne⟩
          · exact .inl rfl
          · exact .inr ⟨.inr hmem, hkey⟩
        · rintro (rfl | ⟨rfl | hmem, hkey⟩)
          · exact .inr (.inl rfl)
          · exact .inl rfl
          · exact .inr (.inr ⟨hmem, hkey⟩)
      · next hafter =>
        -- The first entry has the key of the new one, which takes its place.
        have hsame : key = first.1 := eq_of_not_before hbefore hafter
        rw [List.mem_cons, List.mem_cons]
        refine or_congr_right ⟨fun hmem => ⟨.inr hmem, ?_⟩, ?_⟩
        · exact fun heq => ne_of_keyBefore (hfirst entry hmem) (hsame.symm.trans heq.symm)
        · rintro ⟨rfl | hmem, hkey⟩
          · exact absurd hsame.symm hkey
          · exact hmem

end SortedMap

theorem PublicKey.bytes_inj {a b : PublicKey} (h : a.bytes = b.bytes) : a = b :=
  Option.some_inj.mp (by rw [← a.ofBytes?_compressed, h, b.ofBytes?_compressed])

/-! ## Writes -/

/-- A change to the protocol's records on an input. -/
inductive RecordWrite where
  | scripts (listed : List Bytes)
  | expiry (lock : RelativeLock)
  | condition (witness : List Bytes)
  | cosigner (index : UInt8) (key : PublicKey)

namespace RecordWrite

/-- The name of the records that are changed. -/
def name : RecordWrite → RecordName
  | scripts _ => .scripts
  | expiry _ => .expiry
  | condition _ => .condition
  | cosigner _ _ => .cosigner

/-- What is written is not longer than what is read. -/
def Readable : RecordWrite → Prop
  | scripts listed => ∀ script ∈ listed, script.length < 3999995
  | condition witness => (witness.flatMap countedBytes).length ≤ maxWitnessBytes
  | _ => True

/-! What each write sets, if it sets something of the kind. -/

def scripts? : RecordWrite → Option (List Bytes)
  | scripts listed => some listed
  | _ => none

/-- An expiry is set only if a sequence can enforce it. -/
def expiry? : RecordWrite → Option RelativeLock
  | expiry lock => lock.scriptValue.toOption.map fun _ => lock
  | _ => none

def condition? : RecordWrite → Option (List Bytes)
  | condition witness => some witness
  | _ => none

def cosigner? (index : UInt8) : RecordWrite → Option PublicKey
  | cosigner other key => if other = index then some key else none
  | _ => none

/-- What the last write of a kind sets. -/
def last {α : Type} (value? : RecordWrite → Option α) (writes : List RecordWrite) : Option α :=
  (writes.filterMap value?).getLast?

theorem last_concat {α : Type} (value? : RecordWrite → Option α) (writes : List RecordWrite) (write : RecordWrite) :
    last value? (writes ++ [write]) = (value? write).or (last value? writes) := by
  rw [last, List.filterMap_append, List.getLast?_append, last]
  cases h : value? write <;> simp [h]

end RecordWrite

namespace InputMaps

/-- What an input is after a write, which may have failed. -/
def perform (maps : InputMaps) : RecordWrite → InputMaps
  | .scripts listed => maps.setScripts listed
  | .expiry lock => (maps.setExpiry lock).1
  | .condition witness => maps.setCondition witness
  | .cosigner index key => maps.addCosigner index key

/-- What an input is after some writes, one after the other. -/
def performAll (maps : InputMaps) (writes : List RecordWrite) : InputMaps :=
  writes.foldl perform maps

theorem performAll_concat (maps : InputMaps) (writes : List RecordWrite) (write : RecordWrite) :
    maps.performAll (writes ++ [write]) = (maps.performAll writes).perform write :=
  List.foldl_concat ..

/-! ## Records of a name -/

/-- The records that belong to a name. -/
def owned (maps : InputMaps) (name : RecordName) : List (RecordKey × Bytes) :=
  maps.records.entries.filter fun entry => name.owns entry.1

theorem record?_eq (maps : InputMaps) (name : RecordName) :
    maps.record? name = (maps.owned name).head?.map (·.2) := by
  rw [owned, List.head?_filter]
  rfl

theorem owned_replace_of_ne (maps : InputMaps) {name other : RecordName} (h : name ≠ other) (value : Bytes) :
    (maps.replace name value).owned other = maps.owned other := by
  refine (SortedMap.filter_insertEntry_of_unwanted value (RecordName.owns_disjoint h name.owns_key) _).trans ?_
  rw [SortedMap.erase, List.filter_filter]
  refine List.filter_congr fun entry _ => ?_
  by_cases howns : other.owns entry.1 = true
  · rw [howns, RecordName.owns_disjoint h.symm howns]
    rfl
  · rw [Bool.not_eq_true] at howns
    rw [howns, Bool.false_and]

theorem owns_cosignerKey (index : UInt8) : RecordName.cosigner.owns (cosignerKey index) = true := by
  rw [RecordName.owns, cosignerKey, Bool.and_eq_true, List.isPrefixOf_iff_prefix]
  exact ⟨beq_self_eq_true _, List.prefix_append _ _⟩

/-- A write leaves the records of other names alone. -/
theorem owned_perform_of_ne (maps : InputMaps) {write : RecordWrite} {name : RecordName} (h : write.name ≠ name) :
    (maps.perform write).owned name = maps.owned name := by
  cases write with
  | scripts listed => exact owned_replace_of_ne maps h _
  | condition witness => exact owned_replace_of_ne maps h _
  | expiry lock =>
    rw [perform, setExpiry]
    cases lock.scriptValue with
    | error error => rfl
    | ok value => exact owned_replace_of_ne maps h _
  | cosigner index key =>
    exact SortedMap.filter_insertEntry_of_unwanted _ (RecordName.owns_disjoint h (owns_cosignerKey index)) _

/-- Whether the same is read of two inputs under a name. -/
def ReadsSame (name : RecordName) (a b : InputMaps) : Prop :=
  match name with
  | .scripts => a.scripts = b.scripts
  | .expiry => a.expiry = b.expiry
  | .condition => a.condition = b.condition
  | .cosigner => a.cosigners = b.cosigners

/-- An expiry is set where writing it succeeds. -/
theorem expiry?_eq (maps : InputMaps) (lock : RelativeLock) :
    (RecordWrite.expiry lock).expiry? = (maps.setExpiry lock).2.toOption.map fun _ => lock := by
  rw [RecordWrite.expiry?, setExpiry]
  cases lock.scriptValue <;> rfl

/-- An expiry that cannot be written changes nothing. -/
theorem setExpiry_of_failed {maps : InputMaps} {lock : RelativeLock} {error : Error}
    (h : (maps.setExpiry lock).2 = .error error) : (maps.setExpiry lock).1 = maps := by
  rw [setExpiry] at h ⊢
  cases hvalue : lock.scriptValue with
  | error => rfl
  | ok value =>
    rw [hvalue] at h
    cases h

/-- What is read under a name depends on the records of this name only. -/
theorem readsSame_of_owned {name : RecordName} {a b : InputMaps} (h : a.owned name = b.owned name) :
    ReadsSame name a b := by
  have hrecord : a.record? name = b.record? name := by rw [record?_eq, record?_eq, h]
  cases name with
  | scripts =>
    change a.scripts = b.scripts
    rw [scripts, scripts, hrecord]
  | expiry =>
    change a.expiry = b.expiry
    rw [expiry, expiry, hrecord]
  | condition =>
    change a.condition = b.condition
    rw [condition, condition, hrecord]
  | cosigner =>
    rw [owned, owned] at h
    change a.cosigners = b.cosigners
    rw [cosigners, cosigners, h]

theorem readsSame_perform (maps : InputMaps) {write : RecordWrite} {name : RecordName} (h : write.name ≠ name) :
    ReadsSame name (maps.perform write) maps :=
  readsSame_of_owned (owned_perform_of_ne maps h)

/-! ## Records of one value -/

theorem scripts_setScripts (maps : InputMaps) {listed : List Bytes} (h : ∀ script ∈ listed, ScriptList.Fits script) :
    (maps.setScripts listed).scripts = .ok (some listed) := by
  rw [scripts, setScripts, record?_replace]
  simp only
  rw [ScriptList.decode_encode h]
  rfl

/-- What is read as an expiry is the number of a sequence that is read as a lock, in its shortest form. -/
theorem decodeExpiry_eq_ok_iff {bytes : Bytes} {lock : RelativeLock} :
    decodeExpiry bytes = .ok lock ↔
      ∃ sequence : UInt32, bytes = ScriptNumber.encode sequence.toNat ∧ RelativeLock.ofSequence sequence = .ok lock := by
  rw [decodeExpiry]
  constructor
  · intro h
    cases hdecode : ScriptNumber.decode bytes with
    | error fault =>
      rw [hdecode] at h
      cases h
    | ok value =>
      simp only [hdecode, pure_bind] at h
      cases hword : ScriptOp.word? value with
      | none =>
        rw [hword] at h
        cases h
      | some sequence =>
        simp only [hword] at h
        rw [ScriptOp.eq_toNat_of_word? hword] at hdecode
        exact ⟨sequence, (ScriptNumber.decode_eq_ok_iff.mp hdecode).1, h⟩
  · rintro ⟨sequence, rfl, hlock⟩
    have hlt := RelativeLock.ofSequence_lt hlock
    have hdecode : ScriptNumber.decode (ScriptNumber.encode sequence.toNat) = .ok sequence.toNat :=
      ScriptNumber.decode_eq_ok_iff.mpr ⟨rfl, by omega⟩
    simp only [hdecode, ScriptOp.word?_toNat, pure_bind]
    exact hlock

/-- An expiry is set where a sequence enforces it, to the number of the sequence. -/
theorem setExpiry_eq_ok_iff {maps written : InputMaps} {lock : RelativeLock} :
    maps.setExpiry lock = (written, .ok ()) ↔
      ∃ sequence, lock.toSequence = .ok sequence ∧
        maps.replace .expiry (ScriptNumber.encode sequence.toNat) = written := by
  rw [setExpiry, RelativeLock.scriptValue]
  cases lock.toSequence with
  | error fault =>
    refine iff_of_false ?_ ?_
    · rintro ⟨⟩
    · rintro ⟨_, ⟨⟩, _⟩
  | ok sequence =>
    constructor
    · rintro ⟨⟩
      exact ⟨sequence, rfl, rfl⟩
    · rintro ⟨_, ⟨⟩, rfl⟩
      rfl

theorem expiry_setExpiry {maps written : InputMaps} {lock : RelativeLock} (h : maps.setExpiry lock = (written, .ok ())) :
    written.expiry = .ok (some lock) := by
  obtain ⟨sequence, hsequence, rfl⟩ := setExpiry_eq_ok_iff.mp h
  have hread : decodeExpiry (ScriptNumber.encode sequence.toNat) = .ok lock :=
    decodeExpiry_eq_ok_iff.mpr ⟨sequence, rfl, RelativeLock.ofSequence_toSequence hsequence⟩
  rw [expiry, record?_replace]
  simp only
  rw [hread]
  rfl

/-- What one write does to what is read decides what a history does. -/
theorem read_performAll {α : Type} {read : InputMaps → Except Error (Option α)} {value? : RecordWrite → Option α}
    (hstep : ∀ (maps : InputMaps) (write : RecordWrite), write.Readable →
      read (maps.perform write) = (value? write).elim (read maps) fun value => .ok (some value))
    (maps : InputMaps) {writes : List RecordWrite} (h : ∀ write ∈ writes, write.Readable) :
    read (maps.performAll writes) =
      (RecordWrite.last value? writes).elim (read maps) fun value => .ok (some value) := by
  induction writes using List.reverseRecOn with
  | nil => rfl
  | append_singleton writes write ih =>
    obtain ⟨hwrites, hwrite⟩ := List.forall_mem_append.mp h
    rw [performAll_concat, hstep _ write (List.forall_mem_singleton.mp hwrite), ih hwrites, RecordWrite.last_concat]
    cases value? write <;> rfl

theorem scripts_perform (maps : InputMaps) (write : RecordWrite) (h : write.Readable) :
    (maps.perform write).scripts = write.scripts?.elim maps.scripts fun listed => .ok (some listed) := by
  have hother : write.name ≠ .scripts → ReadsSame .scripts (maps.perform write) maps := readsSame_perform maps
  cases write with
  | scripts listed => exact scripts_setScripts maps fun script hmem => ScriptList.fits_of_length (h script hmem)
  | expiry _ | condition _ | cosigner _ _ =>
    exact hother (by rintro ⟨⟩)

theorem expiry_perform (maps : InputMaps) (write : RecordWrite) :
    (maps.perform write).expiry = write.expiry?.elim maps.expiry fun lock => .ok (some lock) := by
  have hother : write.name ≠ .expiry → ReadsSame .expiry (maps.perform write) maps := readsSame_perform maps
  cases write with
  | expiry lock =>
    rw [expiry?_eq maps, perform]
    cases houtcome : (maps.setExpiry lock).2 with
    | error error =>
      rw [setExpiry_of_failed houtcome]
      rfl
    | ok => exact expiry_setExpiry (Prod.ext rfl houtcome)
  | scripts _ | condition _ | cosigner _ _ =>
    exact hother (by rintro ⟨⟩)

theorem condition_perform (maps : InputMaps) (write : RecordWrite) (h : write.Readable) :
    (maps.perform write).condition = write.condition?.elim maps.condition fun witness => .ok (some witness) := by
  have hother : write.name ≠ .condition → ReadsSame .condition (maps.perform write) maps := readsSame_perform maps
  cases write with
  | condition witness => exact condition_setCondition maps h
  | scripts _ | expiry _ | cosigner _ _ =>
    exact hother (by rintro ⟨⟩)

/-! ## Cosigners -/

/-- The cosigner records are those of the keys that the indices have. -/
def HoldsCosigners (maps : InputMaps) (keyOf : UInt8 → Option PublicKey) : Prop :=
  ∀ entry, entry ∈ maps.owned .cosigner ↔
    ∃ index key, keyOf index = some key ∧ entry = (cosignerKey index, key.bytes)

theorem cosignerKey_inj {a b : UInt8} (h : cosignerKey a = cosignerKey b) : a = b := by
  have hname := congrArg RecordKey.name h
  exact List.singleton_inj.mp (List.append_cancel_left hname)

/-- Setting a cosigner gives one index another key. -/
theorem HoldsCosigners.addCosigner {maps : InputMaps} {keyOf : UInt8 → Option PublicKey} (h : maps.HoldsCosigners keyOf)
    (index : UInt8) (key : PublicKey) :
    (maps.addCosigner index key).HoldsCosigners fun other => if index = other then some key else keyOf other := by
  intro entry
  have hinsert : entry ∈ (maps.addCosigner index key).records.entries ↔
      entry = (cosignerKey index, key.bytes) ∨ entry ∈ maps.records.entries ∧ entry.1 ≠ cosignerKey index :=
    SortedMap.mem_insertEntry_iff maps.records.sorted
  have hmem : entry ∈ (maps.addCosigner index key).owned .cosigner ↔
      entry = (cosignerKey index, key.bytes) ∨ entry ∈ maps.owned .cosigner ∧ entry.1 ≠ cosignerKey index := by
    rw [owned, owned, List.mem_filter, List.mem_filter, hinsert]
    constructor
    · rintro ⟨rfl | ⟨hmem, hne⟩, howns⟩
      · exact .inl rfl
      · exact .inr ⟨⟨hmem, howns⟩, hne⟩
    · rintro (rfl | ⟨⟨hmem, howns⟩, hne⟩)
      · exact ⟨.inl rfl, owns_cosignerKey index⟩
      · exact ⟨.inr ⟨hmem, hne⟩, howns⟩
  rw [hmem, h entry]
  constructor
  · rintro (rfl | ⟨⟨other, held, hheld, rfl⟩, hne⟩)
    · exact ⟨index, key, if_pos rfl, rfl⟩
    · exact ⟨other, held, (if_neg fun heq => hne (by rw [heq])).trans hheld, rfl⟩
  · rintro ⟨other, held, hheld, rfl⟩
    dsimp only at hheld
    by_cases heq : index = other
    · rw [if_pos heq] at hheld
      cases hheld
      exact .inl (by rw [heq])
    · rw [if_neg heq] at hheld
      exact .inr ⟨⟨other, held, hheld, rfl⟩, fun hsame => heq (cosignerKey_inj hsame).symm⟩

/-- A history sets each index to the last key that was written for it. -/
theorem holdsCosigners_performAll {maps : InputMaps}
    (h : ∀ entry ∈ maps.records.entries, RecordName.cosigner.owns entry.1 = false) (writes : List RecordWrite) :
    (maps.performAll writes).HoldsCosigners fun index => RecordWrite.last (RecordWrite.cosigner? index) writes := by
  induction writes using List.reverseRecOn with
  | nil =>
    intro entry
    have hnone : maps.owned .cosigner = [] :=
      List.filter_eq_nil_iff.mpr fun entry hmem => Bool.eq_false_iff.mp (h entry hmem)
    change entry ∈ maps.owned .cosigner ↔ _
    rw [hnone]
    refine ⟨fun hmem => absurd hmem List.not_mem_nil, ?_⟩
    rintro ⟨_, _, ⟨⟩, _⟩
  | append_singleton writes write ih =>
    rw [performAll_concat]
    simp only [RecordWrite.last_concat]
    cases write with
    | cosigner index key =>
      have hkeys : (fun other => (RecordWrite.cosigner? other (.cosigner index key)).or
            (RecordWrite.last (RecordWrite.cosigner? other) writes)) =
          fun other => if index = other then some key else RecordWrite.last (RecordWrite.cosigner? other) writes := by
        funext other
        rw [RecordWrite.cosigner?]
        split <;> rfl
      rw [hkeys]
      exact ih.addCosigner index key
    | scripts _ | expiry _ | condition _ =>
      intro entry
      rw [owned_perform_of_ne _ (by simp [RecordWrite.name])]
      exact ih entry

/-- Cosigner records are in the order of their indices. -/
theorem lt_of_keyBefore_cosignerKey {a b : UInt8} (h : keyBefore (cosignerKey a) (cosignerKey b)) : a < b := by
  have hlast : ∀ start : Bytes, start ++ [a] < start ++ [b] → a < b := by
    intro start hlt
    induction start with
    | nil => simpa [List.cons_lt_cons_iff] using hlt
    | cons first rest ih => exact ih (by simpa [List.cons_lt_cons_iff] using hlt)
  exact hlast (protocolRecordType :: RecordName.cosigner.bytes) h

theorem decodeCosigner_cosignerKey (index : UInt8) (key : PublicKey) :
    decodeCosigner (cosignerKey index) key.bytes = .ok (index, key) := by
  have hindex : (cosignerKey index).name[RecordName.cosigner.bytes.length]? = some index :=
    List.getElem?_concat_length ..
  rw [decodeCosigner, hindex]
  simp only
  rw [key.ofBytes?_compressed]

/-- Cosigners that were written are read back in the order of their indices, each index once. -/
theorem cosigners_of_holds {maps : InputMaps} {keyOf : UInt8 → Option PublicKey} (h : maps.HoldsCosigners keyOf) :
    ∃ keys, maps.cosigners = .ok keys ∧ keys.Pairwise (fun a b => a.1 < b.1) ∧
      ∀ index key, (index, key) ∈ keys ↔ keyOf index = some key := by
  obtain ⟨keys, hkeys, hall⟩ : ∃ keys,
      (maps.owned .cosigner).mapM (fun entry => decodeCosigner entry.1 entry.2) = .ok keys ∧
        List.Forall₂ (fun entry found => entry = (cosignerKey found.1, found.2.bytes)) (maps.owned .cosigner) keys := by
    refine mapM_eq_ok fun entry hmem => ?_
    obtain ⟨index, key, -, rfl⟩ := (h entry).mp hmem
    exact ⟨(index, key), decodeCosigner_cosignerKey index key, rfl⟩
  have howned : maps.owned .cosigner = keys.map fun found => (cosignerKey found.1, found.2.bytes) := by
    rw [← List.forall₂_eq_eq_eq, List.forall₂_map_right_iff]
    exact hall
  have hsorted : keys.Pairwise fun a b => a.1 < b.1 := by
    have hentries : (maps.owned .cosigner).Pairwise fun a b => keyBefore a.1 b.1 :=
      maps.records.sorted.filter _
    rw [howned, List.pairwise_map] at hentries
    exact hentries.imp lt_of_keyBefore_cosignerKey
  refine ⟨keys, ?_, hsorted, fun index key => ?_⟩
  · have horder : keys.mergeSort (fun a b => a.1 ≤ b.1) = keys :=
      List.mergeSort_of_pairwise (hsorted.imp fun hlt => decide_eq_true (UInt8.le_of_lt hlt))
    rw [cosigners, ← owned, hkeys]
    exact congrArg Except.ok horder
  · have hrecord : (index, key) ∈ keys ↔ (cosignerKey index, key.bytes) ∈ maps.owned .cosigner := by
      rw [howned, List.mem_map]
      refine ⟨fun hmem => ⟨(index, key), hmem, rfl⟩, ?_⟩
      rintro ⟨⟨other, held⟩, hmem, hsame⟩
      obtain ⟨hindex, hbytes⟩ := Prod.mk.inj hsame
      rwa [← cosignerKey_inj hindex, ← PublicKey.bytes_inj hbytes]
    rw [hrecord, h]
    constructor
    · rintro ⟨other, held, hheld, hsame⟩
      obtain ⟨hindex, hbytes⟩ := Prod.mk.inj hsame
      rwa [cosignerKey_inj hindex, PublicKey.bytes_inj hbytes]
    · exact fun hheld => ⟨index, key, hheld, rfl⟩

/-! ## Histories -/

/-- After a history of writes each name has the value that was written last, or the one that it had at the start. A
write changes what is read under its own name only. Only an expiry can fail to be written, which changes nothing.
Cosigners are listed in the order of their indices, where there were none at the start. -/
theorem records_independent (maps : InputMaps) (writes : List RecordWrite) (h : ∀ write ∈ writes, write.Readable) :
    (maps.performAll writes).scripts =
        (RecordWrite.last RecordWrite.scripts? writes).elim maps.scripts (fun listed => .ok (some listed)) ∧
    (maps.performAll writes).expiry =
        (RecordWrite.last RecordWrite.expiry? writes).elim maps.expiry (fun lock => .ok (some lock)) ∧
    (maps.performAll writes).condition =
        (RecordWrite.last RecordWrite.condition? writes).elim maps.condition (fun witness => .ok (some witness)) ∧
    (∀ (before : InputMaps) (write : RecordWrite) (name : RecordName),
      write.name ≠ name → ReadsSame name (before.perform write) before) ∧
    (∀ (before : InputMaps) (lock : RelativeLock),
      (RecordWrite.expiry lock).expiry? = (before.setExpiry lock).2.toOption.map (fun _ => lock) ∧
      ∀ error, (before.setExpiry lock).2 = .error error → (before.setExpiry lock).1 = before) ∧
    ((∀ entry ∈ maps.records.entries, RecordName.cosigner.owns entry.1 = false) →
      ∃ keys, (maps.performAll writes).cosigners = .ok keys ∧ keys.Pairwise (fun a b => a.1 < b.1) ∧
        ∀ index key, (index, key) ∈ keys ↔ RecordWrite.last (RecordWrite.cosigner? index) writes = some key) :=
  ⟨read_performAll scripts_perform maps h,
    read_performAll (fun before write _ => expiry_perform before write) maps h,
    read_performAll condition_perform maps h,
    fun before _ _ hname => readsSame_perform before hname,
    fun before lock => ⟨expiry?_eq before lock, fun _ => setExpiry_of_failed⟩,
    fun hnone => cosigners_of_holds (holdsCosigners_performAll hnone writes)⟩

/-- An input with a record that only begins like a name, and a history that mixes all names. -/
theorem records_independent_mixed :
    let maps := InputMaps.empty.setRecord ⟨protocolRecordType, RecordName.scripts.bytes ++ [0]⟩ [7]
    let even : PublicKey := ⟨false, unspendableKey⟩
    let odd : PublicKey := ⟨true, unspendableKey⟩
    let writes : List RecordWrite := [.scripts [[0x51]], .expiry (.blocks 144), .cosigner 1 even, .expiry (.seconds 1),
      .cosigner 0 odd, .condition [[1, 2]], .cosigner 1 odd, .scripts [[0x52], []]]
    (∀ write ∈ writes, write.Readable) ∧
    (maps.performAll writes).scripts = .ok (some [[0x52], []]) ∧
    (maps.performAll writes).expiry = .ok (some (.blocks 144)) ∧
    (maps.performAll writes).condition = .ok (some [[1, 2]]) ∧
    ∃ keys, (maps.performAll writes).cosigners = .ok keys ∧ (0, odd) ∈ keys ∧ (1, odd) ∈ keys ∧ (1, even) ∉ keys := by
  intro maps even odd writes
  have hreadable : ∀ write ∈ writes, write.Readable := by
    simp [writes, RecordWrite.Readable, maxWitnessBytes, countedBytes, CompactSize.encode]
  obtain ⟨hscripts, hexpiry, hcondition, -, -, hcosigners⟩ := records_independent maps writes hreadable
  obtain ⟨keys, hkeys, -, hmem⟩ := hcosigners (by decide +kernel)
  refine ⟨hreadable, hscripts, hexpiry, hcondition, keys, hkeys, (hmem 0 odd).mpr rfl, (hmem 1 odd).mpr rfl, ?_⟩
  rw [hmem 1 even]
  intro hlast
  have hsame : some odd = some even := hlast
  exact absurd (congrArg PublicKey.odd (Option.some_inj.mp hsame)) (by decide)

end InputMaps

end Vtxo
