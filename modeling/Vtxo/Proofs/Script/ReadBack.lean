import Vtxo.Proofs.Encoding.ScriptNumber
import Vtxo.Proofs.Script.Elements

/-!
# Reading what was built

A script forgets what kind its pushes were: keys and all numbers but -1 to 16, without 0, are read as data. Apart from
that, a script is read as the operations it was built from. Operations that were read once do not change any more.

  1. `read_pushBytes_append`: a push is read as its data.
  2. `read_build`: all operations of a script.
  3. `int?_asRead_int`: which numbers are still numbers afterwards.
  4. `settled_of_read`: operations that were read are read as they are.
-/

set_option autoImplicit false

namespace Vtxo.ScriptOp

/-! ## One operation -/

/-- The operation has a form of its own: a bare opcode announces no data, and the length of data can be written. -/
def Readable : ScriptOp → Prop
  | op code => Opcode.pushData4 < code
  | int value => (ScriptNumber.encode value).length < 2 ^ 32
  | key _ => True
  | data bytes => bytes.length < 2 ^ 32

instance : DecidablePred Readable
  | op code => inferInstanceAs (Decidable (Opcode.pushData4 < code))
  | int value => inferInstanceAs (Decidable ((ScriptNumber.encode value).length < 2 ^ 32))
  | key _ => inferInstanceAs (Decidable True)
  | data bytes => inferInstanceAs (Decidable (bytes.length < 2 ^ 32))

/-- The number has an opcode of its own, other than the empty push. -/
def IsSmall (value : Int) : Prop :=
  value = -1 ∨ 1 ≤ value ∧ value ≤ 16

instance (value : Int) : Decidable (IsSmall value) :=
  inferInstanceAs (Decidable (_ ∨ _))

/-- What an operation is read as. -/
def asRead : ScriptOp → ScriptOp
  | op code => ofCode code
  | int value => if IsSmall value then int value else data (ScriptNumber.encode value)
  | key k => data k.bytes
  | data bytes => data bytes

theorem read_pushBytes_append {bytes : Bytes} (h : bytes.length < 2 ^ 32) (rest : Bytes) :
    read (pushBytes bytes ++ rest) = (read rest).map (data bytes :: ·) := by
  have hread := read_element_append (.push (.shortest bytes.length) bytes (PushForm.lt_bound_shortest h)) rest
  rwa [Element.bytes, PushForm.announce_shortest] at hread

/-- A number without an opcode of its own is written as data, and zero as no data. -/
theorem intBytes_of_not_isSmall {value : Int} (h : ¬ IsSmall value) :
    intBytes value = pushBytes (ScriptNumber.encode value) := by
  unfold IsSmall at h
  by_cases hzero : value = 0
  · subst hzero
    rfl
  · rw [intBytes, if_neg hzero, if_neg (by omega), if_neg (by omega)]

/-- A number with an opcode of its own is written as that. -/
theorem intBytes_of_isSmall {value : Int} (h : IsSmall value) :
    ∃ code, intBytes value = [code] ∧ Opcode.pushData4 < code ∧ smallInt? code = some value := by
  rcases h with rfl | ⟨hlow, hhigh⟩
  · exact ⟨Opcode.minusOne, rfl, by decide, rfl⟩
  · obtain ⟨n, rfl⟩ := Int.eq_ofNat_of_zero_le (Int.le_trans (by decide) hlow)
    have hcodes : ∀ n < 17, 1 ≤ n →
        Opcode.pushData4 < UInt8.ofNat (0x50 + n) ∧ smallInt? (UInt8.ofNat (0x50 + n)) = some (n : Int) := by
      decide
    refine ⟨UInt8.ofNat (0x50 + n), ?_, hcodes n (by omega) (by omega)⟩
    rw [intBytes, if_neg (by omega), if_neg (by omega), if_pos ⟨hlow, hhigh⟩, Int.toNat_natCast]

theorem read_intBytes_append {value : Int} (h : IsSmall value) (rest : Bytes) :
    read (intBytes value ++ rest) = (read rest).map (int value :: ·) := by
  obtain ⟨code, hbytes, hcode, hsmall⟩ := intBytes_of_isSmall h
  rw [hbytes, List.singleton_append, read_cons_code hcode, ofCode, hsmall]

/-! ## All operations -/

theorem read_bytes_append {o : ScriptOp} (h : o.Readable) (rest : Bytes) :
    read (o.bytes ++ rest) = (read rest).map (o.asRead :: ·) := by
  cases o with
  | op code => exact read_cons_code h
  | int value =>
    by_cases hsmall : IsSmall value
    · rw [bytes, asRead, if_pos hsmall, read_intBytes_append hsmall]
    · rw [bytes, asRead, if_neg hsmall, intBytes_of_not_isSmall hsmall]
      exact read_pushBytes_append h rest
  | key k => exact read_pushBytes_append (by rw [k.length_bytes]; decide) rest
  | data bytes => exact read_pushBytes_append h rest

theorem read_build {ops : List ScriptOp} (h : ∀ o ∈ ops, o.Readable) :
    read (build ops) = .ok (ops.map asRead) := by
  induction ops with
  | nil => exact read_nil
  | cons o rest ih =>
    obtain ⟨hfirst, hrest⟩ := List.forall_mem_cons.mp h
    rw [build, List.flatMap_cons, read_bytes_append hfirst]
    have := ih hrest
    rw [build] at this
    rw [this]
    rfl

/-! ## What the operations still mean -/

/-- A number that is longer than four bytes is no number any more. -/
theorem int?_asRead_int (value : Int) :
    (asRead (int value)).int? = if value.natAbs < 2 ^ 31 then some value else none := by
  rw [asRead]
  split
  · next hsmall =>
    have hshort : value.natAbs < 2 ^ 31 := by
      unfold IsSmall at hsmall
      omega
    rw [if_pos hshort, int?]
  · exact ScriptNumber.decode?_encode value

/-- Opcodes are recognised as before. -/
theorem isCode_asRead {code : UInt8} (hcode : smallInt? code = none) (o : ScriptOp) :
    o.asRead.isCode code = o.isCode code := by
  cases o with
  | op other =>
    by_cases h : smallInt? other = none
    · rw [asRead, ofCode, h]
    · obtain ⟨value, hvalue⟩ := Option.ne_none_iff_exists'.mp h
      have hne : other ≠ code := fun heq => h (heq ▸ hcode)
      rw [asRead, ofCode, hvalue]
      simp [isCode, hne]
  | int value =>
    rw [asRead]
    split <;> rfl
  | key k => rfl
  | data bytes => rfl

/-! ## Operations that were read -/

/-- The operation is one that scripts are read as. -/
structure Settled (o : ScriptOp) : Prop where
  readable : o.Readable
  asRead_eq : o.asRead = o

theorem isSmall_of_smallInt? {code : UInt8} {value : Int} (h : smallInt? code = some value) : IsSmall value := by
  rw [smallInt?] at h
  split at h
  · cases h
    exact .inl rfl
  · split at h
    · next hrange =>
      cases h
      have hlow : Opcode.one.toNat ≤ code.toNat := UInt8.le_iff_toNat_le.mp hrange.1
      have hhigh : code.toNat ≤ Opcode.sixteen.toNat := UInt8.le_iff_toNat_le.mp hrange.2
      have hone : Opcode.one.toNat = 81 := rfl
      have hsixteen : Opcode.sixteen.toNat = 96 := rfl
      exact .inr (by omega)
    · cases h

theorem readable_of_isSmall {value : Int} (h : IsSmall value) : (int value).Readable := by
  have hlt : value.natAbs < ScriptNumber.signWeight 1 := by
    rw [ScriptNumber.signWeight_eq]
    unfold IsSmall at h
    omega
  rw [Readable, ScriptNumber.length_encode]
  exact Nat.lt_of_le_of_lt ((ScriptNumber.width_le_iff (by decide)).mpr hlt) (by decide)

theorem settled_data {bytes : Bytes} (h : bytes.length < 2 ^ 32) : (data bytes).Settled := ⟨h, rfl⟩

theorem settled_ofCode {code : UInt8} (h : Opcode.pushData4 < code) : (ofCode code).Settled := by
  cases hsmall : smallInt? code with
  | none =>
    have hop : ofCode code = op code := by rw [ofCode, hsmall]
    exact ⟨by rw [hop]; exact h, by rw [hop, asRead, hop]⟩
  | some value =>
    have hint : ofCode code = int value := by rw [ofCode, hsmall]
    have hvalue : IsSmall value := isSmall_of_smallInt? hsmall
    exact ⟨by rw [hint]; exact readable_of_isSmall hvalue, by rw [hint, asRead, if_pos hvalue]⟩

theorem Element.settled_op (element : Element) : element.op.Settled := by
  cases element with
  | bare code hcode => exact settled_ofCode hcode
  | push form pushed fits => exact settled_data (Nat.lt_of_lt_of_le fits form.bound_le)

/-- However a script encodes its pushes, the operations it is read as have one form only. -/
theorem settled_of_read {script : Bytes} {ops : List ScriptOp} (h : read script = .ok ops) :
    ∀ o ∈ ops, o.Settled := by
  obtain ⟨elements, _, rfl⟩ := exists_elements_of_read h
  intro o hmem
  obtain ⟨element, _, rfl⟩ := List.mem_map.mp hmem
  exact element.settled_op

/-! ## Lists of operations -/

/-- The operations that were written are found in the script as other ones. -/
structure ReadAs (written found : List ScriptOp) : Prop where
  readable : ∀ o ∈ written, o.Readable
  map_asRead : written.map asRead = found

theorem ReadAs.read_build {written found : List ScriptOp} (h : ReadAs written found) :
    read (build written) = .ok found := by
  rw [ScriptOp.read_build h.readable, h.map_asRead]

theorem readAs_nil : ReadAs [] [] := ⟨List.forall_mem_nil _, rfl⟩

theorem ReadAs.append {written found written' found' : List ScriptOp} (h : ReadAs written found)
    (h' : ReadAs written' found') : ReadAs (written ++ written') (found ++ found') :=
  ⟨List.forall_mem_append.mpr ⟨h.readable, h'.readable⟩, by rw [List.map_append, h.map_asRead, h'.map_asRead]⟩

theorem ReadAs.cons {o o' : ScriptOp} {written found : List ScriptOp} (hreadable : o.Readable)
    (hread : o.asRead = o') (h : ReadAs written found) : ReadAs (o :: written) (o' :: found) :=
  ⟨List.forall_mem_cons.mpr ⟨hreadable, h.readable⟩, by rw [List.map_cons, hread, h.map_asRead]⟩

theorem readAs_of_settled {ops : List ScriptOp} (h : ∀ o ∈ ops, o.Settled) : ReadAs ops ops where
  readable := fun o hmem => (h o hmem).readable
  map_asRead := by
    calc ops.map asRead = ops.map id := List.map_congr_left fun o hmem => (h o hmem).asRead_eq
      _ = ops := List.map_id ops

end Vtxo.ScriptOp
