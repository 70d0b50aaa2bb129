import Vtxo.Leaf.Recognise
import Vtxo.Proofs.Script.ReadBack

/-!
# Scripts that are written back unchanged

A push may be announced in more bytes than its length needs. What is read of such a script is written shorter, and of no
other: reading forgets of each operation its kind and how long its announcement was, and nothing else.

  1. `bytes_asRead`: the bytes of an operation do not depend on its kind.
  2. `build_map_op_eq_iff`, `length_build_map_op_lt`: elements, written again from their operations.
  3. `build_eq_iff`: which scripts are written as they were read.
  4. `Leaf.genericOfScript_rebuilds`: which scripts are read, and what is left of them in the leaf that takes them as they
     are.
-/

set_option autoImplicit false

namespace Vtxo

namespace ScriptOp

/-! ## Operations -/

/-- An opcode is written as itself, also if it stands for a number. -/
theorem bytes_ofCode (code : UInt8) : (ofCode code).bytes = [code] := by
  rw [ofCode]
  split
  · next value hsmall =>
    rw [smallInt?] at hsmall
    split at hsmall
    · next hcode =>
      cases hsmall
      rw [hcode]
      rfl
    · split at hsmall
      · next hrange =>
        cases hsmall
        have hlow : 81 ≤ code.toNat := UInt8.le_iff_toNat_le.mp hrange.1
        have hhigh : code.toNat ≤ 96 := UInt8.le_iff_toNat_le.mp hrange.2
        have hcode : 0x50 + ((code.toNat : Int) - 0x50).toNat = code.toNat := by omega
        rw [bytes, intBytes, if_neg (by omega), if_neg (by omega), if_pos (by omega), hcode, UInt8.ofNat_toNat]
      · cases hsmall
  · rfl

/-- Reading an operation may change its kind, and none of its bytes. -/
theorem bytes_asRead (o : ScriptOp) : o.asRead.bytes = o.bytes := by
  cases o with
  | op code => exact bytes_ofCode code
  | int value =>
    rw [asRead]
    split
    · rfl
    · next hsmall => exact (intBytes_of_not_isSmall hsmall).symm
  | key k => rfl
  | data bytes => rfl

theorem build_map_asRead (ops : List ScriptOp) : build (ops.map asRead) = build ops := by
  induction ops with
  | nil => rfl
  | cons o rest ih =>
    calc (o.asRead).bytes ++ build (rest.map asRead) = o.bytes ++ build rest := by rw [bytes_asRead, ih]

theorem ReadAs.build_eq {written found : List ScriptOp} (h : ReadAs written found) : build written = build found := by
  rw [← h.map_asRead, build_map_asRead]

/-! ## Elements -/

theorem Element.bytes_op (element : Element) (h : element.IsShortest) : element.op.bytes = element.bytes := by
  cases element with
  | bare code _ => exact bytes_ofCode code
  | push form pushed _ =>
    have hform : form = .shortest pushed.length := h
    rw [op, ScriptOp.bytes, pushBytes, Element.bytes, hform, PushForm.announce_shortest]

theorem Element.length_bytes_op_lt (element : Element) (h : ¬ element.IsShortest) :
    element.op.bytes.length < element.bytes.length := by
  cases element with
  | bare => exact absurd trivial h
  | push form pushed fits =>
    rw [op, ScriptOp.bytes, pushBytes, Element.bytes, List.length_append, List.length_append,
      ← PushForm.announce_shortest]
    exact Nat.add_lt_add_right (PushForm.length_announce_shortest_lt fits h) _

theorem Element.length_bytes_op_le (element : Element) : element.op.bytes.length ≤ element.bytes.length := by
  by_cases h : element.IsShortest
  · rw [element.bytes_op h]
  · exact Nat.le_of_lt (element.length_bytes_op_lt h)

theorem written_cons (element : Element) (others : List Element) :
    written (element :: others) = element.bytes ++ written others := by
  rw [written, List.flatMap_cons, written]

theorem build_map_op_cons (element : Element) (others : List Element) :
    build ((element :: others).map Element.op) = element.op.bytes ++ build (others.map Element.op) := by
  rw [build, List.map_cons, List.flatMap_cons, build]

theorem build_map_op {elements : List Element} (h : ∀ element ∈ elements, element.IsShortest) :
    build (elements.map Element.op) = written elements := by
  induction elements with
  | nil => rfl
  | cons element others ih =>
    obtain ⟨hfirst, hothers⟩ := List.forall_mem_cons.mp h
    rw [build_map_op_cons, element.bytes_op hfirst, ih hothers, written_cons]

theorem length_build_map_op_le (elements : List Element) :
    (build (elements.map Element.op)).length ≤ (written elements).length := by
  induction elements with
  | nil => exact Nat.le_refl _
  | cons element others ih =>
    rw [build_map_op_cons, written_cons, List.length_append, List.length_append]
    exact Nat.add_le_add element.length_bytes_op_le ih

/-- A push in any other form makes the script longer than what is written again. -/
theorem length_build_map_op_lt {elements : List Element} (h : ¬ ∀ element ∈ elements, element.IsShortest) :
    (build (elements.map Element.op)).length < (written elements).length := by
  induction elements with
  | nil => exact absurd (List.forall_mem_nil _) h
  | cons element others ih =>
    rw [build_map_op_cons, written_cons, List.length_append, List.length_append]
    by_cases hfirst : element.IsShortest
    · have hothers : ¬ ∀ other ∈ others, other.IsShortest := fun hall => h (List.forall_mem_cons.mpr ⟨hfirst, hall⟩)
      exact Nat.add_lt_add_of_le_of_lt element.length_bytes_op_le (ih hothers)
    · exact Nat.add_lt_add_of_lt_of_le (element.length_bytes_op_lt hfirst) (length_build_map_op_le others)

theorem build_map_op_eq_iff {elements : List Element} :
    build (elements.map Element.op) = written elements ↔ ∀ element ∈ elements, element.IsShortest := by
  refine ⟨fun hsame => not_not.mp fun h => ?_, build_map_op⟩
  exact Nat.lt_irrefl _ (hsame ▸ length_build_map_op_lt h)

/-! ## Scripts -/

/-- Each push is announced in as few bytes as its length allows. -/
inductive ShortestPushes : Bytes → Prop where
  | nil : ShortestPushes []
  | push {pushed rest : Bytes} : pushed.length < 2 ^ 32 → ShortestPushes rest →
      ShortestPushes (pushBytes pushed ++ rest)
  | code {code : UInt8} {rest : Bytes} : Opcode.pushData4 < code → ShortestPushes rest →
      ShortestPushes (code :: rest)

theorem ShortestPushes.exists_elements {script : Bytes} (h : ShortestPushes script) :
    ∃ elements, script = written elements ∧ ∀ element ∈ elements, element.IsShortest := by
  induction h with
  | nil => exact ⟨[], rfl, List.forall_mem_nil _⟩
  | @push pushed rest hlength _ ih =>
    obtain ⟨elements, rfl, hshortest⟩ := ih
    refine ⟨.push (.shortest pushed.length) pushed (PushForm.lt_bound_shortest hlength) :: elements, ?_,
      List.forall_mem_cons.mpr ⟨rfl, hshortest⟩⟩
    rw [pushBytes, ← PushForm.announce_shortest]
    rfl
  | @code code rest hcode _ ih =>
    obtain ⟨elements, rfl, hshortest⟩ := ih
    exact ⟨.bare code hcode :: elements, rfl, List.forall_mem_cons.mpr ⟨trivial, hshortest⟩⟩

theorem shortestPushes_written {elements : List Element} (h : ∀ element ∈ elements, element.IsShortest) :
    ShortestPushes (written elements) := by
  induction elements with
  | nil => exact .nil
  | cons element others ih =>
    obtain ⟨hfirst, hothers⟩ := List.forall_mem_cons.mp h
    rw [written_cons, ← element.bytes_op hfirst]
    cases element with
    | bare code hcode =>
      rw [Element.op, bytes_ofCode]
      exact .code hcode (ih hothers)
    | push form pushed fits => exact .push (Nat.lt_of_lt_of_le fits form.bound_le) (ih hothers)

/-- What was read of a script is written as the script if and only if its pushes are the shortest. -/
theorem build_eq_iff {script : Bytes} {ops : List ScriptOp} (h : read script = .ok ops) :
    build ops = script ↔ ShortestPushes script := by
  constructor
  · intro hsame
    obtain ⟨elements, rfl, rfl⟩ := exists_elements_of_read h
    exact shortestPushes_written (build_map_op_eq_iff.mp hsame)
  · intro hshortest
    obtain ⟨elements, rfl, hall⟩ := hshortest.exists_elements
    rw [read_written, Except.ok.injEq] at h
    rw [← h, build_map_op hall]

/-- What was read is read again from what is written of it. -/
theorem read_build_of_read {script : Bytes} {ops : List ScriptOp} (h : read script = .ok ops) :
    read (build ops) = .ok ops :=
  (readAs_of_settled (settled_of_read h)).read_build

end ScriptOp

namespace Leaf

open ScriptOp

/-- A script is read exactly if it does not end within a push. The leaf that takes it as it is then has the same script
exactly if each push announces its length in the shortest form. Else its script is shorter, and it is read as the same
operations. -/
theorem genericOfScript_rebuilds (script : Bytes) :
    ((∃ ops, read script = .ok ops) ↔ ¬ Truncated script) ∧
      ∀ ops, read script = .ok ops → genericOfScript script = .ok (generic ops) ∧
        (∃ elements, script = written elements) ∧
        ∀ elements, script = written elements →
          ((generic ops).script = script ↔ ∀ element ∈ elements, element.IsShortest) ∧
          ((generic ops).script ≠ script →
            (generic ops).script.length < script.length ∧ read (generic ops).script = .ok ops) := by
  refine ⟨exists_read_iff, fun ops hread => ⟨by rw [genericOfScript, hread]; rfl, ?_, ?_⟩⟩
  · obtain ⟨elements, hscript, _⟩ := exists_elements_of_read hread
    exact ⟨elements, hscript⟩
  · rintro elements rfl
    have hops : elements.map Element.op = ops := Except.ok.inj ((read_written elements).symm.trans hread)
    have hscript : (generic ops).script = build (elements.map Element.op) := by rw [script, Leaf.ops, hops]
    rw [hscript]
    refine ⟨build_map_op_eq_iff, fun hne => ⟨length_build_map_op_lt (mt build_map_op hne), ?_⟩⟩
    rw [hops]
    exact read_build_of_read hread

/-- The number five twice: as one byte of data behind a length of its own byte, and as an opcode. -/
def fiveTwice : List Element :=
  [.push .oneByte [5] (by decide), .bare 0x55 (by decide)]

/-- Data stays data, also where an opcode stands for the number. What is cut short by a byte is not read. -/
theorem genericOfScript_rebuilds_fiveTwice :
    written fiveTwice = [0x4c, 1, 5, 0x55] ∧
      genericOfScript (written fiveTwice) = .ok (generic [.data [5], .int 5]) ∧
      (generic [.data [5], .int 5]).script.length < (written fiveTwice).length ∧
      read (generic [.data [5], .int 5]).script = .ok [.data [5], .int 5] ∧
      ¬ ∃ ops, read [0x4c, 2, 5] = .ok ops := by
  have hread : read (written fiveTwice) = .ok [.data [5], .int 5] := read_written fiveTwice
  obtain ⟨_, h⟩ := genericOfScript_rebuilds (written fiveTwice)
  obtain ⟨hleaf, _, hrebuilds⟩ := h _ hread
  obtain ⟨hsame, hshorter⟩ := hrebuilds fiveTwice rfl
  have hloose : ¬ ∀ element ∈ fiveTwice, element.IsShortest := by decide
  obtain ⟨hlength, hagain⟩ := hshorter (mt hsame.mp hloose)
  have htruncated : Truncated [0x4c, 2, 5] :=
    ⟨[], .push .oneByte [5, 0] (by decide), [0x4c, 2, 5], [0], rfl, rfl, List.cons_ne_nil _ _, List.cons_ne_nil _ _⟩
  exact ⟨rfl, hleaf, hlength, hagain, fun hok => (genericOfScript_rebuilds _).1.mp hok htruncated⟩

end Leaf

end Vtxo
