import Vtxo.Proofs.Bytes
import Vtxo.Script.Read

/-!
# Scripts as they stand

A script is one element after the other: a bare opcode, or data with its length in front. Lengths are announced in four
forms, of which the longer ones do for short data as well. An element is read as its operation, in whatever form it
announces its length. What is no row of elements ends within a push, and that is the only reason why a script is not read.

  1. `splitPush_eq_some_iff`: what a push takes from a script.
  2. `read_written`: elements are read as their operations.
  3. `read_truncated`, `exists_read_iff`: which scripts are read.
-/

set_option autoImplicit false

namespace Vtxo.ScriptOp

/-! ## Forms of a push -/

/-- How a push announces its length: in its opcode, or in one, two or four bytes after an opcode. -/
inductive PushForm where
  | direct
  | oneByte
  | twoBytes
  | fourBytes
deriving DecidableEq

namespace PushForm

/-- The first length that is too large for the form. -/
def bound : PushForm → Nat
  | direct => 76
  | oneByte => 256
  | twoBytes => 65536
  | fourBytes => 4294967296

/-- What stands in front of data of a length. -/
def announce (length : Nat) : PushForm → Bytes
  | direct => [UInt8.ofNat length]
  | oneByte => Opcode.pushData1 :: Bytes.natLE 1 length
  | twoBytes => Opcode.pushData2 :: Bytes.natLE 2 length
  | fourBytes => Opcode.pushData4 :: Bytes.natLE 4 length

/-- The form with the shortest announcement of a length. -/
def shortest (length : Nat) : PushForm :=
  if length < 76 then direct
  else if length < 256 then oneByte
  else if length < 65536 then twoBytes
  else fourBytes

theorem announce_shortest (length : Nat) : (shortest length).announce length = pushHeader length := by
  unfold shortest pushHeader
  split
  · rfl
  · split
    · rfl
    · split <;> rfl

theorem lt_bound_shortest {length : Nat} (h : length < 2 ^ 32) : length < (shortest length).bound := by
  unfold shortest
  split
  · assumption
  · split
    · assumption
    · split
      · assumption
      · exact h

theorem bound_le (form : PushForm) : form.bound ≤ 2 ^ 32 := by
  cases form <;> decide

/-- How many bytes the length takes after the opcode. -/
def width : PushForm → Nat
  | direct => 0
  | oneByte => 1
  | twoBytes => 2
  | fourBytes => 4

theorem length_announce (form : PushForm) (length : Nat) : (form.announce length).length = form.width + 1 := by
  cases form <;> simp [announce, width]

theorem width_inj {a b : PushForm} (h : a.width = b.width) : a = b := by
  cases a <;> cases b <;> first | rfl | cases h

theorem width_shortest_le {form : PushForm} {length : Nat} (h : length < form.bound) :
    (shortest length).width ≤ form.width := by
  unfold shortest
  split
  · exact Nat.zero_le _
  · split
    · cases form <;> simp only [bound, width] at h ⊢ <;> omega
    · split <;> cases form <;> simp only [bound, width] at h ⊢ <;> omega

/-- Any other form takes more bytes. -/
theorem length_announce_shortest_lt {form : PushForm} {length : Nat} (h : length < form.bound)
    (hform : form ≠ shortest length) : ((shortest length).announce length).length < (form.announce length).length := by
  rw [length_announce, length_announce]
  have hne : (shortest length).width ≠ form.width := fun hwidth => hform (width_inj hwidth).symm
  exact Nat.add_lt_add_right (Nat.lt_of_le_of_ne (width_shortest_le h) hne) 1

/-- An announcement begins with an opcode that pushes data. -/
theorem exists_announce_eq {form : PushForm} {length : Nat} (h : length < form.bound) :
    ∃ code counted, form.announce length = code :: counted ∧ code ≤ Opcode.pushData4 := by
  cases form with
  | direct =>
    refine ⟨UInt8.ofNat length, [], rfl, UInt8.le_iff_toNat_le.mpr ?_⟩
    have hcode : length < 76 := h
    have hlast : Opcode.pushData4.toNat = 78 := rfl
    rw [UInt8.toNat_ofNat']
    omega
  | oneByte => exact ⟨_, _, rfl, by decide⟩
  | twoBytes => exact ⟨_, _, rfl, by decide⟩
  | fourBytes => exact ⟨_, _, rfl, by decide⟩

end PushForm

/-! ## What a push takes -/

theorem splitCounted_eq_some_iff {width : Nat} {rest data after : Bytes} :
    splitCounted width rest = some (data, after) ↔
      data.length < 256 ^ width ∧ rest = Bytes.natLE width data.length ++ (data ++ after) := by
  rw [splitCounted, Option.bind_eq_some_iff]
  constructor
  · rintro ⟨⟨size, tail⟩, hsize, htail⟩
    obtain ⟨rfl, rfl⟩ := Bytes.splitExact?_eq_some.mp hsize
    obtain ⟨rfl, hlength⟩ := Bytes.splitExact?_eq_some.mp htail
    rw [hlength, Bytes.natLE_toNatLE]
    exact ⟨Bytes.toNatLE_lt size, rfl⟩
  · rintro ⟨hlength, rfl⟩
    refine ⟨(Bytes.natLE width data.length, data ++ after),
      Bytes.splitExact?_eq_some.mpr ⟨rfl, Bytes.length_natLE _ _⟩, Bytes.splitExact?_eq_some.mpr ⟨rfl, ?_⟩⟩
    rw [Bytes.toNatLE_natLE, Nat.mod_eq_of_lt hlength]

theorem splitExact?_eq_none {n : Nat} {bytes : Bytes} : Bytes.splitExact? n bytes = none ↔ bytes.length < n := by
  unfold Bytes.splitExact?
  split <;> simp <;> omega

/-- The opcodes that push data. -/
theorem pushCode_cases {code : UInt8} (h : code ≤ Opcode.pushData4) :
    code.toNat < 76 ∨ code = Opcode.pushData1 ∨ code = Opcode.pushData2 ∨ code = Opcode.pushData4 := by
  have hle : code.toNat ≤ 78 := UInt8.le_iff_toNat_le.mp h
  simp only [← UInt8.toNat_inj, Opcode.pushData1, Opcode.pushData2, Opcode.pushData4, UInt8.reduceToNat]
  omega

theorem splitPush_of_lt {code : UInt8} (h : code.toNat < 76) (rest : Bytes) :
    splitPush code rest = Bytes.splitExact? code.toNat rest := by
  have hne : ∀ other : UInt8, 76 ≤ other.toNat → code ≠ other := by
    rintro other hother rfl
    exact Nat.not_lt.mpr hother h
  rw [splitPush, if_neg (hne _ (by decide)), if_neg (hne _ (by decide)), if_neg (hne _ (by decide))]

/-- A push takes the data that is announced, in any form. -/
theorem splitPush_eq_some_iff {code : UInt8} (hcode : code ≤ Opcode.pushData4) {rest data after : Bytes} :
    splitPush code rest = some (data, after) ↔
      ∃ form : PushForm, data.length < form.bound ∧ code :: rest = form.announce data.length ++ (data ++ after) := by
  constructor
  · intro h
    rcases pushCode_cases hcode with hlt | rfl | rfl | rfl
    · rw [splitPush_of_lt hlt] at h
      obtain ⟨rfl, hlength⟩ := Bytes.splitExact?_eq_some.mp h
      refine ⟨.direct, hlength ▸ hlt, ?_⟩
      rw [PushForm.announce, hlength, UInt8.ofNat_toNat, List.singleton_append]
    · obtain ⟨hlength, rfl⟩ := splitCounted_eq_some_iff.mp h
      exact ⟨.oneByte, hlength, rfl⟩
    · obtain ⟨hlength, rfl⟩ := splitCounted_eq_some_iff.mp h
      exact ⟨.twoBytes, hlength, rfl⟩
    · obtain ⟨hlength, rfl⟩ := splitCounted_eq_some_iff.mp h
      exact ⟨.fourBytes, hlength, rfl⟩
  · rintro ⟨form, hlength, heq⟩
    cases form with
    | direct =>
      obtain ⟨rfl, rfl⟩ := List.cons.inj heq
      have hlt : data.length < 76 := hlength
      have htoNat : (UInt8.ofNat data.length).toNat = data.length := UInt8.toNat_ofNat_of_lt' (Nat.lt_trans hlt (by decide))
      rw [splitPush_of_lt (by rw [htoNat]; exact hlt), htoNat]
      exact Bytes.splitExact?_eq_some.mpr ⟨rfl, rfl⟩
    | oneByte =>
      obtain ⟨rfl, rfl⟩ := List.cons.inj heq
      rw [splitPush, if_pos rfl]
      exact splitCounted_eq_some_iff.mpr ⟨hlength, rfl⟩
    | twoBytes =>
      obtain ⟨rfl, rfl⟩ := List.cons.inj heq
      rw [splitPush, if_neg (by decide), if_pos rfl]
      exact splitCounted_eq_some_iff.mpr ⟨hlength, rfl⟩
    | fourBytes =>
      obtain ⟨rfl, rfl⟩ := List.cons.inj heq
      rw [splitPush, if_neg (by decide), if_neg (by decide), if_pos rfl]
      exact splitCounted_eq_some_iff.mpr ⟨hlength, rfl⟩

/-- What follows a push does not matter to it. -/
theorem splitPush_append {code : UInt8} (hcode : code ≤ Opcode.pushData4) {rest data after : Bytes}
    (h : splitPush code rest = some (data, after)) (more : Bytes) :
    splitPush code (rest ++ more) = some (data, after ++ more) := by
  obtain ⟨form, hlength, heq⟩ := (splitPush_eq_some_iff hcode).mp h
  refine (splitPush_eq_some_iff hcode).mpr ⟨form, hlength, ?_⟩
  rw [← List.cons_append, heq, List.append_assoc, List.append_assoc]

/-! ## Pushes that are cut short -/

theorem exists_padding {bytes : Bytes} {length : Nat} (h : bytes.length < length) :
    ∃ missing, missing ≠ [] ∧ (bytes ++ missing).length = length := by
  refine ⟨List.replicate (length - bytes.length) 0, ?_, ?_⟩
  · rw [Ne, List.replicate_eq_nil_iff]
    omega
  · rw [List.length_append, List.length_replicate]
    omega

theorem exists_missing_of_splitCounted {width : Nat} {rest : Bytes} (h : splitCounted width rest = none) :
    ∃ data missing : Bytes, data.length < 256 ^ width ∧ missing ≠ [] ∧
      rest ++ missing = Bytes.natLE width data.length ++ data := by
  rw [splitCounted] at h
  cases hsize : Bytes.splitExact? width rest with
  | none =>
    -- The length itself is cut short: any length goes on from there, and all of the data is missing.
    obtain ⟨missing, hmissing, hwidth⟩ := exists_padding (splitExact?_eq_none.mp hsize)
    refine ⟨List.replicate (rest ++ missing).toNatLE 0, missing ++ List.replicate (rest ++ missing).toNatLE 0, ?_,
      List.append_ne_nil_of_left_ne_nil hmissing _, ?_⟩
    · rw [List.length_replicate, ← hwidth]
      exact Bytes.toNatLE_lt _
    · rw [List.length_replicate, ← List.append_assoc, ← hwidth, Bytes.natLE_toNatLE]
  | some parts =>
    obtain ⟨size, tail⟩ := parts
    obtain ⟨rfl, rfl⟩ := Bytes.splitExact?_eq_some.mp hsize
    rw [hsize, Option.bind_some] at h
    obtain ⟨missing, hmissing, hlength⟩ := exists_padding (splitExact?_eq_none.mp h)
    refine ⟨tail ++ missing, missing, ?_, hmissing, ?_⟩
    · rw [hlength]
      exact Bytes.toNatLE_lt size
    · rw [hlength, Bytes.natLE_toNatLE, List.append_assoc]

/-- Where a push finds too little, something is missing that would make it complete. -/
theorem exists_missing_of_splitPush {code : UInt8} (hcode : code ≤ Opcode.pushData4) {rest : Bytes}
    (h : splitPush code rest = none) :
    ∃ (form : PushForm) (data missing : Bytes), data.length < form.bound ∧ missing ≠ [] ∧
      code :: rest ++ missing = form.announce data.length ++ data := by
  rcases pushCode_cases hcode with hlt | rfl | rfl | rfl
  · rw [splitPush_of_lt hlt] at h
    obtain ⟨missing, hmissing, hlength⟩ := exists_padding (splitExact?_eq_none.mp h)
    refine ⟨.direct, rest ++ missing, missing, hlength ▸ hlt, hmissing, ?_⟩
    rw [PushForm.announce, hlength, UInt8.ofNat_toNat, List.singleton_append, List.cons_append]
  · obtain ⟨data, missing, hlength, hmissing, heq⟩ := exists_missing_of_splitCounted h
    exact ⟨.oneByte, data, missing, hlength, hmissing, congrArg (Opcode.pushData1 :: ·) heq⟩
  · obtain ⟨data, missing, hlength, hmissing, heq⟩ := exists_missing_of_splitCounted h
    exact ⟨.twoBytes, data, missing, hlength, hmissing, congrArg (Opcode.pushData2 :: ·) heq⟩
  · obtain ⟨data, missing, hlength, hmissing, heq⟩ := exists_missing_of_splitCounted h
    exact ⟨.fourBytes, data, missing, hlength, hmissing, congrArg (Opcode.pushData4 :: ·) heq⟩

/-! ## Elements -/

/-- A part of a script that is one operation. -/
inductive Element where
  /-- An opcode that pushes no data. -/
  | bare (code : UInt8) (pushesNothing : Opcode.pushData4 < code)
  /-- Data behind its length. -/
  | push (form : PushForm) (pushed : Bytes) (fits : pushed.length < form.bound)

namespace Element

def bytes : Element → Bytes
  | bare code _ => [code]
  | push form pushed _ => form.announce pushed.length ++ pushed

def op : Element → ScriptOp
  | bare code _ => ofCode code
  | push _ pushed _ => .data pushed

/-- A push announces its length in the shortest form. -/
def IsShortest : Element → Prop
  | bare _ _ => True
  | push form pushed _ => form = .shortest pushed.length

instance : DecidablePred IsShortest
  | bare _ _ => inferInstanceAs (Decidable True)
  | push form pushed _ => inferInstanceAs (Decidable (form = .shortest pushed.length))

end Element

/-- The script of elements as they stand. -/
def written (elements : List Element) : Bytes :=
  elements.flatMap Element.bytes

/-- The script ends within an element: there is a beginning of it, and more would have to follow. -/
def Truncated (script : Bytes) : Prop :=
  ∃ (elements : List Element) (last : Element) (front missing : Bytes), script = written elements ++ front ∧
    front ++ missing = last.bytes ∧ front ≠ [] ∧ missing ≠ []

/-! ## Reading elements -/

theorem read_nil : read [] = .ok [] := by rw [read]

theorem read_cons_push {code : UInt8} {rest after : Bytes} {bytes : Bytes} (hcode : code ≤ Opcode.pushData4)
    (h : splitPush code rest = some (bytes, after)) :
    read (code :: rest) = (read after).map (data bytes :: ·) := by
  rw [read, if_pos hcode]
  split
  · next hnone =>
    rw [h] at hnone
    cases hnone
  · next hsome =>
    rw [h] at hsome
    cases hsome
    rfl

theorem read_cons_cut {code : UInt8} {rest : Bytes} (hcode : code ≤ Opcode.pushData4)
    (h : splitPush code rest = none) : read (code :: rest) = .error (.script .truncated) := by
  rw [read, if_pos hcode]
  split
  · rfl
  · next hsome =>
    rw [h] at hsome
    cases hsome

theorem read_cons_code {code : UInt8} {rest : Bytes} (hcode : Opcode.pushData4 < code) :
    read (code :: rest) = (read rest).map (ofCode code :: ·) := by
  rw [read, if_neg (UInt8.not_le.mpr hcode)]

/-- An element is read as its operation, whatever follows. -/
theorem read_element_append (element : Element) (rest : Bytes) :
    read (element.bytes ++ rest) = (read rest).map (element.op :: ·) := by
  cases element with
  | bare code hcode => exact read_cons_code hcode
  | push form pushed fits =>
    obtain ⟨code, counted, hannounce, hcode⟩ := PushForm.exists_announce_eq fits
    have hsplit : splitPush code (counted ++ (pushed ++ rest)) = some (pushed, rest) :=
      (splitPush_eq_some_iff hcode).mpr ⟨form, fits, by rw [hannounce, List.cons_append]⟩
    rw [Element.bytes, hannounce, List.append_assoc, List.cons_append, read_cons_push hcode hsplit]
    rfl

theorem read_written_append (elements : List Element) (rest : Bytes) :
    read (written elements ++ rest) = (read rest).map (elements.map Element.op ++ ·) := by
  induction elements with
  | nil =>
    rw [written, List.flatMap_nil, List.nil_append]
    cases read rest <;> rfl
  | cons element others ih =>
    rw [written, List.flatMap_cons, List.append_assoc, read_element_append]
    rw [written] at ih
    rw [ih]
    cases read rest <;> rfl

/-- Elements are read as their operations. -/
theorem read_written (elements : List Element) : read (written elements) = .ok (elements.map Element.op) := by
  have h := read_written_append elements []
  rw [List.append_nil, read_nil] at h
  rw [h, Except.map, List.append_nil]

/-- A script that ends within an element is not read. -/
theorem read_truncated {script : Bytes} (h : Truncated script) : read script = .error (.script .truncated) := by
  obtain ⟨elements, last, front, missing, rfl, hlast, hfront, hmissing⟩ := h
  suffices hread : read front = .error (.script .truncated) by
    rw [read_written_append, hread]
    rfl
  obtain ⟨code, rest, rfl⟩ := List.exists_cons_of_ne_nil hfront
  cases last with
  | bare other hother =>
    -- Nothing can be missing of a single byte.
    obtain ⟨_, hnil⟩ := List.cons.inj hlast
    exact absurd (List.append_eq_nil_iff.mp hnil).2 hmissing
  | push form pushed fits =>
    obtain ⟨announcing, counted, hannounce, hcode⟩ := PushForm.exists_announce_eq fits
    rw [Element.bytes, hannounce] at hlast
    obtain ⟨rfl, hrest⟩ := List.cons.inj hlast
    -- A push that is complete already would take all of the element, and nothing of it would be missing.
    cases hsplit : splitPush code rest with
    | none => exact read_cons_cut hcode hsplit
    | some parts =>
      obtain ⟨taken, after⟩ := parts
      have hwhole : splitPush code (counted ++ (pushed ++ [])) = some (pushed, []) :=
        (splitPush_eq_some_iff hcode).mpr ⟨form, fits, by rw [hannounce, List.cons_append]⟩
      have hrest : rest ++ missing = counted ++ pushed := hrest
      rw [List.append_nil, ← hrest, splitPush_append hcode hsplit] at hwhole
      have hnothing : after ++ missing = [] := (Prod.mk.inj (Option.some.inj hwhole)).2
      exact absurd (List.append_eq_nil_iff.mp hnothing).2 hmissing

/-- The script is a row of elements, or it ends within one. -/
def Cut (script : Bytes) : Prop :=
  (∃ elements, script = written elements) ∨ Truncated script

theorem Cut.cons (element : Element) {rest : Bytes} (h : Cut rest) : Cut (element.bytes ++ rest) := by
  rcases h with ⟨elements, rfl⟩ | ⟨elements, last, front, missing, rfl, hlast⟩
  · exact .inl ⟨element :: elements, rfl⟩
  · refine .inr ⟨element :: elements, last, front, missing, ?_, hlast⟩
    rw [written, written, List.flatMap_cons, List.append_assoc]

theorem cut (script : Bytes) : Cut script := by
  fun_induction read script with
  | case1 => exact .inl ⟨[], rfl⟩
  | case2 code rest hcode hsplit =>
    obtain ⟨form, pushed, missing, fits, hmissing, heq⟩ := exists_missing_of_splitPush hcode hsplit
    exact .inr ⟨[], .push form pushed fits, code :: rest, missing, rfl, heq, List.cons_ne_nil _ _, hmissing⟩
  | case3 code rest hcode pushed after hsplit _ ih =>
    obtain ⟨form, fits, heq⟩ := (splitPush_eq_some_iff hcode).mp hsplit
    rw [heq, ← List.append_assoc]
    exact ih.cons (.push form pushed fits)
  | case4 code rest hcode ih => exact ih.cons (.bare code (UInt8.not_le.mp hcode))

/-- Exactly the scripts that do not end within an element are read. -/
theorem exists_read_iff {script : Bytes} : (∃ ops, read script = .ok ops) ↔ ¬ Truncated script := by
  constructor
  · rintro ⟨ops, hread⟩ htruncated
    rw [read_truncated htruncated] at hread
    cases hread
  · intro h
    obtain ⟨elements, rfl⟩ := (cut script).resolve_right h
    exact ⟨_, read_written elements⟩

theorem exists_elements_of_read {script : Bytes} {ops : List ScriptOp} (h : read script = .ok ops) :
    ∃ elements, script = written elements ∧ ops = elements.map Element.op := by
  obtain ⟨elements, rfl⟩ := (cut script).resolve_right (exists_read_iff.mp ⟨ops, h⟩)
  rw [read_written] at h
  exact ⟨elements, rfl, (Except.ok.inj h).symm⟩

end Vtxo.ScriptOp
