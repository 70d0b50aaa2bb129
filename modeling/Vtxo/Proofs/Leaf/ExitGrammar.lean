import Vtxo.Proofs.Leaf.NormalForm

/-!
# The grammar of exit paths

An exit path is found in a script by the first sequence check: what stands in front of it is the delay and, before a
verification, the condition; what follows is the drop of the delay and the owners. A condition may be any leaf that
does not check a sequence itself and that is read as as many operations as were written. Then the parts that are found
are the parts that were written. The other way round, a script with these parts is the script of its exit path up to
how the delay is pushed.

  1. `exitOfScript_unilateral`: an exit path is recognised in its own script.
  2. `read_script_of_exitOfScript`: scripts that are recognised say what the exit path says.
  3. `exitOfScript_complete_and_sound`: both.
-/

set_option autoImplicit false

namespace Vtxo

namespace ScriptOp

/-! ## Owners -/

theorem key?_asRead_key (k : XOnlyKey) : (key k).asRead.key? = some k := by
  rw [asRead, key?, XOnlyKey.ofBytes?_bytes]

/-- The keys that were written before checks are found there again. -/
theorem owners?_map_asRead : (owners : List XOnlyKey) → owners ≠ [] →
    owners? ((checkOps owners).map asRead) = some owners
  | [], h => absurd rfl h
  | [owner], _ => by
    have hcheck : (op Opcode.checkSig).asRead.isCode Opcode.checkSig = true := by decide
    rw [checkOps, List.map_cons, List.map_cons, List.map_nil, owners?, if_pos hcheck, key?_asRead_key]
    rfl
  | owner :: next :: rest, _ => by
    have hcheck : (op Opcode.checkSigVerify).asRead = op Opcode.checkSigVerify :=
      (settled_op (by decide) (by decide)).asRead_eq
    have hne : (checkOps (next :: rest)).map asRead ≠ [] := by
      cases rest <;> simp [checkOps]
    have hrest := owners?_map_asRead (next :: rest) (List.cons_ne_nil _ _)
    rw [checkOps_cons owner (List.cons_ne_nil _ _), List.map_append, List.map_cons, List.map_cons, List.map_nil,
      List.cons_append, List.cons_append, List.nil_append, owners?.eq_2 _ _ _ (fun hnil => hne hnil), hcheck,
      key?_asRead_key, hrest]
    rfl

end ScriptOp

namespace Leaf

open ScriptOp

/-! ## Conditions -/

/-- A leaf that can be the condition of an exit path. It has operations and none of them checks a sequence, so the first
such check is that of the delay. Bare opcodes announce no data, numbers are of 64 bits and have a negation, and the
length of data can be written, so that each operation is read as one. -/
structure IsExitCondition (inner : Leaf) : Prop where
  nonempty : inner.ops ≠ []
  untimed : Lacks Opcode.checkSequence inner.ops
  codes : ∀ code, .op code ∈ inner.ops → Opcode.pushData4 < code
  numbers : ∀ value, .int value ∈ inner.ops → -2 ^ 63 < value ∧ value < 2 ^ 63
  lengths : ∀ bytes, .data bytes ∈ inner.ops → bytes.length < 2 ^ 32

theorem IsExitCondition.readable {inner : Leaf} (h : inner.IsExitCondition) : ∀ o ∈ inner.ops, o.Readable := by
  intro o hmem
  cases o with
  | op code => exact h.codes code hmem
  | int value =>
    obtain ⟨hlow, hhigh⟩ := h.numbers value hmem
    have hlt : value.natAbs < ScriptNumber.signWeight 8 := by
      rw [ScriptNumber.signWeight_eq]
      omega
    rw [Readable, ScriptNumber.length_encode]
    exact Nat.lt_of_le_of_lt ((ScriptNumber.width_le_iff (by decide)).mpr hlt) (by decide)
  | key k => trivial
  | data bytes => exact h.lengths bytes hmem

theorem isExitCondition_hashLock (lock : HashLock) : (hashLock lock).IsExitCondition where
  nonempty := by cases lock <;> simp [ops, HashLock.ops]
  untimed := by
    rw [ops]
    exact lacks_hashLock (by decide) (by decide) lock
  codes := fun code hmem => by
    rw [ops] at hmem
    exact readable_hashLock lock _ hmem
  numbers := fun value hmem => by cases lock <;> simp [ops, HashLock.ops] at hmem
  lengths := fun bytes hmem => by
    rw [ops] at hmem
    exact readable_hashLock lock _ hmem

theorem isExitCondition_of_none (inner : Leaf) (h : none = some inner) : inner.IsExitCondition := nomatch h

theorem isExitCondition_of_hashLock (lock : HashLock) (inner : Leaf) (h : some (hashLock lock) = some inner) :
    inner.IsExitCondition :=
  Option.some.inj h ▸ isExitCondition_hashLock lock

/-- Operations that can stand in front of the delay of an exit path. -/
structure IsExitGuard (condition : Option Leaf) : Prop where
  readable : ∀ o ∈ exitGuardOps condition, o.Readable
  untimed : Lacks Opcode.checkSequence (exitGuardOps condition)

theorem isExitGuard_of_condition {condition : Option Leaf}
    (h : ∀ inner, condition = some inner → inner.IsExitCondition) : IsExitGuard condition := by
  cases condition with
  | none => exact ⟨List.forall_mem_nil _, List.forall_mem_nil _⟩
  | some inner =>
    have hinner := h inner rfl
    have hverify : Lacks Opcode.checkSequence [.op Opcode.verify] := by
      simp [Lacks, isCode]
      decide
    refine ⟨List.forall_mem_append.mpr ⟨hinner.readable, ?_⟩, hinner.untimed.append hverify⟩
    exact List.forall_mem_cons.mpr ⟨by decide, List.forall_mem_nil _⟩

/-- What is found in front of the delay is what was read of the condition. -/
theorem exitCondition?_map_asRead {condition : Option Leaf} (h : ∀ inner, condition = some inner → inner.ops ≠ []) :
    exitCondition? ((exitGuardOps condition).map asRead) =
      some (conditionOfOps ((guardOps condition).map asRead)) := by
  cases condition with
  | none =>
    rw [exitGuardOps, guardOps]
    rfl
  | some inner =>
    have hverify : (op Opcode.verify).asRead = op Opcode.verify :=
      (settled_op (by decide) (by decide)).asRead_eq
    have hne : (inner.ops.map asRead).isEmpty = false := by
      simpa using h inner rfl
    rw [exitGuardOps, guardOps, List.map_append, List.map_cons, List.map_nil, hverify, exitCondition?,
      List.getLast?_concat]
    simp only [List.dropLast_concat, hne, isCode, beq_self_eq_true, Bool.not_false, Bool.and_self, if_true]

/-- The leaf that is found for a condition may be another one, and has its script. -/
theorem script_conditionOfOps {condition : Option Leaf} (hreadable : ∀ o ∈ guardOps condition, o.Readable)
    (hne : ∀ inner, condition = some inner → inner.ops ≠ []) :
    (conditionOfOps ((guardOps condition).map asRead)).map script = condition.map script := by
  have hsettled := settled_of_read (read_build hreadable)
  have hbuild := (readAs_conditionOfOps hsettled).build_eq
  rw [build_map_asRead] at hbuild
  cases condition with
  | none =>
    rw [guardOps]
    rfl
  | some inner =>
    rw [guardOps] at hbuild ⊢
    cases hfound : conditionOfOps (inner.ops.map asRead) with
    | none =>
      have hempty : (inner.ops.map asRead).isEmpty = false := by
        simpa using hne inner rfl
      rw [conditionOfOps, if_neg (by rw [hempty]; decide)] at hfound
      split at hfound <;> cases hfound
    | some found =>
      rw [hfound, guardOps] at hbuild
      exact congrArg some hbuild

/-! ## Exit paths -/

/-- The parts of an exit path that was written are found again. -/
theorem exitParts?_map_asRead {terms : ExitTerms} {condition : Option Leaf}
    (h : ∀ inner, condition = some inner → inner.IsExitCondition) :
    exitParts? ((unilateral terms condition).ops.map asRead) =
      some ((terms.delay.sequence.toNat : Int), terms.owners,
        conditionOfOps ((guardOps condition).map asRead)) := by
  let number : ScriptOp := .int terms.delay.sequence.toNat
  have hsequence : (op Opcode.checkSequence).asRead = op Opcode.checkSequence :=
    (settled_op (by decide) (by decide)).asRead_eq
  have hdrop : (op Opcode.drop).asRead = op Opcode.drop := (settled_op (by decide) (by decide)).asRead_eq
  have hops : (unilateral terms condition).ops.map asRead =
      (exitGuardOps condition).map asRead ++ [number.asRead] ++
        .op Opcode.checkSequence :: .op Opcode.drop :: (checkOps terms.owners).map asRead := by
    simp only [ops_unilateral_eq, List.map_append, List.map_cons, List.map_nil, hsequence, hdrop, number]
  have hnumber : Lacks Opcode.checkSequence [number] := by simp [Lacks, isCode, number]
  have hlacks : Lacks Opcode.checkSequence ((exitGuardOps condition).map asRead ++ [number.asRead]) :=
    ((isExitGuard_of_condition h).untimed.map_asRead (by decide)).append (hnumber.map_asRead (by decide))
  have hshort : (terms.delay.sequence.toNat : Int).natAbs < 2 ^ 31 :=
    Nat.lt_of_lt_of_le terms.delay.sequence_lt (by decide)
  have hint : number.asRead.int? = some (terms.delay.sequence.toNat : Int) := by
    rw [int?_asRead_int, if_pos hshort]
  exact exitParts?_eq_some.mpr ⟨_, _, _, hops, hlacks, hint, owners?_map_asRead _ terms.nonempty,
    exitCondition?_map_asRead fun inner hinner => (h inner hinner).nonempty⟩

theorem readable_unilateral {terms : ExitTerms} {condition : Option Leaf}
    (h : ∀ inner, condition = some inner → inner.IsExitCondition) :
    ∀ o ∈ (unilateral terms condition).ops, o.Readable := by
  rw [ops_unilateral_eq]
  refine List.forall_mem_append.mpr ⟨List.forall_mem_append.mpr ⟨(isExitGuard_of_condition h).readable, ?_⟩, ?_⟩
  · exact List.forall_mem_cons.mpr ⟨readable_word _, List.forall_mem_nil _⟩
  · exact List.forall_mem_cons.mpr ⟨by decide, List.forall_mem_cons.mpr ⟨by decide, readable_checkOps _⟩⟩

/-- An exit path is recognised in its own script, with the script of its condition. -/
theorem exitOfScript_unilateral {terms : ExitTerms} {condition : Option Leaf}
    (h : ∀ inner, condition = some inner → inner.IsExitCondition) :
    ∃ path, exitOfScript (unilateral terms condition).script = .ok path ∧ path.terms = terms ∧
      path.condition.map script = condition.map script := by
  have hguard : ∀ o ∈ guardOps condition, o.Readable := by
    cases condition with
    | none =>
      rw [guardOps]
      exact List.forall_mem_nil _
    | some inner =>
      rw [guardOps]
      exact (h inner rfl).readable
  refine ⟨⟨terms, conditionOfOps ((guardOps condition).map asRead)⟩, ?_, rfl,
    script_conditionOfOps hguard fun inner hinner => (h inner hinner).nonempty⟩
  exact exitOfScript_eq_ok.mpr ⟨_, read_build (readable_unilateral h),
    exitOfOps_of_exitParts? (word?_toNat _) (exitParts?_map_asRead h)⟩

/-- A script that is recognised and the script of its exit path have the same operations, but for the pushes of the
delay, which are the same number. -/
theorem read_script_of_exitOfScript {script : Bytes} {path : ExitPath} (h : exitOfScript script = .ok path) :
    ∃ before push written after,
      read script = .ok (before ++ [push] ++ .op Opcode.checkSequence :: .op Opcode.drop :: after) ∧
      read path.leaf.script = .ok (before ++ [written] ++ .op Opcode.checkSequence :: .op Opcode.drop :: after) ∧
      Lacks Opcode.checkSequence (before ++ [push]) ∧
      push.int? = some (path.terms.delay.sequence.toNat : Int) ∧ written.int? = push.int? := by
  obtain ⟨ops, hread, hexit⟩ := exitOfScript_eq_ok.mp h
  obtain ⟨before, push, after, rfl, hlacks, hvalue, _, _, hwritten⟩ :=
    exists_push_of_exitOfOps (settled_of_read hread) hexit
  have hshort : (path.terms.delay.sequence.toNat : Int).natAbs < 2 ^ 31 :=
    Nat.lt_of_lt_of_le path.terms.delay.sequence_lt (by decide)
  refine ⟨before, push, _, after, hread, hwritten.read_build, hlacks, hvalue, ?_⟩
  rw [int?_asRead_int, if_pos hshort, hvalue]

/-- The exit paths that are recognised are those that are written: each is recognised in its own script, with its delay,
its owners and the script of its condition, and a script in which one is recognised differs from the script of that
exit path in how the delay is pushed at most. -/
theorem exitOfScript_complete_and_sound :
    (∀ lock owners terms condition, ExitTerms.make lock owners = .ok terms →
      (∀ inner, condition = some inner → inner.IsExitCondition) →
      ∃ path, exitOfScript (unilateral terms condition).script = .ok path ∧
        path.terms.delay.lock = lock ∧ path.terms.owners = owners ∧
        path.condition.map script = condition.map script) ∧
    (∀ script path, exitOfScript script = .ok path →
      ∃ before push written after,
        read script = .ok (before ++ [push] ++ .op Opcode.checkSequence :: .op Opcode.drop :: after) ∧
        read path.leaf.script = .ok (before ++ [written] ++ .op Opcode.checkSequence :: .op Opcode.drop :: after) ∧
        Lacks Opcode.checkSequence (before ++ [push]) ∧
        push.int? = some (path.terms.delay.sequence.toNat : Int) ∧ written.int? = push.int?) := by
  refine ⟨fun lock owners terms condition hterms hcondition => ?_,
    fun script path h => read_script_of_exitOfScript h⟩
  obtain ⟨rfl, rfl⟩ := ExitTerms.make_eq_ok.mp hterms
  obtain ⟨path, hpath, hfound, hscript⟩ := @exitOfScript_unilateral terms condition hcondition
  exact ⟨path, hpath, by rw [hfound], by rw [hfound], hscript⟩

/-- A condition of a hash lock and of operations that a script forgets the kind of: the opcode of a number is read as
the number, and a key and a long number as data. -/
def mixedCondition : Leaf :=
  .composite [.hashLock (.sha256 ⟨List.replicate 32 7, by decide⟩), .verify (.generic [.op Opcode.one]),
    .multisig [unspendableKey], .generic [.int (-2 ^ 40), .data []]]

theorem ops_mixedCondition : mixedCondition.ops =
    [.op Opcode.sha256, .data (List.replicate 32 7), .op Opcode.equal, .op Opcode.one, .op Opcode.verify,
      .key unspendableKey, .op Opcode.checkSigVerify, .int (-2 ^ 40), .data []] := by
  simp [mixedCondition, ops, partsOps, HashLock.ops, verifyOps]

theorem isExitCondition_mixedCondition : mixedCondition.IsExitCondition := by
  constructor <;> rw [ops_mixedCondition]
  · exact List.cons_ne_nil _ _
  · simp [Lacks, isCode]
    decide
  · simp
    decide
  · simp
  · simp

theorem exists_exitOfScript_looseExit :
    ∃ path, exitOfScript looseExit = .ok path ∧ path.leaf.script ≠ looseExit := by
  have hexit : (exitOfScript looseExit).map (fun path => path.leaf.script != looseExit) = .ok true := by
    decide +kernel
  obtain ⟨path, hpath, hne⟩ := map_eq_ok.mp hexit
  exact ⟨path, hpath, bne_iff_ne.mp hne⟩

theorem exitOfScript_complete_and_sound_loose :
    ExitTerms.make (.blocks 5) [unspendableKey] = .ok (.single (.ofBlocks 5) unspendableKey) ∧
      mixedCondition.IsExitCondition ∧
      (∃ path, exitOfScript (unilateral (.single (.ofBlocks 5) unspendableKey) (some mixedCondition)).script =
          .ok path ∧ path.terms.delay.lock = .blocks 5 ∧ path.terms.owners = [unspendableKey] ∧
        path.condition.map script = some mixedCondition.script) ∧
      ∃ path, exitOfScript looseExit = .ok path ∧ path.leaf.script ≠ looseExit ∧
        ∃ before push written after,
          read looseExit = .ok (before ++ [push] ++ .op Opcode.checkSequence :: .op Opcode.drop :: after) ∧
          read path.leaf.script = .ok (before ++ [written] ++ .op Opcode.checkSequence :: .op Opcode.drop :: after) ∧
          Lacks Opcode.checkSequence (before ++ [push]) ∧
          push.int? = some (path.terms.delay.sequence.toNat : Int) ∧ written.int? = push.int? := by
  have hterms : ExitTerms.make (.blocks 5) [unspendableKey] = .ok (.single (.ofBlocks 5) unspendableKey) :=
    ExitTerms.make_eq_ok.mpr ⟨rfl, rfl⟩
  have hcondition : ∀ inner, some mixedCondition = some inner → inner.IsExitCondition := by
    rintro _ ⟨⟩
    exact isExitCondition_mixedCondition
  obtain ⟨hcomplete, hsound⟩ := exitOfScript_complete_and_sound
  obtain ⟨path, hpath, hne⟩ := exists_exitOfScript_looseExit
  exact ⟨hterms, isExitCondition_mixedCondition, hcomplete _ _ _ _ hterms hcondition, path, hpath, hne,
    hsound looseExit path hpath⟩

end Leaf

end Vtxo
