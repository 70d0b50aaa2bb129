import Vtxo.Contract.Basic
import Vtxo.Proofs.Leaf.ExitGrammar
import Vtxo.Proofs.Leaf.Keys

/-!
# Collaborative paths

A collaborative path ends in the operator's check and checks no sequence; an exit path checks one. So a script is taken
for one kind of path at most, and a collaborative path is recognised in its own script.

  1. `collaborativeOfScript_collaborative`: the operator's key and the script of the condition are found again.
  2. `exitOfScript_collaborative`, `collaborativeOfScript_unilateral`: neither kind is taken for the other.
-/

set_option autoImplicit false

namespace Vtxo.Leaf

open ScriptOp

/-! ## Sequence checks -/

theorem exitOfOps_of_lacks {ops : List ScriptOp} (h : Lacks Opcode.checkSequence ops) : exitOfOps ops = .ok none := by
  rw [exitOfOps, exitParts?, splitAtCode_of_lacks h]
  rfl

theorem collaborativeOfOps_of_mem {ops : List ScriptOp} (h : .op Opcode.checkSequence ∈ ops) :
    collaborativeOfOps ops = none := by
  have hany : ops.any (·.isCode Opcode.checkSequence) = true :=
    List.any_eq_true.mpr ⟨_, h, by simp [isCode]⟩
  rw [collaborativeOfOps, if_pos hany]

/-- What stands in front of the operator's check is the condition. -/
theorem collaborativeOfOps_append {condition : List ScriptOp} {push : ScriptOp} {server : XOnlyKey}
    (h : Lacks Opcode.checkSequence condition) (hkey : push.key? = some server) :
    collaborativeOfOps (condition ++ [push, .op Opcode.checkSig]) = some ⟨server, conditionOfOps condition⟩ := by
  -- What pushes a key is no opcode, so the script still lacks the check.
  have hpush : push.isCode Opcode.checkSequence = false := by
    cases push with
    | op code => cases hkey
    | int value => rfl
    | key k => rfl
    | data bytes => rfl
  have hpair : Lacks Opcode.checkSequence [push, .op Opcode.checkSig] :=
    List.forall_mem_cons.mpr ⟨hpush, List.forall_mem_singleton.mpr (by decide)⟩
  have hany : ¬ ((condition ++ [push, .op Opcode.checkSig]).any (·.isCode Opcode.checkSequence) = true) := by
    rw [List.any_eq_true]
    rintro ⟨o, hmem, hcode⟩
    rw [h.append hpair o hmem] at hcode
    cases hcode
  have hreverse : (condition ++ [push, .op Opcode.checkSig]).reverse =
      .op Opcode.checkSig :: push :: condition.reverse := by simp
  rw [collaborativeOfOps, if_neg hany, hreverse]
  simp only [isCode, beq_self_eq_true, if_true, hkey, Option.map_some, List.reverse_reverse]

/-! ## Recognising paths -/

theorem collaborativeOfScript_of_read {script : Bytes} {path : CollaborativePath} {ops : List ScriptOp}
    (hread : read script = .ok ops) (h : collaborativeOfOps ops = some path) :
    collaborativeOfScript script = .ok path :=
  bind_eq_ok.mpr ⟨ops, hread, by rw [h]; rfl⟩

/-- Operations that can stand in front of the operator's check. -/
structure IsServedGuard (condition : Option Leaf) : Prop where
  readable : ∀ o ∈ guardOps condition, o.Readable
  untimed : Lacks Opcode.checkSequence (guardOps condition)
  nonempty : ∀ inner, condition = some inner → inner.ops ≠ []

theorem isServedGuard_of_plain {condition : Leaf} (hplain : condition.Plain)
    (huntimed : Lacks Opcode.checkSequence condition.ops) (hne : condition.ops ≠ []) :
    IsServedGuard (some condition) where
  readable := (checksKeys_guard (some condition) hplain).readable
  untimed := by
    rw [guardOps]
    exact huntimed
  nonempty := fun inner hinner => Option.some.inj hinner ▸ hne

theorem isServedGuard_multisig (owner : XOnlyKey) (owners : List XOnlyKey) :
    IsServedGuard (some (multisig (owner :: owners))) := by
  refine isServedGuard_of_plain trivial ?_ (by simp [ops, verifyOps])
  rw [ops]
  exact lacks_verifyOps (by decide) _

theorem plain_preimageAndKey (lock : HashLock) (key : XOnlyKey) : (preimageAndKey lock key).Plain :=
  ⟨trivial, trivial, trivial⟩

theorem isServedGuard_preimageAndKey (lock : HashLock) (key : XOnlyKey) :
    IsServedGuard (some (preimageAndKey lock key)) := by
  refine isServedGuard_of_plain (plain_preimageAndKey lock key) ?_ (by simp [ops_preimageAndKey])
  rw [ops_preimageAndKey]
  have hverify : Lacks Opcode.checkSequence [.op Opcode.verify] := List.forall_mem_singleton.mpr (by decide)
  exact ((lacks_hashLock (by decide) (by decide) lock).append hverify).append (lacks_verifyOps (by decide) _)

theorem isServedGuard_lockTime (time : UInt32) (owners : List XOnlyKey) :
    IsServedGuard (some (composite [.lockTime time, .multisig owners])) := by
  have hops : (composite [.lockTime time, .multisig owners]).ops =
      [.int time.toNat, .op Opcode.checkLockTime, .op Opcode.drop] ++ verifyOps owners := by
    simp [ops, partsOps]
  refine isServedGuard_of_plain ⟨trivial, trivial, trivial⟩ ?_ (by simp [hops])
  rw [hops]
  have hcheck : Lacks Opcode.checkSequence [.int time.toNat, .op Opcode.checkLockTime, .op Opcode.drop] :=
    List.forall_mem_cons.mpr ⟨rfl, by decide⟩
  exact hcheck.append (lacks_verifyOps (by decide) _)

theorem IsServedGuard.read_script {condition : Option Leaf} (h : IsServedGuard condition) (server : XOnlyKey) :
    read (collaborative server condition).script =
      .ok ((guardOps condition).map asRead ++ [.data server.bytes, .op Opcode.checkSig]) := by
  have hpair : ReadAs [.key server, .op Opcode.checkSig] [.data server.bytes, .op Opcode.checkSig] :=
    .cons trivial rfl (.cons (by decide) (settled_op (by decide) (by decide)).asRead_eq readAs_nil)
  have hguard : ReadAs (guardOps condition) ((guardOps condition).map asRead) := ⟨h.readable, rfl⟩
  rw [script, ops]
  exact (hguard.append hpair).read_build

/-- A collaborative path is recognised in its own script, with the script of its condition. -/
theorem collaborativeOfScript_collaborative (server : XOnlyKey) {condition : Option Leaf}
    (h : IsServedGuard condition) :
    ∃ path, collaborativeOfScript (collaborative server condition).script = .ok path ∧ path.server = server ∧
      path.condition.map script = condition.map script := by
  refine ⟨⟨server, conditionOfOps ((guardOps condition).map asRead)⟩, ?_, rfl,
    script_conditionOfOps h.readable h.nonempty⟩
  exact collaborativeOfScript_of_read (h.read_script server)
    (collaborativeOfOps_append (h.untimed.map_asRead (by decide)) server.ofBytes?_bytes)

/-- A collaborative path is no exit path. -/
theorem exitOfScript_collaborative (server : XOnlyKey) {condition : Option Leaf} (h : IsServedGuard condition) :
    exitOfScript (collaborative server condition).script = .error (.script .notExitPath) := by
  have hpair : Lacks Opcode.checkSequence [.data server.bytes, .op Opcode.checkSig] :=
    List.forall_mem_cons.mpr ⟨rfl, List.forall_mem_singleton.mpr (by decide)⟩
  rw [exitOfScript, h.read_script server]
  simp only [bind, Except.bind]
  rw [exitOfOps_of_lacks ((h.untimed.map_asRead (by decide)).append hpair)]
  rfl

/-- An exit path is no collaborative path. -/
theorem collaborativeOfScript_unilateral {terms : ExitTerms} {condition : Option Leaf}
    (h : ∀ inner, condition = some inner → inner.IsExitCondition) :
    collaborativeOfScript (unilateral terms condition).script = .error (.script .notCollaborativePath) := by
  have hmem : .op Opcode.checkSequence ∈ (unilateral terms condition).ops := by
    rw [ops_unilateral_eq]
    simp
  have hread : .op Opcode.checkSequence ∈ (unilateral terms condition).ops.map asRead :=
    List.mem_map.mpr ⟨_, hmem, (settled_op (by decide) (by decide)).asRead_eq⟩
  rw [collaborativeOfScript, script, read_build (readable_unilateral h)]
  simp only [bind, Except.bind]
  rw [collaborativeOfOps_of_mem hread]
  rfl

end Vtxo.Leaf
