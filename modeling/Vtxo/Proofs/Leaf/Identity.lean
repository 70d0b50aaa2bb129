import Vtxo.Proofs.Leaf.CollaborativePaths

/-!
# What a script tells of its leaf

A script forgets the kinds of its pushes, but not their values. Leaves with one script are read as the same operations,
so they have as many operations and check the same keys, and numbers and hash locks at the front are the same. The
leaves of contracts have four shapes, and within each of them nothing of a leaf is lost.

  1. `map_asRead_of_build_eq`: one script is read in one way.
  2. `keys_of_script_eq`, `length_ops_of_script_eq`: what leaves with one script share.
  3. `multisig_of_script_eq`, `preimageAndKey_of_script_eq`, `lockTime_of_script_eq`, `terms_of_script_eq`: the shapes.
-/

set_option autoImplicit false

namespace Vtxo

namespace ScriptOp

theorem map_asRead_of_build_eq {ops others : List ScriptOp} (h : ∀ o ∈ ops, o.Readable)
    (h' : ∀ o ∈ others, o.Readable) (hsame : build ops = build others) : ops.map asRead = others.map asRead := by
  have hread := read_build h
  rw [hsame, read_build h', Except.ok.injEq] at hread
  exact hread.symm

/-- Numbers are told apart, with an opcode or without one. -/
theorem asRead_int_inj {a b : Int} (h : (int a).asRead = (int b).asRead) : a = b := by
  rw [asRead, asRead] at h
  split at h
  · split at h
    · exact int.inj h
    · cases h
  · split at h
    · cases h
    · have hvalue := congrArg ScriptNumber.value (data.inj h)
      rwa [ScriptNumber.value_encode, ScriptNumber.value_encode] at hvalue

end ScriptOp

namespace HashLock

open ScriptOp

theorem length_ops (lock : HashLock) : lock.ops.length = 3 := by
  cases lock <;> rfl

theorem map_asRead_ops (lock : HashLock) : lock.ops.map asRead = lock.ops := by
  cases lock <;> rfl

/-- The kind of a digest is the opcode in front of it. -/
theorem ops_inj {a b : HashLock} (h : a.ops = b.ops) : a = b := by
  cases a with
  | sha256 digest =>
    cases b with
    | sha256 other =>
      have hdigest : digest.val = other.val := by simpa [ops] using h
      rw [Subtype.ext hdigest]
    | hash160 other => simp [ops, Opcode.sha256, Opcode.hash160] at h
  | hash160 digest =>
    cases b with
    | sha256 other => simp [ops, Opcode.sha256, Opcode.hash160] at h
    | hash160 other =>
      have hdigest : digest.val = other.val := by simpa [ops] using h
      rw [Subtype.ext hdigest]

/-- A hash lock at the front is the same in all lists of operations that are read alike. -/
theorem eq_of_map_asRead_append {a b : HashLock} {rest rest' : List ScriptOp}
    (h : (a.ops ++ rest).map asRead = (b.ops ++ rest').map asRead) : a = b := by
  rw [List.map_append, List.map_append, a.map_asRead_ops, b.map_asRead_ops] at h
  exact ops_inj (List.append_inj h (by rw [a.length_ops, b.length_ops])).1

end HashLock

theorem ExitTerms.single_inj {delay delay' : Delay} {owner owner' : XOnlyKey}
    (h : single delay owner = single delay' owner') : delay = delay' ∧ owner = owner' := by
  simpa [single] using h

theorem ExitTerms.pair_inj {delay delay' : Delay} {first first' second second' : XOnlyKey}
    (h : pair delay first second = pair delay' first' second') :
    delay = delay' ∧ first = first' ∧ second = second' := by
  simpa [pair] using h

namespace Leaf

open ScriptOp

/-! ## Leaves with one script -/

theorem map_asRead_of_script_eq {a b : Leaf} (ha : a.Plain) (hb : b.Plain) (h : a.script = b.script) :
    a.ops.map asRead = b.ops.map asRead :=
  map_asRead_of_build_eq (checksKeys a ha).readable (checksKeys b hb).readable h

theorem length_ops_of_script_eq {a b : Leaf} (ha : a.Plain) (hb : b.Plain) (h : a.script = b.script) :
    a.ops.length = b.ops.length := by
  have hlength := congrArg List.length (map_asRead_of_script_eq ha hb h)
  rwa [List.length_map, List.length_map] at hlength

theorem keys_of_script_eq {a b : Leaf} (ha : a.Plain) (hb : b.Plain) (h : a.script = b.script) : a.keys = b.keys := by
  have hkeys : signingKeys a.script = .ok a.keys := (checksKeys a ha).signingKeys_build
  rw [h] at hkeys
  exact Except.ok.inj (hkeys.symm.trans (checksKeys b hb).signingKeys_build)

/-! ## The shapes of leaves -/

theorem keys_collaborative (server : XOnlyKey) (condition : Leaf) :
    (collaborative server (some condition)).keys = condition.keys ++ [server] := by
  rw [keys, guardKeys]

theorem plain_collaborative (server : XOnlyKey) {condition : Leaf} (h : condition.Plain) :
    (collaborative server (some condition)).Plain := h

/-- The operator's key is the last one that is checked. -/
theorem keys_of_collaborative_eq {server server' : XOnlyKey} {condition condition' : Leaf} (hplain : condition.Plain)
    (hplain' : condition'.Plain)
    (h : (collaborative server (some condition)).script = (collaborative server' (some condition')).script) :
    server = server' ∧ condition.keys = condition'.keys := by
  have hkeys := keys_of_script_eq (plain_collaborative server hplain) (plain_collaborative server' hplain') h
  rw [keys_collaborative, keys_collaborative] at hkeys
  obtain ⟨hcondition, hserver⟩ := List.append_inj' hkeys rfl
  exact ⟨List.singleton_inj.mp hserver, hcondition⟩

theorem multisig_of_script_eq {server server' : XOnlyKey} {owners owners' : List XOnlyKey}
    (h : (collaborative server (some (multisig owners))).script =
      (collaborative server' (some (multisig owners'))).script) : server = server' ∧ owners = owners' := by
  have hplain : ∀ owners, (multisig owners).Plain := fun _ => trivial
  obtain ⟨hserver, howners⟩ := keys_of_collaborative_eq (hplain owners) (hplain owners') h
  rw [keys, keys] at howners
  exact ⟨hserver, howners⟩

theorem keys_preimageAndKey (lock : HashLock) (key : XOnlyKey) : (preimageAndKey lock key).keys = [key] := by
  simp [preimageAndKey, keys, partsKeys]

theorem preimageAndKey_of_script_eq {server server' key key' : XOnlyKey} {lock lock' : HashLock}
    (h : (collaborative server (some (preimageAndKey lock key))).script =
      (collaborative server' (some (preimageAndKey lock' key'))).script) :
    server = server' ∧ lock = lock' ∧ key = key' := by
  have hread := map_asRead_of_script_eq (plain_collaborative server (plain_preimageAndKey lock key))
    (plain_collaborative server' (plain_preimageAndKey lock' key')) h
  simp only [ops, guardOps, ops_preimageAndKey, List.append_assoc] at hread
  obtain ⟨hserver, hkey⟩ :=
    keys_of_collaborative_eq (plain_preimageAndKey lock key) (plain_preimageAndKey lock' key') h
  rw [keys_preimageAndKey, keys_preimageAndKey] at hkey
  exact ⟨hserver, HashLock.eq_of_map_asRead_append hread, List.singleton_inj.mp hkey⟩

theorem lockTime_of_script_eq {server server' : XOnlyKey} {time time' : UInt32} {owners owners' : List XOnlyKey}
    (h : (collaborative server (some (composite [.lockTime time, .multisig owners]))).script =
      (collaborative server' (some (composite [.lockTime time', .multisig owners']))).script) :
    server = server' ∧ time = time' ∧ owners = owners' := by
  have hplain : ∀ (time : UInt32) (owners : List XOnlyKey), (composite [.lockTime time, .multisig owners]).Plain :=
    fun time owners => ⟨trivial, trivial, trivial⟩
  have hread := map_asRead_of_script_eq (plain_collaborative server (hplain time owners))
    (plain_collaborative server' (hplain time' owners')) h
  simp only [ops, guardOps, partsOps, List.cons_append, List.map_cons, List.cons.injEq] at hread
  have htime : (time.toNat : Int) = time'.toNat := asRead_int_inj hread.1
  obtain ⟨hserver, howners⟩ := keys_of_collaborative_eq (hplain time owners) (hplain time' owners') h
  refine ⟨hserver, UInt32.toNat_inj.mp (Int.ofNat_inj.mp htime), ?_⟩
  simpa [keys, partsKeys] using howners

/-- A script has the delay of one exit path only, in one unit, and its owners. -/
theorem terms_of_script_eq {terms terms' : ExitTerms} {condition condition' : Option Leaf}
    (h : ∀ inner, condition = some inner → inner.IsExitCondition)
    (h' : ∀ inner, condition' = some inner → inner.IsExitCondition)
    (hsame : (unilateral terms condition).script = (unilateral terms' condition').script) : terms = terms' := by
  obtain ⟨path, hpath, hterms, _⟩ := @exitOfScript_unilateral terms condition h
  obtain ⟨path', hpath', hterms', _⟩ := @exitOfScript_unilateral terms' condition' h'
  rw [hsame, hpath', Except.ok.injEq] at hpath
  rw [← hterms, ← hpath, hterms']

theorem terms_of_unconditional_eq {terms terms' : ExitTerms}
    (h : (unilateral terms none).script = (unilateral terms' none).script) : terms = terms' :=
  terms_of_script_eq isExitCondition_of_none isExitCondition_of_none h

end Leaf

end Vtxo
