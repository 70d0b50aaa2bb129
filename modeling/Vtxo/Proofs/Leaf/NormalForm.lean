import Vtxo.Proofs.Script.ShortestForm
import Vtxo.Proofs.Script.Timelocks
import Vtxo.Proofs.Success
import Vtxo.Taproot.Commitment

/-!
# Normal forms of leaves

A script may be written in several ways and still be recognised as one leaf: pushes may be longer than needed, and a
small delay may be pushed as data. The script of the leaf itself is its normal form, and is recognised as the same leaf
again.

  1. `readAs_collaborative`, `readAs_multisig`: operations that were recognised are those of the leaf, once read.
  2. `exitOfOps_of_exitParts?`: an exit path is recognised by its number, not by how that was pushed.
  3. `Leaf.ofScript_script`: recognising a leaf, writing it and recognising it again changes nothing.
  4. `Leaf.exit_script_eq_iff`: which exit paths are in normal form already.
-/

set_option autoImplicit false

namespace Vtxo

namespace ScriptOp

/-! ## Keys and checks -/

theorem isCode_iff {code : UInt8} {o : ScriptOp} : o.isCode code = true ↔ o = op code := by
  cases o <;> simp [isCode]

/-- Data that is taken for a key is what the key is read as. -/
theorem asRead_key {o : ScriptOp} {k : XOnlyKey} (hsettled : o.Settled) (hkey : o.key? = some k) :
    (key k).asRead = o := by
  cases o with
  | op code => cases hkey
  | int value => cases hkey
  | key other =>
    have hne : data other.bytes = key other := hsettled.asRead_eq
    cases hne
  | data bytes => rw [asRead, XOnlyKey.ofBytes?_eq_some.mp hkey]

theorem readAs_check {o check : ScriptOp} {k : XOnlyKey} {code : UInt8} (hsettled : o.Settled)
    (hkey : o.key? = some k) (hcheck : check.isCode code = true) (hcode : (op code).Settled) :
    ReadAs [key k, op code] [o, check] := by
  rw [isCode_iff.mp hcheck]
  exact .cons trivial (asRead_key hsettled hkey) (.cons hcode.readable hcode.asRead_eq readAs_nil)

theorem settled_op {code : UInt8} (h : Opcode.pushData4 < code) (hsmall : smallInt? code = none) :
    (op code).Settled :=
  ⟨h, by rw [asRead, ofCode, hsmall]⟩

/-- What the first pair of several says. -/
theorem verifiedKeys?_pair {o check : ScriptOp} {rest : List ScriptOp} {owners : List XOnlyKey}
    (h : verifiedKeys? (o :: check :: rest) = some owners) :
    check.isCode Opcode.checkSigVerify = true ∧
      ∃ k keys, o.key? = some k ∧ verifiedKeys? rest = some keys ∧ owners = k :: keys := by
  rw [verifiedKeys?] at h
  cases hcheck : check.isCode Opcode.checkSigVerify with
  | false =>
    rw [hcheck] at h
    cases h
  | true =>
    rw [hcheck] at h
    obtain ⟨k, hkey, h⟩ := Option.bind_eq_some_iff.mp h
    obtain ⟨keys, hkeys, h⟩ := Option.bind_eq_some_iff.mp h
    cases h
    exact ⟨rfl, k, keys, hkey, hkeys, rfl⟩

/-- The same where the last pair leaves its result. -/
theorem owners?_pair {o check next : ScriptOp} {rest : List ScriptOp} {owners : List XOnlyKey}
    (h : owners? (o :: check :: next :: rest) = some owners) :
    check.isCode Opcode.checkSigVerify = true ∧
      ∃ k keys, o.key? = some k ∧ owners? (next :: rest) = some keys ∧ owners = k :: keys := by
  rw [owners?.eq_2 o check (next :: rest) (fun hnil => nomatch hnil)] at h
  cases hcheck : check.isCode Opcode.checkSigVerify with
  | false =>
    rw [hcheck] at h
    cases h
  | true =>
    rw [hcheck] at h
    obtain ⟨k, hkey, h⟩ := Option.bind_eq_some_iff.mp h
    obtain ⟨keys, hkeys, h⟩ := Option.bind_eq_some_iff.mp h
    cases h
    exact ⟨rfl, k, keys, hkey, hkeys, rfl⟩

theorem owners?_last {o check : ScriptOp} {owners : List XOnlyKey} (h : owners? [o, check] = some owners) :
    check.isCode Opcode.checkSig = true ∧ ∃ k, o.key? = some k ∧ owners = [k] := by
  rw [owners?] at h
  split at h
  · next hcheck =>
    obtain ⟨k, hkey, rfl⟩ := Option.map_eq_some_iff.mp h
    exact ⟨hcheck, k, hkey, rfl⟩
  · cases h

/-- The operations of pairs of a key and a failing check. -/
theorem readAs_verifyOps : (ops : List ScriptOp) → {owners : List XOnlyKey} → (∀ o ∈ ops, o.Settled) →
    verifiedKeys? ops = some owners → ReadAs (verifyOps owners) ops
  | [], _, _, h => by
    cases h
    exact readAs_nil
  | [_], _, _, h => by cases h
  | _ :: _ :: rest, _, hsettled, h => by
    obtain ⟨hcheck, k, keys, hkey, hkeys, rfl⟩ := verifiedKeys?_pair h
    obtain ⟨ho, hsettled⟩ := List.forall_mem_cons.mp hsettled
    obtain ⟨_, hrest⟩ := List.forall_mem_cons.mp hsettled
    exact (readAs_check ho hkey hcheck (settled_op (by decide) (by decide))).append
      (readAs_verifyOps rest hrest hkeys)

theorem checkOps_cons (k : XOnlyKey) {owners : List XOnlyKey} (h : owners ≠ []) :
    checkOps (k :: owners) = [.key k, .op Opcode.checkSigVerify] ++ checkOps owners := by
  cases owners with
  | nil => exact absurd rfl h
  | cons next rest => rfl

/-- The operations of pairs of which the last leaves its result; there is at least that one. -/
theorem readAs_checkOps : (ops : List ScriptOp) → {owners : List XOnlyKey} → (∀ o ∈ ops, o.Settled) →
    owners? ops = some owners → owners ≠ [] ∧ ReadAs (checkOps owners) ops
  | [], _, _, h => by cases h
  | [_], _, _, h => by cases h
  | [_, _], _, hsettled, h => by
    obtain ⟨hcheck, k, hkey, rfl⟩ := owners?_last h
    obtain ⟨ho, _⟩ := List.forall_mem_cons.mp hsettled
    exact ⟨List.cons_ne_nil _ _, readAs_check ho hkey hcheck (settled_op (by decide) (by decide))⟩
  | _ :: _ :: next :: rest, _, hsettled, h => by
    obtain ⟨hcheck, k, keys, hkey, hkeys, rfl⟩ := owners?_pair h
    obtain ⟨ho, hsettled⟩ := List.forall_mem_cons.mp hsettled
    obtain ⟨_, hrest⟩ := List.forall_mem_cons.mp hsettled
    obtain ⟨hne, hread⟩ := readAs_checkOps (next :: rest) hrest hkeys
    rw [checkOps_cons k hne]
    exact ⟨List.cons_ne_nil _ _,
      (readAs_check ho hkey hcheck (settled_op (by decide) (by decide))).append hread⟩

theorem readAs_multisig {ops : List ScriptOp} {owners : List XOnlyKey} (hsettled : ∀ o ∈ ops, o.Settled)
    (h : multisig? ops = some owners) : ReadAs (Leaf.multisig owners).ops ops := by
  rw [multisig?] at h
  split at h
  · cases h
  · rw [Leaf.ops]
    exact readAs_verifyOps ops hsettled h

/-! ## The first check of a kind -/

theorem splitAtCode_eq_some {code : UInt8} {ops before after : List ScriptOp} :
    splitAtCode code ops = some (before, after) ↔ ops = before ++ op code :: after ∧ Lacks code before := by
  constructor
  · intro h
    induction ops generalizing before with
    | nil => cases h
    | cons o rest ih =>
      rw [splitAtCode] at h
      split at h
      · next hcode =>
        cases h
        exact ⟨by rw [isCode_iff.mp hcode]; rfl, List.forall_mem_nil _⟩
      · next hcode =>
        obtain ⟨⟨front, back⟩, hrest, heq⟩ := Option.map_eq_some_iff.mp h
        cases heq
        obtain ⟨rfl, hlacks⟩ := ih hrest
        exact ⟨rfl, List.forall_mem_cons.mpr ⟨by simpa using hcode, hlacks⟩⟩
  · rintro ⟨rfl, hlacks⟩
    exact splitAtCode_append hlacks

end ScriptOp

theorem ExitTerms.make_eq_ok {lock : RelativeLock} {owners : List XOnlyKey} {terms : ExitTerms} :
    ExitTerms.make lock owners = .ok terms ↔ terms.delay.lock = lock ∧ terms.owners = owners := by
  rw [ExitTerms.make]
  constructor
  · intro h
    split at h
    · cases h
    · cases hdelay : Delay.ofLock lock with
      | error fault =>
        rw [hdelay] at h
        cases h
      | ok delay =>
        rw [hdelay] at h
        cases h
        exact ⟨Delay.ofLock_eq_ok.mp hdelay, rfl⟩
  · rintro ⟨rfl, rfl⟩
    rw [dif_neg terms.nonempty, Delay.ofLock_lock]
    rfl

namespace Leaf

open ScriptOp

/-! ## Conditions -/

/-- The operations of a condition are those it was recognised in. -/
theorem readAs_conditionOfOps {ops : List ScriptOp} (hsettled : ∀ o ∈ ops, o.Settled) :
    ReadAs (guardOps (conditionOfOps ops)) ops := by
  rw [conditionOfOps]
  split
  · next hempty =>
    rw [List.isEmpty_iff.mp hempty]
    exact readAs_nil
  · split
    · next owners howners => exact readAs_multisig hsettled howners
    · rw [guardOps, Leaf.ops]
      exact readAs_of_settled hsettled

/-- What stands in front of the delay of an exit path. -/
def exitGuardOps : Option Leaf → List ScriptOp
  | none => []
  | some inner => inner.ops ++ [.op Opcode.verify]

theorem ops_unilateral_eq (terms : ExitTerms) (condition : Option Leaf) :
    (unilateral terms condition).ops = exitGuardOps condition ++ [.int terms.delay.sequence.toNat] ++
      .op Opcode.checkSequence :: .op Opcode.drop :: checkOps terms.owners := by
  cases condition <;> simp [ops, exitGuardOps]

theorem exitGuardOps_conditionOfOps {ops : List ScriptOp} (h : ops ≠ []) :
    exitGuardOps (conditionOfOps ops) = guardOps (conditionOfOps ops) ++ [.op Opcode.verify] := by
  rw [conditionOfOps, if_neg (by simpa using h)]
  split <;> rfl

/-- Operations in front of a delay are none, or a condition and its verification. -/
theorem exitCondition?_eq_some {ops : List ScriptOp} {condition : Option Leaf}
    (h : exitCondition? ops = some condition) :
    (ops = [] ∧ condition = none) ∨
      ∃ front, front ≠ [] ∧ ops = front ++ [.op Opcode.verify] ∧ condition = conditionOfOps front := by
  rw [exitCondition?] at h
  split at h
  · next hnone =>
    cases h
    exact .inl ⟨List.getLast?_eq_none_iff.mp hnone, rfl⟩
  · next last hlast =>
    obtain ⟨front, rfl⟩ := List.getLast?_eq_some_iff.mp hlast
    rw [List.dropLast_concat] at h
    split at h
    · next hshape =>
      simp only [Bool.and_eq_true, Bool.not_eq_true', List.isEmpty_eq_false_iff] at hshape
      obtain ⟨hverify, hne⟩ := hshape
      cases h
      exact .inr ⟨front, hne, by rw [isCode_iff.mp hverify], rfl⟩
    · cases h

theorem readAs_exitGuardOps {ops : List ScriptOp} {condition : Option Leaf} (hsettled : ∀ o ∈ ops, o.Settled)
    (h : exitCondition? ops = some condition) : ReadAs (exitGuardOps condition) ops := by
  rcases exitCondition?_eq_some h with ⟨rfl, rfl⟩ | ⟨front, hne, rfl, rfl⟩
  · exact readAs_nil
  · obtain ⟨hfront, hverify⟩ := List.forall_mem_append.mp hsettled
    rw [exitGuardOps_conditionOfOps hne]
    exact (readAs_conditionOfOps hfront).append (readAs_of_settled hverify)

/-! ## Exit paths -/

/-- What is asked of the operations around the first sequence check. -/
theorem exitParts?_append {before after : List ScriptOp} {push next : ScriptOp}
    (h : Lacks Opcode.checkSequence (before ++ [push])) :
    exitParts? (before ++ [push] ++ .op Opcode.checkSequence :: next :: after) =
      if next.isCode Opcode.drop then
        push.int?.bind fun value => (owners? after).bind fun owners =>
          (exitCondition? before).bind fun condition => some (value, owners, condition)
      else none := by
  have hpush : (before ++ [push]).getLast? = some push := List.getLast?_concat
  rw [exitParts?, splitAtCode_append h]
  simp only [Option.bind_eq_bind, Option.bind_some, hpush, List.head?_cons, List.tail_cons, List.dropLast_concat]
  cases next.isCode Opcode.drop <;> rfl

/-- The parts of an exit path: what stands before the delay, the delay, and the owners after it. -/
theorem exitParts?_eq_some {ops : List ScriptOp} {value : Int} {owners : List XOnlyKey} {condition : Option Leaf} :
    exitParts? ops = some (value, owners, condition) ↔
      ∃ before push after, ops = before ++ [push] ++ .op Opcode.checkSequence :: .op Opcode.drop :: after ∧
        Lacks Opcode.checkSequence (before ++ [push]) ∧ push.int? = some value ∧
        owners? after = some owners ∧ exitCondition? before = some condition := by
  constructor
  · intro h
    have hshape := h
    rw [exitParts?] at hshape
    obtain ⟨⟨front, back⟩, hsplit, hshape⟩ := Option.bind_eq_some_iff.mp hshape
    obtain ⟨push, hpush, hshape⟩ := Option.bind_eq_some_iff.mp hshape
    obtain ⟨next, hnext, _⟩ := Option.bind_eq_some_iff.mp hshape
    obtain ⟨rfl, hlacks⟩ := splitAtCode_eq_some.mp hsplit
    obtain ⟨before, rfl⟩ := List.getLast?_eq_some_iff.mp hpush
    obtain ⟨after, rfl⟩ := List.head?_eq_some_iff.mp hnext
    rw [exitParts?_append hlacks] at h
    split at h
    · next hdrop =>
      obtain ⟨number, hnumber, h⟩ := Option.bind_eq_some_iff.mp h
      obtain ⟨keys, hkeys, h⟩ := Option.bind_eq_some_iff.mp h
      obtain ⟨found, hfound, h⟩ := Option.bind_eq_some_iff.mp h
      cases h
      exact ⟨before, push, after, by rw [isCode_iff.mp hdrop], hlacks, hnumber, hkeys, hfound⟩
    · cases h
  · rintro ⟨before, push, after, rfl, hlacks, hnumber, hkeys, hfound⟩
    rw [exitParts?_append hlacks, if_pos (isCode_iff.mpr rfl), hnumber, hkeys, hfound]
    rfl

/-- An exit path that was recognised is made of its parts, and the number read for its delay is its sequence. -/
theorem exitParts?_of_exitOfOps {ops : List ScriptOp} {path : ExitPath} (h : exitOfOps ops = .ok (some path)) :
    exitParts? ops = some ((path.terms.delay.sequence.toNat : Int), path.terms.owners, path.condition) := by
  rw [exitOfOps] at h
  split at h
  · cases h
  · next value owners condition hparts =>
    cases hword : word? value with
    | none =>
      rw [hword] at h
      cases h
    | some sequence =>
      rw [hword] at h
      obtain ⟨_, hsequence, h⟩ := bind_eq_ok.mp h
      cases hsequence
      obtain ⟨lock, hlock, h⟩ := bind_eq_ok.mp h
      obtain ⟨terms, hterms, h⟩ := bind_eq_ok.mp h
      cases h
      obtain ⟨rfl, rfl⟩ := ExitTerms.make_eq_ok.mp hterms
      rw [hparts, eq_toNat_of_word? hword, RelativeLock.toSequence_ofSequence hlock terms.delay.enforced]

/-- Exit paths are recognised by the number that is pushed for their delay, however it is pushed. -/
theorem exitOfOps_of_exitParts? {ops : List ScriptOp} {terms : ExitTerms} {condition : Option Leaf} {value : Int}
    (hvalue : word? value = some terms.delay.sequence)
    (h : exitParts? ops = some (value, terms.owners, condition)) :
    exitOfOps ops = .ok (some ⟨terms, condition⟩) := by
  have hterms : ExitTerms.make terms.delay.lock terms.owners = .ok terms := ExitTerms.make_eq_ok.mpr ⟨rfl, rfl⟩
  rw [exitOfOps, h]
  simp only [hvalue]
  exact bind_eq_ok.mpr ⟨_, rfl, bind_eq_ok.mpr ⟨_, terms.delay.ofSequence_sequence,
    bind_eq_ok.mpr ⟨terms, hterms, rfl⟩⟩⟩

/-- The operations around the number of an exit path are those of its leaf, once read. -/
theorem readAs_exitOps {before after : List ScriptOp} {path : ExitPath} (hbefore : ∀ o ∈ before, o.Settled)
    (hafter : ∀ o ∈ after, o.Settled) (howners : owners? after = some path.terms.owners)
    (hcondition : exitCondition? before = some path.condition) :
    ReadAs path.leaf.ops (before ++ [(ScriptOp.int path.terms.delay.sequence.toNat).asRead] ++
      .op Opcode.checkSequence :: .op Opcode.drop :: after) := by
  have hguard := readAs_exitGuardOps hbefore hcondition
  obtain ⟨_, hkeys⟩ := readAs_checkOps after hafter howners
  have hsequence : (ScriptOp.op Opcode.checkSequence).Settled := settled_op (by decide) (by decide)
  have hdrop : (ScriptOp.op Opcode.drop).Settled := settled_op (by decide) (by decide)
  rw [ExitPath.leaf, ops_unilateral_eq]
  exact (hguard.append (.cons (readable_word _) rfl readAs_nil)).append
    (.cons hsequence.readable hsequence.asRead_eq (.cons hdrop.readable hdrop.asRead_eq hkeys))

/-- The operations of an exit path: those of its leaf, but for how the number of its delay is pushed. -/
theorem exists_push_of_exitOfOps {ops : List ScriptOp} {path : ExitPath} (hsettled : ∀ o ∈ ops, o.Settled)
    (h : exitOfOps ops = .ok (some path)) :
    ∃ before push after, ops = before ++ [push] ++ .op Opcode.checkSequence :: .op Opcode.drop :: after ∧
      Lacks Opcode.checkSequence (before ++ [push]) ∧ push.int? = some (path.terms.delay.sequence.toNat : Int) ∧
      owners? after = some path.terms.owners ∧ exitCondition? before = some path.condition ∧
      ReadAs path.leaf.ops (before ++ [(ScriptOp.int path.terms.delay.sequence.toNat).asRead] ++
        .op Opcode.checkSequence :: .op Opcode.drop :: after) := by
  obtain ⟨before, push, after, rfl, hlacks, hvalue, howners, hcondition⟩ :=
    exitParts?_eq_some.mp (exitParts?_of_exitOfOps h)
  obtain ⟨hfront, hback⟩ := List.forall_mem_append.mp hsettled
  obtain ⟨hbefore, _⟩ := List.forall_mem_append.mp hfront
  obtain ⟨_, hback⟩ := List.forall_mem_cons.mp hback
  obtain ⟨_, hafter⟩ := List.forall_mem_cons.mp hback
  exact ⟨before, push, after, rfl, hlacks, hvalue, howners, hcondition,
    readAs_exitOps hbefore hafter howners hcondition⟩

/-- Written with the number of its sequence, an exit path is recognised again. -/
theorem readAs_exit {ops : List ScriptOp} {path : ExitPath} (hsettled : ∀ o ∈ ops, o.Settled)
    (h : exitOfOps ops = .ok (some path)) :
    ∃ found, ReadAs path.leaf.ops found ∧ exitOfOps found = .ok (some path) := by
  obtain ⟨before, push, after, rfl, hlacks, _, howners, hcondition, hread⟩ := exists_push_of_exitOfOps hsettled h
  let number : ScriptOp := .int path.terms.delay.sequence.toNat
  refine ⟨before ++ [number.asRead] ++ .op Opcode.checkSequence :: .op Opcode.drop :: after, hread, ?_⟩
  have hshort : (path.terms.delay.sequence.toNat : Int).natAbs < 2 ^ 31 :=
    Nat.lt_of_lt_of_le path.terms.delay.sequence_lt (by decide)
  have hint : number.asRead.int? = some (path.terms.delay.sequence.toNat : Int) := by
    rw [int?_asRead_int, if_pos hshort]
  obtain ⟨hclear, _⟩ := List.forall_mem_append.mp hlacks
  have hlacks : Lacks Opcode.checkSequence (before ++ [number.asRead]) :=
    Lacks.append hclear fun o hmem => by
      rw [List.mem_singleton.mp hmem]
      exact isCode_asRead (by decide) number
  exact exitOfOps_of_exitParts? (word?_toNat _)
    (exitParts?_eq_some.mpr ⟨before, number.asRead, after, rfl, hlacks, hint, howners, hcondition⟩)

/-! ## Collaborative paths -/

theorem readAs_collaborative {ops : List ScriptOp} {path : CollaborativePath} (hsettled : ∀ o ∈ ops, o.Settled)
    (h : collaborativeOfOps ops = some path) : ReadAs path.leaf.ops ops := by
  rw [collaborativeOfOps] at h
  split at h
  · cases h
  · split at h
    · next check server condition hreverse =>
      have hops : ops = condition.reverse ++ [server, check] := by
        rw [← List.reverse_reverse ops, hreverse]
        simp
      split at h
      · next hcheck =>
        obtain ⟨k, hkey, rfl⟩ := Option.map_eq_some_iff.mp h
        rw [hops] at hsettled ⊢
        obtain ⟨hcondition, hpair⟩ := List.forall_mem_append.mp hsettled
        obtain ⟨hserver, _⟩ := List.forall_mem_cons.mp hpair
        rw [CollaborativePath.leaf, Leaf.ops]
        exact (readAs_conditionOfOps hcondition).append
          (readAs_check hserver hkey hcheck (settled_op (by decide) (by decide)))
      · cases h
    · cases h

/-! ## All leaves -/

/-- The shapes are tried in this order. -/
theorem ofOps_eq_ok {ops : List ScriptOp} {leaf : Leaf} (h : ofOps ops = .ok leaf) :
    (∃ path, exitOfOps ops = .ok (some path) ∧ leaf = path.leaf) ∨
      (∃ path, collaborativeOfOps ops = some path ∧ leaf = path.leaf) ∨
      (∃ owners, multisig? ops = some owners ∧ leaf = multisig owners) ∨ leaf = generic ops := by
  obtain ⟨exit?, hexit, h⟩ := bind_eq_ok.mp h
  cases exit? with
  | some path =>
    cases h
    exact .inl ⟨path, hexit, rfl⟩
  | none =>
    cases hcollaborative : collaborativeOfOps ops with
    | some path =>
      rw [hcollaborative] at h
      cases h
      exact .inr (.inl ⟨path, rfl, rfl⟩)
    | none =>
      rw [hcollaborative] at h
      cases hmultisig : multisig? ops with
      | some owners =>
        rw [hmultisig] at h
        cases h
        exact .inr (.inr (.inl ⟨owners, rfl, rfl⟩))
      | none =>
        rw [hmultisig] at h
        cases h
        exact .inr (.inr (.inr rfl))

theorem ofOps_of_exit {ops : List ScriptOp} {path : ExitPath} (h : exitOfOps ops = .ok (some path)) :
    ofOps ops = .ok path.leaf := by
  rw [ofOps, h]
  rfl

/-- The operations of a leaf that was recognised are recognised as that leaf. -/
theorem ofOps_readAs {ops : List ScriptOp} {leaf : Leaf} (hsettled : ∀ o ∈ ops, o.Settled)
    (h : ofOps ops = .ok leaf) : ∃ found, ReadAs leaf.ops found ∧ ofOps found = .ok leaf := by
  rcases ofOps_eq_ok h with ⟨path, hexit, rfl⟩ | ⟨path, hpath, rfl⟩ | ⟨owners, howners, rfl⟩ | rfl
  · obtain ⟨found, hread, hfound⟩ := readAs_exit hsettled hexit
    exact ⟨found, hread, ofOps_of_exit hfound⟩
  · exact ⟨ops, readAs_collaborative hsettled hpath, h⟩
  · exact ⟨ops, readAs_multisig hsettled howners, h⟩
  · refine ⟨ops, ?_, h⟩
    rw [Leaf.ops]
    exact readAs_of_settled hsettled

/-- The leaf of a script is the leaf of its own script. -/
theorem ofScript_script {script : Bytes} {leaf : Leaf} (h : ofScript script = .ok leaf) :
    ofScript leaf.script = .ok leaf := by
  obtain ⟨ops, hread, hops⟩ := bind_eq_ok.mp h
  obtain ⟨found, hfound, hleaf⟩ := ofOps_readAs (settled_of_read hread) hops
  exact bind_eq_ok.mpr ⟨found, hfound.read_build, hleaf⟩

/-- An exit path after five blocks that pushes nothing the shortest way: the delay as data behind a length of one byte,
the key behind a length of two. -/
def looseExit : Bytes :=
  Opcode.pushData1 :: 1 :: 5 :: Opcode.checkSequence :: Opcode.drop ::
    Opcode.pushData2 :: 32 :: 0 :: (unspendableKey.bytes ++ [Opcode.checkSig])

/-- What is read of it. -/
def looseExitOps : List ScriptOp :=
  [.data [5], .op Opcode.checkSequence, .op Opcode.drop, .data unspendableKey.bytes, .op Opcode.checkSig]

theorem read_looseExit : read looseExit = .ok looseExitOps := by
  have hlength : unspendableKey.bytes.length = 32 := unspendableKey.length_bytes
  have hread := read_written [.push .oneByte [5] (by decide), .bare Opcode.checkSequence (by decide),
    .bare Opcode.drop (by decide), .push .twoBytes unspendableKey.bytes (by rw [hlength]; decide),
    .bare Opcode.checkSig (by decide)]
  simp only [written, List.flatMap_cons, List.flatMap_nil, Element.bytes, PushForm.announce, hlength] at hread
  exact hread

theorem ofScript_script_looseExit :
    ofScript looseExit = .ok (unilateral (.single (.ofBlocks 5) unspendableKey) none) ∧
      (unilateral (.single (.ofBlocks 5) unspendableKey) none).script ≠ looseExit ∧
      ofScript (unilateral (.single (.ofBlocks 5) unspendableKey) none).script =
        .ok (unilateral (.single (.ofBlocks 5) unspendableKey) none) := by
  have hkey : owners? [.data unspendableKey.bytes, .op Opcode.checkSig] = some [unspendableKey] := by
    rw [owners?, if_pos (isCode_iff.mpr rfl), key?, XOnlyKey.ofBytes?_bytes]
    rfl
  have hlacks : Lacks Opcode.checkSequence ([] ++ [.data [5]]) := by simp [Lacks, isCode]
  have hparts : exitParts? looseExitOps = some (5, [unspendableKey], none) :=
    exitParts?_eq_some.mpr ⟨[], .data [5], _, rfl, hlacks, rfl, hkey, rfl⟩
  have hexit : exitOfOps looseExitOps = .ok (some ⟨.single (.ofBlocks 5) unspendableKey, none⟩) :=
    exitOfOps_of_exitParts? (by decide) hparts
  have hleaf : ofScript looseExit = .ok (unilateral (.single (.ofBlocks 5) unspendableKey) none) :=
    bind_eq_ok.mpr ⟨looseExitOps, read_looseExit, ofOps_of_exit hexit⟩
  exact ⟨hleaf, by decide +kernel, ofScript_script hleaf⟩

/-! ## Exit paths in normal form -/

/-- The operation in front of the first sequence check, which pushes the delay of an exit path. -/
def delayPush? (ops : List ScriptOp) : Option ScriptOp :=
  (splitAtCode Opcode.checkSequence ops).bind fun (before, _) => before.getLast?

/-- An exit path is written the way its leaf writes it: no push is announced in more bytes than it needs, and a delay
that has an opcode of its own is not pushed as data. -/
structure IsNormalExit (script : Bytes) : Prop where
  shortest : ShortestPushes script
  delay : ∀ ops pushed value, read script = .ok ops → delayPush? ops = some (.data pushed) →
    ScriptNumber.decode? pushed = some value → ¬ IsSmall value

theorem exitOfScript_eq_ok {script : Bytes} {path : ExitPath} :
    exitOfScript script = .ok path ↔ ∃ ops, read script = .ok ops ∧ exitOfOps ops = .ok (some path) := by
  constructor
  · intro h
    obtain ⟨ops, hread, h⟩ := bind_eq_ok.mp h
    obtain ⟨found, hexit, h⟩ := bind_eq_ok.mp h
    cases found with
    | none => cases h
    | some found =>
      cases h
      exact ⟨ops, hread, hexit⟩
  · rintro ⟨ops, hread, hexit⟩
    exact bind_eq_ok.mpr ⟨ops, hread, bind_eq_ok.mpr ⟨some path, hexit, rfl⟩⟩

/-- A number is read in the form it is written in, unless it has an opcode and was pushed as data. -/
theorem asRead_int_eq_iff {push : ScriptOp} {value : Int} (hsettled : push.Settled) (h : push.int? = some value) :
    (ScriptOp.int value).asRead = push ↔ ∀ pushed, push = .data pushed → ¬ IsSmall value := by
  cases push with
  | op code => cases h
  | key k => cases h
  | int other =>
    cases h
    exact iff_of_true hsettled.asRead_eq fun pushed hdata => by cases hdata
  | data bytes =>
    have hencode : ScriptNumber.encode value = bytes := ScriptNumber.encode_of_decode? h
    rw [asRead, hencode]
    by_cases hsmall : IsSmall value
    · rw [if_pos hsmall]
      exact iff_of_false (by rintro ⟨⟩) fun hdata => hdata bytes rfl hsmall
    · rw [if_neg hsmall]
      exact iff_of_true rfl fun _ _ => hsmall

/-- The leaf of an exit path writes the script it was read from if and only if that was in normal form. -/
theorem exit_script_eq_iff {script : Bytes} {path : ExitPath} (h : exitOfScript script = .ok path) :
    path.leaf.script = script ↔ IsNormalExit script := by
  obtain ⟨ops, hread, hexit⟩ := exitOfScript_eq_ok.mp h
  have hsettled := settled_of_read hread
  obtain ⟨before, push, after, rfl, hlacks, hvalue, _, _, hwritten⟩ := exists_push_of_exitOfOps hsettled hexit
  have hpush : delayPush? (before ++ [push] ++ .op Opcode.checkSequence :: .op Opcode.drop :: after) = some push := by
    rw [delayPush?, splitAtCode_append hlacks]
    exact List.getLast?_concat
  have hform := asRead_int_eq_iff (hsettled push (by simp)) hvalue
  constructor
  · intro hsame
    have hbuild : build path.leaf.ops = script := hsame
    have hagain := hwritten.read_build
    rw [hbuild, hread, Except.ok.injEq] at hagain
    have hnumber : (ScriptOp.int path.terms.delay.sequence.toNat).asRead = push := by simpa using hagain.symm
    refine ⟨(build_eq_iff hread).mp ?_, fun ops pushed value hops hdata hdecode => ?_⟩
    · rw [← hnumber, ← hwritten.build_eq, hbuild]
    · rw [hread] at hops
      cases hops
      rw [hpush] at hdata
      cases hdata
      obtain rfl : value = _ := Option.some.inj (hdecode.symm.trans hvalue)
      exact hform.mp hnumber pushed rfl
  · intro hnormal
    have hnumber := hform.mpr fun pushed hdata => by
      subst hdata
      exact hnormal.delay _ pushed _ hread hpush hvalue
    calc build path.leaf.ops = build _ := hwritten.build_eq
      _ = script := by rw [hnumber, (build_eq_iff hread).mpr hnormal.shortest]

end Leaf

end Vtxo
