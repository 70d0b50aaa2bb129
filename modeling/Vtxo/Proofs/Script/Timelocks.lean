import Vtxo.Leaf.Recognise
import Vtxo.Proofs.Script.ReadBack
import Vtxo.Proofs.Timelock

/-!
# Timelocks read from scripts

A leaf knows its timelocks; a coin reads them from the leaf's script. The first check of its kind counts, with the
number pushed before it. Delays are short enough to be read back always. A lock time is read back only while four bytes
and a sign can hold it: from 2^31 on the script holds a fifth byte, and its reader finds no number.

  1. `splitAtCode_append`: the first check of a kind.
  2. `readsBack_collaborative`, `readsBack_lockTime`, `readsBack_unilateral`: what is read of each shape of leaf.
-/

set_option autoImplicit false

namespace Vtxo

namespace ScriptOp

/-! ## The first check of a kind -/

/-- No operation is the given opcode. -/
def Lacks (code : UInt8) (ops : List ScriptOp) : Prop :=
  ∀ o ∈ ops, o.isCode code = false

theorem splitAtCode_of_lacks {code : UInt8} {ops : List ScriptOp} (h : Lacks code ops) :
    splitAtCode code ops = none := by
  induction ops with
  | nil => rfl
  | cons o rest ih =>
    obtain ⟨hfirst, hrest⟩ := List.forall_mem_cons.mp h
    simp [splitAtCode, hfirst, ih hrest]

theorem splitAtCode_append {code : UInt8} {before after : List ScriptOp} (h : Lacks code before) :
    splitAtCode code (before ++ op code :: after) = some (before, after) := by
  induction before with
  | nil => simp [splitAtCode, isCode]
  | cons o rest ih =>
    obtain ⟨hfirst, hrest⟩ := List.forall_mem_cons.mp h
    simp [splitAtCode, hfirst, ih hrest]

theorem Lacks.map_asRead {code : UInt8} {ops : List ScriptOp} (hcode : smallInt? code = none)
    (h : Lacks code ops) : Lacks code (ops.map asRead) := by
  intro _ hmem
  obtain ⟨o, ho, rfl⟩ := List.mem_map.mp hmem
  rw [isCode_asRead hcode, h o ho]

/-! ## Timelocks of operations -/

theorem relativeLock?_of_lacks {ops : List ScriptOp} (h : Lacks Opcode.checkSequence ops) :
    relativeLock? ops = none := by
  rw [relativeLock?, splitAtCode_of_lacks h]
  rfl

theorem absoluteLock?_of_lacks {ops : List ScriptOp} (h : Lacks Opcode.checkLockTime ops) :
    absoluteLock? ops = none := by
  rw [absoluteLock?, splitAtCode_of_lacks h]
  rfl

theorem word?_toNat (word : UInt32) : word? (word.toNat : Int) = some word := by
  have hlt : word.toNat < 4294967296 := word.toNat_lt
  have hrange : (0 : Int) ≤ word.toNat ∧ (word.toNat : Int) < 4294967296 := by omega
  rw [ScriptOp.word?, if_pos hrange, Int.toNat_natCast, UInt32.ofNat_toNat]

/-- Only a word is the number of that word. -/
theorem eq_toNat_of_word? {value : Int} {word : UInt32} (h : word? value = some word) : value = word.toNat := by
  unfold word? at h
  split at h
  · cases h
    rw [UInt32.toNat_ofNat', Nat.mod_eq_of_lt (by omega)]
    omega
  · cases h

/-- The lock of a number that a sequence check reads. -/
def lockOfNumber? (value : Int) : Option RelativeLock :=
  (word? value).bind fun sequence => (RelativeLock.ofSequence sequence).toOption

theorem lockOfNumber?_sequence (delay : Delay) : lockOfNumber? delay.sequence.toNat = some delay.lock := by
  rw [lockOfNumber?, word?_toNat, Option.bind_some, delay.ofSequence_sequence]
  rfl

/-- The number before the first sequence check. -/
theorem relativeLock?_append {before after : List ScriptOp} {push : ScriptOp}
    (h : Lacks Opcode.checkSequence (before ++ [push])) :
    relativeLock? (before ++ [push] ++ op Opcode.checkSequence :: after) = push.int?.bind lockOfNumber? := by
  have hlast : (before ++ [push]).getLast? = some push := List.getLast?_concat
  rw [relativeLock?, splitAtCode_append h]
  simp only [Option.bind_eq_bind, Option.bind_some, hlast]
  rfl

/-- The number before the first lock time check. -/
theorem absoluteLock?_append {before after : List ScriptOp} {push : ScriptOp}
    (h : Lacks Opcode.checkLockTime (before ++ [push])) :
    absoluteLock? (before ++ [push] ++ op Opcode.checkLockTime :: after) = push.int?.bind word? := by
  have hlast : (before ++ [push]).getLast? = some push := List.getLast?_concat
  rw [absoluteLock?, splitAtCode_append h]
  simp only [Option.bind_eq_bind, Option.bind_some, hlast]

/-! ## Operations of the parts of leaves -/

theorem Lacks.append {code : UInt8} {ops others : List ScriptOp} (h : Lacks code ops)
    (h' : Lacks code others) : Lacks code (ops ++ others) :=
  List.forall_mem_append.mpr ⟨h, h'⟩

theorem lacks_hashLock {code : UInt8} (hcode : Opcode.sha256 ≠ code ∧ Opcode.hash160 ≠ code)
    (hequal : Opcode.equal ≠ code) (lock : HashLock) : Lacks code lock.ops := by
  cases lock <;> simp [Lacks, HashLock.ops, isCode, hcode, hequal]

theorem lacks_verifyOps {code : UInt8} (h : Opcode.checkSigVerify ≠ code) (owners : List XOnlyKey) :
    Lacks code (verifyOps owners) := by
  induction owners with
  | nil => simp [Lacks, verifyOps]
  | cons owner rest ih =>
    rw [verifyOps, List.flatMap_cons]
    exact Lacks.append (by simp [Lacks, isCode, h]) ih

theorem lacks_checkOps {code : UInt8} (h : Opcode.checkSigVerify ≠ code) (hlast : Opcode.checkSig ≠ code)
    (owners : List XOnlyKey) : Lacks code (checkOps owners) := by
  fun_induction checkOps owners with
  | case1 => simp [Lacks]
  | case2 => simp [Lacks, isCode, hlast]
  | case3 owner _ _ ih =>
    have hcheck : Lacks code [.key owner, .op Opcode.checkSigVerify] := by simp [Lacks, isCode, h]
    exact hcheck.append ih

/-- A 32-bit number can be written. -/
theorem readable_word (word : UInt32) : (int word.toNat).Readable := by
  have hlt : (word.toNat : Int).natAbs < ScriptNumber.signWeight 5 :=
    Nat.lt_of_lt_of_le word.toNat_lt (by decide)
  rw [Readable, ScriptNumber.length_encode]
  exact Nat.lt_of_le_of_lt ((ScriptNumber.width_le_iff (by omega)).mpr hlt) (by decide)

theorem readable_hashLock (lock : HashLock) : ∀ o ∈ lock.ops, o.Readable := by
  cases lock with
  | sha256 digest => simp [HashLock.ops, Readable, digest.property]; decide
  | hash160 digest => simp [HashLock.ops, Readable, digest.property]; decide

theorem readable_verifyOps (owners : List XOnlyKey) : ∀ o ∈ verifyOps owners, o.Readable := by
  induction owners with
  | nil => simp [verifyOps]
  | cons owner rest ih =>
    rw [verifyOps, List.flatMap_cons]
    refine List.forall_mem_append.mpr ⟨?_, ih⟩
    simp only [List.mem_cons, List.not_mem_nil, or_false, forall_eq_or_imp, forall_eq]
    exact ⟨trivial, by decide⟩

theorem readable_checkOps (owners : List XOnlyKey) : ∀ o ∈ checkOps owners, o.Readable := by
  fun_induction checkOps owners with
  | case1 => simp
  | case2 =>
    simp only [List.mem_cons, List.not_mem_nil, or_false, forall_eq_or_imp, forall_eq]
    exact ⟨trivial, by decide⟩
  | case3 _ _ _ ih =>
    exact List.forall_mem_cons.mpr ⟨trivial, List.forall_mem_cons.mpr ⟨by decide, ih⟩⟩

end ScriptOp

/-! ## Timelocks of leaves -/

namespace Leaf

open ScriptOp

/-- A leaf's timelocks are read from its script, except a lock time that takes five bytes. -/
structure ReadsBack (leaf : Leaf) : Prop where
  readable : ∀ o ∈ leaf.ops, o.Readable
  relative : ScriptOp.relativeLock? (leaf.ops.map asRead) = leaf.relativeLock?
  absolute : ScriptOp.absoluteLock? (leaf.ops.map asRead) =
    leaf.absoluteLock?.filter fun time => time.toNat < 2 ^ 31
  enforced : ∀ lock, leaf.relativeLock? = some lock → ∃ delay : Delay, delay.lock = lock

/-- Operations that are allowed in front of a leaf's own checks. -/
structure Untimed (ops : List ScriptOp) : Prop where
  readable : ∀ o ∈ ops, o.Readable
  lacksSequence : Lacks Opcode.checkSequence ops
  lacksLockTime : Lacks Opcode.checkLockTime ops

theorem Untimed.append {ops others : List ScriptOp} (h : Untimed ops) (h' : Untimed others) :
    Untimed (ops ++ others) where
  readable := List.forall_mem_append.mpr ⟨h.readable, h'.readable⟩
  lacksSequence := h.lacksSequence.append h'.lacksSequence
  lacksLockTime := h.lacksLockTime.append h'.lacksLockTime

theorem untimed_nil : Untimed [] := ⟨by simp, by simp [Lacks], by simp [Lacks]⟩

theorem untimed_op {code : UInt8} (h : Opcode.pushData4 < code) (hsequence : code ≠ Opcode.checkSequence)
    (htime : code ≠ Opcode.checkLockTime) : Untimed [.op code] :=
  ⟨by simpa [Readable] using h, by simp [Lacks, isCode, hsequence], by simp [Lacks, isCode, htime]⟩

theorem untimed_hashLock (lock : HashLock) : Untimed lock.ops :=
  ⟨readable_hashLock lock, lacks_hashLock (by decide) (by decide) lock,
    lacks_hashLock (by decide) (by decide) lock⟩

theorem untimed_verifyOps (owners : List XOnlyKey) : Untimed (verifyOps owners) :=
  ⟨readable_verifyOps owners, lacks_verifyOps (by decide) owners, lacks_verifyOps (by decide) owners⟩

theorem untimed_checkOps (owners : List XOnlyKey) : Untimed (checkOps owners) :=
  ⟨readable_checkOps owners, lacks_checkOps (by decide) (by decide) owners,
    lacks_checkOps (by decide) (by decide) owners⟩

/-- Where nothing is checked, nothing is read. -/
theorem absolute_of_untimed {ops : List ScriptOp} (h : Lacks Opcode.checkLockTime ops) :
    ScriptOp.absoluteLock? (ops.map asRead) =
      (ScriptOp.absoluteLock? ops).filter fun time => time.toNat < 2 ^ 31 := by
  rw [absoluteLock?_of_lacks h, absoluteLock?_of_lacks (h.map_asRead (by decide))]
  rfl

/-! ## The shapes of leaves -/

theorem readsBack_collaborative (server : XOnlyKey) {condition : Option Leaf}
    (h : Untimed (guardOps condition)) : (collaborative server condition).ReadsBack := by
  have hops : Untimed (collaborative server condition).ops := by
    rw [ops]
    exact h.append (untimed_checkOps [server])
  have hnone : (collaborative server condition).relativeLock? = none :=
    relativeLock?_of_lacks hops.lacksSequence
  refine ⟨hops.readable, ?_, absolute_of_untimed hops.lacksLockTime, ?_⟩
  · rw [hnone, relativeLock?_of_lacks (hops.lacksSequence.map_asRead (by decide))]
  · intro lock hlock
    rw [hnone] at hlock
    cases hlock

theorem readsBack_lockTime (server : XOnlyKey) (time : UInt32) {parts : List Leaf}
    (h : Untimed (partsOps parts)) :
    (collaborative server (some (composite (lockTime time :: parts)))).ReadsBack := by
  have hafter : Untimed (.op Opcode.drop :: (partsOps parts ++ checkOps [server])) :=
    (untimed_op (by decide) (by decide) (by decide)).append (h.append (untimed_checkOps [server]))
  have hops : (collaborative server (some (composite (lockTime time :: parts)))).ops =
      [] ++ [.int time.toNat] ++
        .op Opcode.checkLockTime :: .op Opcode.drop :: (partsOps parts ++ checkOps [server]) := by
    simp [ops, guardOps, partsOps, checkOps]
  have hfirst : ∀ push : ScriptOp, push.isCode Opcode.checkLockTime = false →
      Lacks Opcode.checkLockTime ([] ++ [push]) := fun push hpush => by simpa [Lacks] using hpush
  have hlacks : Lacks Opcode.checkSequence
      (collaborative server (some (composite (lockTime time :: parts)))).ops := by
    rw [hops]
    have hcheck : Lacks Opcode.checkSequence [.int time.toNat, .op Opcode.checkLockTime] := by
      simp [Lacks, isCode]
      decide
    exact hcheck.append hafter.lacksSequence
  have hnone : (collaborative server (some (composite (lockTime time :: parts)))).relativeLock? = none :=
    relativeLock?_of_lacks hlacks
  refine ⟨?_, ?_, ?_, ?_⟩
  · rw [hops]
    exact List.forall_mem_cons.mpr ⟨readable_word time, List.forall_mem_cons.mpr ⟨by decide, hafter.readable⟩⟩
  · rw [hnone, relativeLock?_of_lacks (hlacks.map_asRead (by decide))]
  · have hread : (collaborative server (some (composite (lockTime time :: parts)))).ops.map asRead =
        [] ++ [asRead (.int time.toNat)] ++ .op Opcode.checkLockTime ::
          (.op Opcode.drop :: (partsOps parts ++ checkOps [server])).map asRead := by
      rw [hops]
      rfl
    rw [Leaf.absoluteLock?, hread, hops, absoluteLock?_append (hfirst _ (isCode_asRead (by decide) _)),
      absoluteLock?_append (hfirst _ rfl), int?_asRead_int, Int.natAbs_natCast]
    by_cases hshort : time.toNat < 2 ^ 31
    · rw [if_pos hshort, Option.bind_some, int?, Option.bind_some, word?_toNat, Option.filter_some,
        if_pos (decide_eq_true hshort)]
    · rw [if_neg hshort, int?, Option.bind_some, word?_toNat, Option.filter_some,
        if_neg (by simpa using hshort)]
      rfl
  · intro lock hlock
    rw [hnone] at hlock
    cases hlock

/-- What stands in front of the delay of an exit path. -/
theorem ops_unilateral (terms : ExitTerms) (condition : Option Leaf) :
    ∃ before, (before = [] ∧ condition = none ∨ before = guardOps condition ++ [.op Opcode.verify]) ∧
      (unilateral terms condition).ops = before ++ [.int terms.delay.sequence.toNat] ++
        .op Opcode.checkSequence :: .op Opcode.drop :: checkOps terms.owners := by
  cases condition with
  | none => exact ⟨[], .inl ⟨rfl, rfl⟩, by simp [ops]⟩
  | some inner => exact ⟨_, .inr rfl, by simp [ops, guardOps]⟩

theorem readsBack_unilateral (terms : ExitTerms) {condition : Option Leaf} (h : Untimed (guardOps condition)) :
    (unilateral terms condition).ReadsBack := by
  obtain ⟨before, hbefore, hops⟩ := ops_unilateral terms condition
  have huntimed : Untimed before := by
    rcases hbefore with ⟨rfl, _⟩ | rfl
    · exact untimed_nil
    · exact h.append (untimed_op (by decide) (by decide) (by decide))
  have hafter : Untimed (.op Opcode.drop :: checkOps terms.owners) :=
    (untimed_op (by decide) (by decide) (by decide)).append (untimed_checkOps terms.owners)
  have hpush : ∀ code, Lacks code [.int terms.delay.sequence.toNat] := fun code => by simp [Lacks, isCode]
  refine ⟨?_, ?_, ?_, ?_⟩
  · rw [hops]
    refine List.forall_mem_append.mpr ⟨List.forall_mem_append.mpr ⟨huntimed.readable, ?_⟩, ?_⟩
    · simpa using readable_word terms.delay.sequence
    · exact List.forall_mem_cons.mpr ⟨by decide, hafter.readable⟩
  · have hshort : (terms.delay.sequence.toNat : Int).natAbs < 2 ^ 31 :=
      Nat.lt_of_lt_of_le terms.delay.sequence_lt (by decide)
    have hread : (unilateral terms condition).ops.map asRead =
        before.map asRead ++ [asRead (.int terms.delay.sequence.toNat)] ++ .op Opcode.checkSequence ::
          (.op Opcode.drop :: checkOps terms.owners).map asRead := by
      rw [hops]
      simp [asRead, ofCode, smallInt?]
      decide
    have hlacks : Lacks Opcode.checkSequence
        (before.map asRead ++ [asRead (.int terms.delay.sequence.toNat)]) :=
      (huntimed.lacksSequence.map_asRead (by decide)).append ((hpush _).map_asRead (by decide))
    rw [hread, relativeLock?_append hlacks, int?_asRead_int, if_pos hshort, Option.bind_some,
      lockOfNumber?_sequence]
    rfl
  · refine absolute_of_untimed ?_
    rw [hops]
    refine (huntimed.lacksLockTime.append (hpush _)).append ?_
    exact List.forall_mem_cons.mpr ⟨by decide, hafter.lacksLockTime⟩
  · intro lock hlock
    exact ⟨terms.delay, Option.some.inj hlock⟩

end Leaf

end Vtxo
