import Vtxo.Proofs.Coin.Committed
import Vtxo.Proofs.Leaf.NormalForm

/-!
# Sequences of coins

A script may check the sequence of its input several times, and each check asks for at least the number before it, in
the same unit. A coin reads one number of its script, the one before the first check, and only if it is pushed in its
shortest form and has no undefined bits. A number that it does not read makes the coin one without a sequence: it is
not refused, and cannot be spent. An exit path has one check, and its number is always read.

  1. `RelativeLock.Meets`, `requiredSequences`: what the checks of a script ask for.
  2. `SpendLocks.sequence_of_ofOps`: the sequence that a coin reads.
  3. `Coin.mem_requiredSequences_of_sequence`: a coin has no sequence that its script does not ask for.
  4. `Coin.meets_of_exit`: coins that are spent through an exit path pass it.
  5. `Coin.sequence_meets_iff`: the coins whose sequence passes every check of their scripts.
-/

set_option autoImplicit false

namespace Vtxo

/-! ## What a check asks for -/

namespace RelativeLock

/-- The sequence of an input passes a check of the required one: it is enabled, counts in the same unit, and its value
is not less. -/
structure Meets (sequence required : UInt32) : Prop where
  enabled : sequence &&& disableFlag = 0
  unit : sequence &&& intervalFlag = required &&& intervalFlag
  value : required &&& valueMask ≤ sequence &&& valueMask

/-- The sequence has no other bits than those of its unit and its value. -/
def IsDefined (sequence : UInt32) : Prop :=
  sequence &&& ~~~(intervalFlag ||| valueMask) = 0

instance : DecidablePred IsDefined := fun _ => inferInstanceAs (Decidable (_ = _))

/-- The bit that disables a sequence is none that is defined. -/
theorem IsDefined.enabled {sequence : UInt32} (h : IsDefined sequence) : sequence &&& disableFlag = 0 := by
  have hmask : disableFlag = ~~~(intervalFlag ||| valueMask) &&& disableFlag := by decide
  rw [hmask, ← UInt32.and_assoc, h, UInt32.zero_and]

theorem IsDefined.meets_self {sequence : UInt32} (h : IsDefined sequence) : Meets sequence sequence :=
  ⟨h.enabled, rfl, UInt32.le_refl _⟩

/-- A sequence is read as a lock if and only if its bits are defined. -/
theorem exists_ofSequence_iff {sequence : UInt32} : (∃ lock, ofSequence sequence = .ok lock) ↔ IsDefined sequence := by
  constructor
  · rintro ⟨lock, h⟩
    rw [ofSequence] at h
    split at h
    · cases h
    · split at h
      · cases h
      · next hdefined => exact Decidable.not_not.mp hdefined
  · intro h
    have hbits : ¬ sequence &&& ~~~(intervalFlag ||| valueMask) ≠ 0 := not_not_intro h
    rw [ofSequence, if_neg (not_not_intro h.enabled), if_neg hbits]
    simp only
    split
    · exact ⟨_, rfl⟩
    · exact ⟨_, rfl⟩

end RelativeLock

namespace ScriptOp

/-- The number that an operation pushes when the script is run: at most four bytes, in any form. -/
def pushedNumber? : ScriptOp → Option Int
  | int value => some value
  | data bytes => if bytes.length ≤ 4 then some (ScriptNumber.value bytes) else none
  | _ => none

/-- The numbers directly before sequence checks, in script order. A negative number lets the check fail whatever the
sequence is. -/
def requiredSequences : List ScriptOp → List UInt32
  | push :: check :: rest =>
    (if check.isCode Opcode.checkSequence then (push.pushedNumber?.bind word?).toList else []) ++
      requiredSequences (check :: rest)
  | _ => []

/-- The number directly before the first sequence check, if it is pushed in its shortest form. -/
def firstSequence? (ops : List ScriptOp) : Option UInt32 := do
  let (before, _) ← splitAtCode Opcode.checkSequence ops
  let value ← (← before.getLast?).int?
  word? value

theorem firstSequence?_append {before after : List ScriptOp} {push : ScriptOp}
    (h : Lacks Opcode.checkSequence (before ++ [push])) :
    firstSequence? (before ++ [push] ++ op Opcode.checkSequence :: after) = push.int?.bind word? := by
  have hlast : (before ++ [push]).getLast? = some push := List.getLast?_concat
  rw [firstSequence?, splitAtCode_append h]
  simp only [Option.bind_eq_bind, Option.bind_some, hlast]

/-- The form of a number does not matter when the script is run. -/
theorem pushedNumber?_of_int? {push : ScriptOp} {value : Int} (h : push.int? = some value) :
    push.pushedNumber? = some value := by
  cases push with
  | op code => cases h
  | key k => cases h
  | int other => exact h
  | data bytes =>
    rw [int?, ScriptNumber.decode?, ScriptNumber.decode] at h
    split at h
    · cases h
    · next hshort =>
      split at h
      · rw [pushedNumber?, if_pos (Nat.not_lt.mp hshort)]
        exact h
      · cases h

/-- A check asks for the number before it, besides what is asked for before and after. -/
theorem requiredSequences_append (before after : List ScriptOp) (push : ScriptOp) :
    requiredSequences (before ++ [push] ++ op Opcode.checkSequence :: after) =
      requiredSequences (before ++ [push]) ++ (push.pushedNumber?.bind word?).toList ++
        requiredSequences (op Opcode.checkSequence :: after) := by
  induction before with
  | nil =>
    have hcheck : (op Opcode.checkSequence).isCode Opcode.checkSequence = true := by decide
    rw [List.nil_append, List.singleton_append, requiredSequences, if_pos hcheck]
    rfl
  | cons o rest ih =>
    cases rest with
    | nil =>
      rw [List.nil_append] at ih
      simp only [List.cons_append, List.nil_append, requiredSequences, List.append_assoc] at ih ⊢
      rw [ih]
    | cons next rest =>
      simp only [List.cons_append, requiredSequences, List.append_assoc] at ih ⊢
      rw [ih]

theorem requiredSequences_cons_of_lacks {o : ScriptOp} {ops : List ScriptOp} (h : Lacks Opcode.checkSequence ops) :
    requiredSequences (o :: ops) = [] := by
  induction ops generalizing o with
  | nil => rfl
  | cons next rest ih =>
    obtain ⟨hnext, hrest⟩ := List.forall_mem_cons.mp h
    rw [requiredSequences, hnext, ih hrest]
    rfl

/-- What a coin reads is asked for. -/
theorem mem_requiredSequences_of_first {ops : List ScriptOp} {first : UInt32} (h : firstSequence? ops = some first) :
    first ∈ requiredSequences ops := by
  obtain ⟨⟨front, after⟩, hsplit, h⟩ := Option.bind_eq_some_iff.mp h
  obtain ⟨push, hpush, h⟩ := Option.bind_eq_some_iff.mp h
  obtain ⟨value, hvalue, hword⟩ := Option.bind_eq_some_iff.mp h
  obtain ⟨before, rfl⟩ := List.getLast?_eq_some_iff.mp hpush
  obtain ⟨rfl, _⟩ := splitAtCode_eq_some.mp hsplit
  have hnumber : push.pushedNumber?.bind word? = some first := by
    rw [pushedNumber?_of_int? hvalue]
    exact hword
  rw [requiredSequences_append, hnumber]
  simp

/-- An exit path checks its delay, and no other sequence. -/
theorem requiredSequences_of_exit {ops : List ScriptOp} {path : ExitPath} (hsettled : ∀ o ∈ ops, o.Settled)
    (h : Leaf.exitOfOps ops = .ok (some path)) :
    firstSequence? ops = some path.terms.delay.sequence ∧ requiredSequences ops = [path.terms.delay.sequence] := by
  obtain ⟨before, push, after, rfl, hlacks, hvalue, howners, _, _⟩ := Leaf.exists_push_of_exitOfOps hsettled h
  have hafter : ∀ o ∈ after, o.Settled := fun o hmem => hsettled o (by simp [hmem])
  obtain ⟨_, hkeys⟩ := readAs_checkOps after hafter howners
  have hrest : Lacks Opcode.checkSequence (op Opcode.drop :: after) := by
    rw [← hkeys.map_asRead]
    have hdrop : (op Opcode.drop).isCode Opcode.checkSequence = false := by decide
    exact List.forall_mem_cons.mpr ⟨hdrop, (lacks_checkOps (by decide) (by decide) _).map_asRead (by decide)⟩
  have hfront : requiredSequences (before ++ [push]) = [] := by
    cases before with
    | nil => rfl
    | cons o rest => exact requiredSequences_cons_of_lacks (List.forall_mem_cons.mp hlacks).2
  constructor
  · rw [firstSequence?_append hlacks, hvalue, Option.bind_some, word?_toNat]
  · rw [requiredSequences_append, hfront, requiredSequences_cons_of_lacks hrest, pushedNumber?_of_int? hvalue,
      Option.bind_some, word?_toNat]
    rfl

theorem relativeLock?_eq_bind (ops : List ScriptOp) :
    relativeLock? ops = (firstSequence? ops).bind fun sequence => (RelativeLock.ofSequence sequence).toOption := by
  rw [relativeLock?, firstSequence?]
  simp only [Option.bind_eq_bind, Option.bind_assoc]

end ScriptOp

/-! ## What a coin reads -/

open ScriptOp RelativeLock

/-- The sequence that is read of a script is the number before the first check, unless it has undefined bits. -/
theorem SpendLocks.sequence_of_ofOps {ops : List ScriptOp} {locks : SpendLocks} (h : ofOps ops = .ok locks) :
    locks.sequence = (firstSequence? ops).filter fun sequence => IsDefined sequence := by
  rw [ofOps, relativeLock?_eq_bind] at h
  cases hfirst : firstSequence? ops with
  | none =>
    rw [hfirst] at h
    cases h
    rfl
  | some first =>
    rw [hfirst, Option.bind_some] at h
    rw [Option.filter_some]
    cases hread : RelativeLock.ofSequence first with
    | error fault =>
      have hundefined : ¬ IsDefined first := fun hdefined => by
        obtain ⟨lock, hlock⟩ := exists_ofSequence_iff.mpr hdefined
        rw [hlock] at hread
        cases hread
      rw [hread] at h
      cases h
      rw [if_neg (by simpa using hundefined)]
    | ok lock =>
      rw [hread] at h
      obtain ⟨sequence, hsequence, h⟩ := bind_eq_ok.mp h
      cases h
      obtain ⟨enforcing, hwritten, rfl⟩ := map_eq_ok.mp hsequence
      rw [toSequence_ofSequence hread hwritten, if_pos (decide_eq_true (exists_ofSequence_iff.mp ⟨lock, hread⟩))]

namespace Coin

theorem sequence_eq (coin : Coin) {ops : List ScriptOp} (hread : ScriptOp.read coin.leaf = .ok ops) :
    coin.locks.sequence = (firstSequence? ops).filter fun sequence => IsDefined sequence := by
  obtain ⟨_, _, hlocks⟩ := SpendLocks.ofSpend_eq_ok.mp coin.checked
  rw [hread] at hlocks
  exact SpendLocks.sequence_of_ofOps hlocks

/-- A coin has no sequence that its script does not ask for. -/
theorem mem_requiredSequences_of_sequence (coin : Coin) {ops : List ScriptOp} {sequence : UInt32}
    (hread : ScriptOp.read coin.leaf = .ok ops) (h : coin.locks.sequence = some sequence) :
    sequence ∈ requiredSequences ops := by
  rw [coin.sequence_eq hread] at h
  exact mem_requiredSequences_of_first (Option.filter_eq_some_iff.mp h).1

/-- A coin that is spent through an exit path passes it: its sequence is that of the delay. -/
theorem meets_of_exit (coin : Coin) {path : ExitPath} (h : Leaf.exitOfScript coin.leaf = .ok path) :
    coin.locks.sequence = some path.terms.delay.sequence ∧
      ∃ ops, ScriptOp.read coin.leaf = .ok ops ∧
        ∀ required ∈ requiredSequences ops, Meets path.terms.delay.sequence required := by
  obtain ⟨ops, hread, hexit⟩ := Leaf.exitOfScript_eq_ok.mp h
  obtain ⟨hfirst, hrequired⟩ := requiredSequences_of_exit (settled_of_read hread) hexit
  have hdefined : IsDefined path.terms.delay.sequence :=
    exists_ofSequence_iff.mp ⟨_, path.terms.delay.ofSequence_sequence⟩
  refine ⟨?_, ops, hread, fun required hmem => ?_⟩
  · rw [coin.sequence_eq hread, hfirst, Option.filter_some, if_pos (decide_eq_true hdefined)]
  · rw [hrequired] at hmem
    rw [List.mem_singleton.mp hmem]
    exact hdefined.meets_self

/-- The sequence of a coin passes every check of its script if and only if none of them has a number before it, or the
first one does, in its shortest form and without undefined bits, and no other asks for more or for another unit. -/
theorem sequence_meets_iff {wallet : String} {contract : Contract} {outpoint : OutPoint} {output : TxOut}
    {leaf : Bytes} {coin : Coin} {ops : List ScriptOp} (hmake : make wallet contract outpoint output leaf = .ok coin)
    (hread : ScriptOp.read leaf = .ok ops) :
    (∀ required ∈ requiredSequences ops,
      ∃ sequence, coin.locks.sequence = some sequence ∧ Meets sequence required) ↔
      requiredSequences ops = [] ∨
        ∃ first, firstSequence? ops = some first ∧ IsDefined first ∧
          ∀ required ∈ requiredSequences ops, Meets first required := by
  have hsequence : coin.locks.sequence = (firstSequence? ops).filter fun sequence => IsDefined sequence :=
    coin.sequence_eq (by rw [leaf_of_make hmake, hread])
  constructor
  · intro h
    cases hrequired : requiredSequences ops with
    | nil => exact .inl rfl
    | cons required rest =>
      rw [hrequired] at h
      obtain ⟨first, hfirst, _⟩ := h required List.mem_cons_self
      rw [hsequence] at hfirst h
      obtain ⟨hnumber, hdefined⟩ := Option.filter_eq_some_iff.mp hfirst
      refine .inr ⟨first, hnumber, of_decide_eq_true hdefined, fun other hother => ?_⟩
      obtain ⟨sequence, hsame, hmeets⟩ := h other hother
      rw [hfirst] at hsame
      cases hsame
      exact hmeets
  · rintro (hnone | ⟨first, hfirst, hdefined, hmeets⟩) required hmem
    · rw [hnone] at hmem
      cases hmem
    · refine ⟨first, ?_, hmeets required hmem⟩
      rw [hsequence, hfirst, Option.filter_some, if_pos (decide_eq_true hdefined)]

/-- A script with two checks, the first of which asks for more. -/
def shrinkingDelays : List ScriptOp :=
  [.int 2, .op Opcode.checkSequence, .op Opcode.drop, .int 1, .op Opcode.checkSequence, .op Opcode.drop,
    .key unspendableKey, .op Opcode.checkSig]

/-- A script that asks for one block with a number that has a bit besides. -/
def undefinedDelay : List ScriptOp :=
  [.data [1, 0, 1], .op Opcode.checkSequence, .op Opcode.drop, .key unspendableKey, .op Opcode.checkSig]

/-- The contract of both. -/
def delays : Explicit :=
  .pair none (build shrinkingDelays) (build undefinedDelay)

theorem tweak?_delays :
    (((TapTree.branch (.leaf 0) (.leaf 1)).digest delays.scripts).toOption.bind fun root =>
      unspendableKey.tweak? (Commitment.tweak unspendableKey root)).isSome = true := by
  decide +kernel

theorem outputScript_delays : ∃ script, (Contract.explicit delays).outputScript = .ok script :=
  exists_outputScript_two (by rintro ⟨⟩) rfl tweak?_delays

theorem sequence_meets_iff_shrinkingDelays :
    ∃ script coin, make "" (.explicit delays) ⟨.zero, 0⟩ ⟨⟨0⟩, script⟩ (build shrinkingDelays) = .ok coin ∧
      ScriptOp.read (build shrinkingDelays) = .ok (shrinkingDelays.map asRead) ∧
      requiredSequences (shrinkingDelays.map asRead) = [2, 1] ∧ coin.locks.sequence = some 2 ∧
      ((∀ required ∈ requiredSequences (shrinkingDelays.map asRead),
        ∃ sequence, coin.locks.sequence = some sequence ∧ Meets sequence required) ↔
        requiredSequences (shrinkingDelays.map asRead) = [] ∨
          ∃ first, firstSequence? (shrinkingDelays.map asRead) = some first ∧ IsDefined first ∧
            ∀ required ∈ requiredSequences (shrinkingDelays.map asRead), Meets first required) := by
  have hreadable : ∀ o ∈ shrinkingDelays, o.Readable := by decide
  have hread := read_build hreadable
  obtain ⟨script, hscript⟩ := outputScript_delays
  obtain ⟨coin, hmake, hlocks⟩ :=
    exists_make_of_ops hscript ⟨some 2, none⟩ List.mem_cons_self hreadable rfl "" ⟨.zero, 0⟩ ⟨0⟩
  exact ⟨script, coin, hmake, hread, by decide +kernel, by rw [hlocks], sequence_meets_iff hmake hread⟩

/-- Not every coin has a sequence that passes the checks of its script. -/
theorem not_forall_sequence_meets :
    ¬ ∀ (wallet : String) (contract : Contract) (outpoint : OutPoint) (output : TxOut) (leaf : Bytes) (coin : Coin)
      (ops : List ScriptOp), make wallet contract outpoint output leaf = .ok coin → ScriptOp.read leaf = .ok ops →
      ∀ required ∈ requiredSequences ops,
        ∃ sequence, coin.locks.sequence = some sequence ∧ Meets sequence required := by
  intro h
  have hreadable : ∀ o ∈ undefinedDelay, o.Readable := by decide
  have hmem : build undefinedDelay ∈ delays.scripts := List.mem_cons_of_mem _ List.mem_cons_self
  have hrequired : 0x010001 ∈ requiredSequences (undefinedDelay.map asRead) := by decide +kernel
  obtain ⟨script, hscript⟩ := outputScript_delays
  obtain ⟨coin, hmake, hlocks⟩ := exists_make_of_ops hscript ⟨none, none⟩ hmem hreadable rfl "" ⟨.zero, 0⟩ ⟨0⟩
  obtain ⟨sequence, hsequence, _⟩ := h _ _ _ _ _ _ _ hmake (read_build hreadable) _ hrequired
  rw [hlocks] at hsequence
  cases hsequence

end Coin

end Vtxo
