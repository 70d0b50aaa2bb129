import Vtxo.Error

/-!
# Relative timelocks

A relative timelock is a number of blocks, or a number of seconds that an input's sequence can hold: a positive
multiple of 512 that fits sixteen bits once divided. Scripts and sequences carry it as one 32-bit number: the
low sixteen bits are the value and bit 22 says that it counts intervals of 512 seconds.

  1. `Delay.lock_inj`: an enforceable lock has one sequence.
  2. `Delay.ofLock_eq_ok`: what makes a lock a delay.
-/

set_option autoImplicit false

namespace Vtxo

/-- A relative timelock as it is written down, enforceable or not. -/
inductive RelativeLock where
  | blocks (count : UInt16)
  | seconds (count : UInt32)
deriving DecidableEq

namespace RelativeLock

/-- The bit that switches a sequence's lock off. -/
def disableFlag : UInt32 := 0x80000000

/-- The bit that selects intervals of 512 seconds. -/
def intervalFlag : UInt32 := 0x00400000

/-- The bits that hold the value. -/
def valueMask : UInt32 := 0x0000ffff

/-- The sequence that enforces a lock. -/
def toSequence : RelativeLock → Except Error UInt32
  | blocks count => .ok count.toUInt32
  | seconds count =>
    if count = 0 ∨ count % 512 ≠ 0 then .error (.timelock (.notMultiple count))
    else if count / 512 > valueMask then .error (.timelock (.tooLong count))
    else .ok (intervalFlag ||| (count / 512))

/-- The lock a sequence enforces; disabled sequences and undefined bits are refused. -/
def ofSequence (sequence : UInt32) : Except Error RelativeLock :=
  if sequence &&& disableFlag ≠ 0 then .error (.timelock (.disabled sequence))
  else if sequence &&& ~~~ (intervalFlag ||| valueMask) ≠ 0 then
    .error (.timelock (.undefinedBits sequence))
  else
    let value := sequence &&& valueMask
    if sequence &&& intervalFlag ≠ 0 then .ok (seconds (value * 512))
    else .ok (blocks value.toUInt16)

/-- The number scripts push for a lock. -/
def scriptValue (lock : RelativeLock) : Except Error Int :=
  lock.toSequence.map fun sequence => sequence.toNat

/-- The lock unchanged, if a sequence can enforce it. -/
def validated (lock : RelativeLock) : Except Error RelativeLock :=
  lock.toSequence.map fun _ => lock

def render : RelativeLock → String
  | blocks count => toString count.toNat ++ " blocks"
  | seconds count => toString count.toNat ++ " seconds"

end RelativeLock

/-- A relative timelock that a sequence can enforce, with that sequence. -/
structure Delay where
  lock : RelativeLock
  sequence : UInt32
  enforced : lock.toSequence = .ok sequence

namespace Delay

/-- The lock as a delay, if a sequence can enforce it. -/
def ofLock (lock : RelativeLock) : Except Error Delay :=
  match h : lock.toSequence with
  | .ok sequence => .ok ⟨lock, sequence, h⟩
  | .error e => .error e

/-- A delay is determined by its lock. -/
theorem lock_inj {a b : Delay} (h : a.lock = b.lock) : a = b := by
  obtain ⟨lock, sequence, ha⟩ := a
  obtain ⟨lock', sequence', hb⟩ := b
  simp only at h
  subst h
  rw [ha] at hb
  cases hb
  rfl

instance : DecidableEq Delay := fun a b =>
  if h : a.lock = b.lock then isTrue (lock_inj h) else isFalse fun hab => h (congrArg lock hab)

theorem ofLock_lock (delay : Delay) : ofLock delay.lock = .ok delay := by
  unfold ofLock
  split
  · next sequence h =>
    exact congrArg Except.ok (lock_inj rfl)
  · next e h =>
    rw [delay.enforced] at h
    cases h

theorem ofLock_eq_ok {lock : RelativeLock} {delay : Delay} :
    ofLock lock = .ok delay ↔ delay.lock = lock := by
  constructor
  · intro h
    unfold ofLock at h
    split at h
    · cases h
      rfl
    · cases h
  · rintro rfl
    exact ofLock_lock delay

/-- The delay of a number of blocks. -/
def ofBlocks (count : UInt16) : Delay :=
  ⟨.blocks count, count.toUInt32, rfl⟩

end Delay

end Vtxo
