import Vtxo.Hash.Ripemd160
import Vtxo.Hash.Tagged
import Vtxo.Encoding.CompactSize
import Vtxo.Script.Op
import Vtxo.Timelock

/-!
# Spending conditions

A leaf is one way to spend an output: who must sign, what must be revealed, and how long to wait. Leaves are
composed from smaller leaves, and each one is a list of script operations.

```text
multisig        k1 CHECKSIGVERIFY ... kn CHECKSIGVERIFY
hash lock       SHA256|HASH160 digest EQUAL
lock time       time CHECKLOCKTIMEVERIFY DROP
verify          inner VERIFY
composite       part1 part2 ...
collaborative   [condition] server CHECKSIG
unilateral      [condition VERIFY] delay CHECKSEQUENCEVERIFY DROP k1 CHECKSIGVERIFY ... kn CHECKSIG
```

  1. `Leaf.script`: the script of a leaf.
  2. `HashLock.opens_sha256Of`: a preimage opens the lock on its digest.
-/

set_option autoImplicit false

namespace Vtxo

/-! ## Hash locks -/

/-- A digest of which the preimage must be revealed. -/
inductive HashLock where
  | sha256 (digest : Sized 32)
  | hash160 (digest : Sized 20)
deriving DecidableEq

namespace HashLock

/-- The lock that a preimage opens, under SHA-256. -/
def sha256Of (preimage : Bytes) : HashLock :=
  sha256 (Sha256.hash preimage)

def digest : HashLock → Bytes
  | sha256 digest => digest.val
  | hash160 digest => digest.val

/-- Whether a preimage opens the lock. -/
def opens : HashLock → Bytes → Bool
  | sha256 digest, preimage => Sha256.hash preimage == digest
  | hash160 digest, preimage => Ripemd160.hash160 preimage == digest

def ops : HashLock → List ScriptOp
  | sha256 digest => [.op Opcode.sha256, .data digest.val, .op Opcode.equal]
  | hash160 digest => [.op Opcode.hash160, .data digest.val, .op Opcode.equal]

theorem opens_sha256Of (preimage : Bytes) : (sha256Of preimage).opens preimage = true := by
  simp [sha256Of, opens]

end HashLock

/-! ## Leaves -/

/-- Who may leave without the operator, and after which delay. -/
structure ExitTerms where
  delay : Delay
  owners : List XOnlyKey
  nonempty : owners ≠ []

namespace ExitTerms

/-- The terms, if there is an owner and a sequence can enforce the lock. -/
def make (lock : RelativeLock) (owners : List XOnlyKey) : Except Error ExitTerms :=
  if h : owners = [] then .error (.script .noOwners)
  else (Delay.ofLock lock).map fun delay => ⟨delay, owners, h⟩

/-- The terms of a single owner. -/
def single (delay : Delay) (owner : XOnlyKey) : ExitTerms :=
  ⟨delay, [owner], List.cons_ne_nil _ _⟩

/-- The terms of two owners. -/
def pair (delay : Delay) (first second : XOnlyKey) : ExitTerms :=
  ⟨delay, [first, second], List.cons_ne_nil _ _⟩

end ExitTerms

/-- A way to spend an output. -/
inductive Leaf where
  /-- Every owner must sign. -/
  | multisig (owners : List XOnlyKey)
  /-- The preimage of a digest must be revealed. -/
  | hashLock (lock : HashLock)
  /-- An absolute time must have passed. -/
  | lockTime (time : UInt32)
  /-- A leaf whose result must be true. -/
  | verify (inner : Leaf)
  /-- Leaves one after the other. -/
  | composite (parts : List Leaf)
  /-- Operations as they are. -/
  | generic (ops : List ScriptOp)
  /-- The operator signs, after a condition. -/
  | collaborative (server : XOnlyKey) (condition : Option Leaf)
  /-- The owners sign, after a condition and a delay. -/
  | unilateral (terms : ExitTerms) (condition : Option Leaf)

/-- Keys each checked by an operation that fails on a wrong signature. -/
def verifyOps (owners : List XOnlyKey) : List ScriptOp :=
  owners.flatMap fun key => [.key key, .op Opcode.checkSigVerify]

/-- Keys of which the last is checked by an operation that leaves its result. -/
def checkOps : List XOnlyKey → List ScriptOp
  | [] => []
  | [key] => [.key key, .op Opcode.checkSig]
  | key :: rest => .key key :: .op Opcode.checkSigVerify :: checkOps rest

namespace Leaf

mutual

/-- The operations of a leaf. -/
def ops : Leaf → List ScriptOp
  | multisig owners => verifyOps owners
  | hashLock lock => lock.ops
  | lockTime time => [.int time.toNat, .op Opcode.checkLockTime, .op Opcode.drop]
  | verify inner => inner.ops ++ [.op Opcode.verify]
  | composite parts => partsOps parts
  | generic ops => ops
  | collaborative server condition => guardOps condition ++ [.key server, .op Opcode.checkSig]
  | unilateral terms condition =>
    (match condition with
      | none => []
      | some inner => inner.ops ++ [.op Opcode.verify]) ++
    .int terms.delay.sequence.toNat :: .op Opcode.checkSequence :: .op Opcode.drop ::
      checkOps terms.owners

/-- The operations of leaves one after the other. -/
def partsOps : List Leaf → List ScriptOp
  | [] => []
  | part :: rest => part.ops ++ partsOps rest

/-- The operations of a condition, if there is one. -/
def guardOps : Option Leaf → List ScriptOp
  | none => []
  | some inner => inner.ops

end

/-- The script of a leaf. -/
def script (leaf : Leaf) : Bytes :=
  ScriptOp.build leaf.ops

end Leaf

/-- The version of the script rules that every leaf is written for. -/
def leafVersion : UInt8 := 0xc0

/-- A version of script rules: an even byte, so that a parity can go with it, but not the one that begins an annex. -/
structure LeafVersion where
  byte : UInt8
  even : byte.toNat % 2 = 0
  notAnnex : byte ≠ 0x50
deriving DecidableEq

def LeafVersion.tapscript : LeafVersion := ⟨leafVersion, by decide, by decide⟩

/-- The digest that a commitment tree holds for a script. -/
def leafHash (script : Bytes) : Sized 32 :=
  Tagged.hashIn Tagged.leafDomain
    (leafVersion :: (CompactSize.encode script.length ++ script))

end Vtxo
