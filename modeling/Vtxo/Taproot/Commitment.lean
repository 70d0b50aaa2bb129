import Vtxo.Curve.Schnorr
import Vtxo.Taproot.Builder
import Vtxo.Transaction.Basic

/-!
# Commitments

An output commits to an ordered list of scripts: its key is a fixed key that nobody can sign for, moved by the
digest of the tree over the scripts. To spend through a script one shows the script and its control
block, which holds what is needed to recompute the output key: the version of the script, the parity, the fixed key and
the path.

  1. `Commitment.make`: the commitment to a list of scripts.
  2. `Commitment.controlBlock`: the control block of a script, the shortest and then the smallest path.
-/

set_option autoImplicit false

namespace Vtxo

/-- The coordinate that nobody knows a secret for. -/
def unspendableBytes : Bytes :=
  Bytes.natBE 32 0x50929b74c1a04954b78b4b6035e97a5e078a5a0f28ec96d547bfee9ace803ac0

/-- The fixed internal key of every output. -/
def unspendableKey : XOnlyKey :=
  ⟨unspendableBytes, by decide +kernel⟩

/-- What is shown beside a script to prove that an output commits to it. -/
structure ControlBlock where
  version : LeafVersion
  odd : Bool
  internal : XOnlyKey
  path : List (Sized 32)
deriving DecidableEq

/-- Version and parity in one byte. -/
def versionByte (version : LeafVersion) (odd : Bool) : UInt8 :=
  if odd then version.byte + 1 else version.byte

theorem versionByte_inj {a b : LeafVersion} {odd odd' : Bool} (h : versionByte a odd = versionByte b odd') :
    a = b ∧ odd = odd' := by
  have hbyte (hsame : a.byte = b.byte) : a = b := by
    cases a
    cases b
    congr
  have heven := a.even
  have heven' := b.even
  have hlt := a.byte.toNat_lt
  have hlt' := b.byte.toNat_lt
  cases odd <;> cases odd' <;> have hnat := congrArg UInt8.toNat h <;>
    simp only [versionByte, if_true, Bool.false_eq_true, if_false, UInt8.toNat_add, UInt8.toNat_one] at hnat
  · exact ⟨hbyte (UInt8.toNat_inj.mp hnat), rfl⟩
  · omega
  · omega
  · exact ⟨hbyte (UInt8.toNat_inj.mp (by omega)), rfl⟩

/-- Version and parity in one byte, the internal key, and the path. -/
def ControlBlock.bytes (block : ControlBlock) : Bytes :=
  versionByte block.version block.odd ::
    (block.internal.bytes ++ block.path.flatMap Subtype.val)

/-- The scripts of an output with the tree over them and the key that commits to it. -/
structure Commitment where
  scripts : List Bytes
  tree : TapTree
  leaves : List LeafPath
  root : Sized 32
  outputKey : XOnlyKey
  odd : Bool

namespace Commitment

/-- The digest that moves the internal key. -/
def tweak (internal : XOnlyKey) (root : Sized 32) : Sized 32 :=
  Tagged.hashIn Tagged.tweakDomain (internal.bytes ++ root.val)

/-- Add the scripts at the depths that a tree gives them. -/
def addAll (scripts : List Bytes) (tree : TapTree) : Except Error Builder :=
  tree.leafDepths.foldlM
    (fun builder (index, depth) => builder.add (scripts.getD index []) depth) []

/-- The commitment to a list of scripts. -/
def make (scripts : List Bytes) : Except Error Commitment := do
  let some tree := TapTree.assemble scripts.length | throw (.taproot .empty)
  let builder ← addAll scripts tree
  let some subtree := builder.complete? | throw (.taproot .incomplete)
  let some (outputKey, odd) := unspendableKey.tweak? (tweak unspendableKey subtree.digest)
    | throw (.taproot .noOutputKey)
  -- The builder saw depths only; that it arrived at the digest of the tree is checked, not assumed.
  let root ← tree.digest scripts
  if subtree.digest ≠ root then throw (.taproot .rootMismatch)
  return ⟨scripts, tree, subtree.leaves, root, outputKey, odd⟩

/-- Whether one path is preferred to another: it is shorter, or as long and smaller. -/
def pathBefore (a b : List (Sized 32)) : Bool :=
  a.length < b.length || (a.length == b.length && a.flatMap Subtype.val < b.flatMap Subtype.val)

/-- The preferred one of some paths. -/
def bestPath : List (List (Sized 32)) → Option (List (Sized 32))
  | [] => none
  | path :: rest =>
    match bestPath rest with
    | none => some path
    | some best => some (if pathBefore best path then best else path)

/-- The paths of a script. -/
def pathsOf (commitment : Commitment) (script : Bytes) : List (List (Sized 32)) :=
  (commitment.leaves.filter (·.script == script)).map LeafPath.path

/-- The control block of a script the output commits to. -/
def controlBlock (commitment : Commitment) (script : Bytes) : Except Error ControlBlock :=
  match bestPath (commitment.pathsOf script) with
  | some path => .ok ⟨.tapscript, commitment.odd, unspendableKey, path⟩
  | none => .error (.taproot .foreignScript)

/-- The script of the output. -/
def outputScript (commitment : Commitment) : Bytes :=
  taprootScript commitment.outputKey

end Commitment

end Vtxo
