import Vtxo.Taproot.Tree

/-!
# Building a commitment from depths

A commitment is built by adding scripts with their depths from left to right. The builder holds one place for
each depth; a node that meets a node at its own depth merges with it and moves one level up. The tree is complete
when its only place, at depth zero, is filled.

  1. `Builder.add`: one script.
  2. `Builder.complete?`: the finished tree with the path of every leaf.
-/

set_option autoImplicit false

namespace Vtxo

/-- A script and the digests of the subtrees beside its path, from the leaf upwards. -/
structure LeafPath where
  script : Bytes
  path : List (Sized 32)

/-- A finished subtree: its digest and its leaves. -/
structure Subtree where
  digest : Sized 32
  leaves : List LeafPath

namespace Subtree

/-- The subtree of a single script. -/
def single (script : Bytes) : Subtree :=
  ⟨leafHash script, [⟨script, []⟩]⟩

/-- The leaves with one more digest at the end of their paths. -/
def lengthen (beside : Sized 32) (leaves : List LeafPath) : List LeafPath :=
  leaves.map fun leaf => { leaf with path := leaf.path ++ [beside] }

/-- Two subtrees below one node. -/
def merge (a b : Subtree) : Subtree :=
  ⟨branchHash a.digest b.digest, lengthen b.digest a.leaves ++ lengthen a.digest b.leaves⟩

end Subtree

/-- One place for each depth, the deepest first; `none` where a left subtree is still missing. -/
abbrev Builder := List (Option Subtree)

namespace Builder

/-- The deepest level a leaf may have. -/
def maxDepth : Nat := 128

/-- Put a subtree at the depth of the deepest place: merge while that place is taken, and move up. -/
def place (node : Subtree) : Builder → Except Error Builder
  | [] => .ok [some node]
  | none :: above => .ok (some node :: above)
  | [some _] => .error (.taproot .overComplete)
  | some child :: above => place (node.merge child) above

/-- Add a subtree at a depth. -/
def insert (builder : Builder) (node : Subtree) (depth : Nat) : Except Error Builder :=
  if depth > maxDepth then .error (.taproot (.tooDeep depth))
  else if depth + 1 < builder.length then .error (.taproot .notDepthFirst)
  else if depth + 1 = builder.length then place node builder
  else .ok (some node :: (List.replicate (depth - builder.length) none ++ builder))

/-- Add a script at a depth. -/
def add (builder : Builder) (script : Bytes) (depth : Nat) : Except Error Builder :=
  builder.insert (.single script) depth

/-- The finished tree, if nothing is missing. -/
def complete? : Builder → Option Subtree
  | [some tree] => some tree
  | _ => none

end Builder

end Vtxo
