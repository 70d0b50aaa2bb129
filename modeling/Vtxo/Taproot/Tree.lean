import Vtxo.Leaf.Basic

/-!
# The shape of a commitment tree

A commitment tree over an ordered list of scripts has a shape that the number of scripts alone determines, so
that every party derives the same tree:

  * neighbours are paired, `(0,1) (2,3) ...`, and an odd last leaf joins the last pair;
  * the two nodes at the front of the queue are then merged and go to its end, until one is left.

  1. `length_pairUp`: pairing halves the number of nodes.
  2. `combine`: each merge leaves one node less, so the queue runs down to a single tree.
-/

set_option autoImplicit false

namespace Vtxo

/-- A tree whose leaves are positions in a list. -/
inductive TapTree where
  | leaf (index : Nat)
  | branch (left right : TapTree)
deriving DecidableEq

namespace TapTree

/-! ## Assembly -/

/-- The pairs `(start, start+1) (start+2, start+3) ...` over `count` leaves; an odd last leaf joins the last
pair. -/
def pairUp : Nat → Nat → List TapTree
  | start, 2 => [branch (leaf start) (leaf (start + 1))]
  | start, 3 => [branch (branch (leaf start) (leaf (start + 1))) (leaf (start + 2))]
  | start, count + 2 => branch (leaf start) (leaf (start + 1)) :: pairUp (start + 2) count
  | _, _ => []

theorem length_pairUp (start count : Nat) : (pairUp start count).length = count / 2 := by
  fun_induction pairUp start count with
  | case1 => rfl
  | case2 => rfl
  | case3 start count _ _ ih =>
    rw [List.length_cons, ih]
    omega
  | case4 count start h2 h3 hn =>
    match count, h2, h3, hn with
    | 0, _, _, _ => rfl
    | 1, _, _, _ => rfl
    | n + 2, _, _, hn => exact absurd rfl (hn n)

/-- Merge the two nodes at the front and put the result at the end, until one is left. -/
def combine : List TapTree → Option TapTree
  | [] => none
  | [tree] => some tree
  | left :: right :: rest => combine (rest ++ [branch left right])
termination_by queue => queue.length
decreasing_by simp

/-- The tree over `count` leaves, of which there must be at least one. -/
def assemble (count : Nat) : Option TapTree :=
  if count = 1 then some (leaf 0) else combine (pairUp 0 count)

/-! ## Depths and digests -/

/-- The leaves from left to right with their depths, below a node at `depth`. -/
def depthsFrom (depth : Nat) : TapTree → List (Nat × Nat)
  | leaf index => [(index, depth)]
  | branch left right => depthsFrom (depth + 1) left ++ depthsFrom (depth + 1) right

/-- The leaves from left to right with their depths. -/
def leafDepths (tree : TapTree) : List (Nat × Nat) :=
  depthsFrom 0 tree

end TapTree

/-- The digest of a node from those of its children, whose order does not matter. -/
def branchHash (a b : Sized 32) : Sized 32 :=
  if a.val < b.val then Tagged.hashIn Tagged.branchDomain (a.val ++ b.val)
  else Tagged.hashIn Tagged.branchDomain (b.val ++ a.val)

/-- The digest of a tree over the given scripts; the first leaf without a script is an error. -/
def TapTree.digest (scripts : List Bytes) : TapTree → Except Error (Sized 32)
  | .leaf index =>
    match scripts[index]? with
    | some script => .ok (leafHash script)
    | none => .error (.taproot (.noSuchLeaf index))
  | .branch left right => do
    let l ← digest scripts left
    let r ← digest scripts right
    return branchHash l r

end Vtxo
