import Mathlib.Algebra.Ring.Nat
import Mathlib.Data.List.Flatten
import Vtxo.Taproot.Tree

/-!
# Leaves and height of the tree over a list

Pairing and merging only put nodes together, so the tree over a list has each position of the list as a leaf once.
Merging goes through the queue in rounds: nodes of one round differ in height by one at most, and a round halves their
number. So the tree is no higher than it must be.

  1. `TapTree.perm_leaves_assemble`: the leaves are the positions of the list.
  2. `TapTree.Rounds.height_le`: what merging adds to the height.
  3. `TapTree.height_assemble_le`: 2^c leaves need c levels.
-/

set_option autoImplicit false

namespace Vtxo.TapTree

/-- The leaves from left to right. -/
def leaves : TapTree → List Nat
  | leaf index => [index]
  | branch left right => left.leaves ++ right.leaves

/-- The number of branches above the deepest leaf. -/
def height : TapTree → Nat
  | leaf _ => 0
  | branch left right => max left.height right.height + 1

/-! ## Leaves -/

theorem flatMap_leaves_pairUp {count : Nat} (start : Nat) (h : count ≠ 1) :
    (pairUp start count).flatMap leaves = List.range' start count := by
  fun_induction pairUp start count with
  | case1 => rfl
  | case2 => rfl
  | case3 start count h2 h3 ih =>
    have hone : count ≠ 1 := fun hone => h3 (by rw [hone])
    rw [List.flatMap_cons, ih hone]
    rfl
  | case4 count start h2 h3 hn =>
    rcases count with _ | _ | n
    · rfl
    · exact absurd rfl h
    · exact absurd rfl (hn n)

theorem perm_leaves_combine {queue : List TapTree} {tree : TapTree} (h : combine queue = some tree) :
    tree.leaves.Perm (queue.flatMap leaves) := by
  fun_induction combine queue with
  | case1 => cases h
  | case2 => cases h; exact .of_eq (by simp)
  | case3 left right rest ih =>
    refine (ih h).trans ?_
    rw [List.flatMap_append, List.flatMap_singleton, leaves, List.flatMap_cons, List.flatMap_cons,
      ← List.append_assoc left.leaves]
    exact List.perm_append_comm

theorem exists_combine {queue : List TapTree} (h : queue ≠ []) : ∃ tree, combine queue = some tree := by
  fun_induction combine queue with
  | case1 => exact absurd rfl h
  | case2 tree => exact ⟨tree, rfl⟩
  | case3 left right rest ih => exact ih (by simp)

theorem exists_assemble {count : Nat} (h : 0 < count) : ∃ tree, assemble count = some tree := by
  rw [assemble]
  split
  · exact ⟨_, rfl⟩
  · refine exists_combine fun hnil => ?_
    have hlength := length_pairUp 0 count
    rw [hnil, List.length_nil] at hlength
    omega

/-- Each position of the list is a leaf of the tree, once. -/
theorem perm_leaves_assemble {count : Nat} {tree : TapTree} (h : assemble count = some tree) :
    tree.leaves.Perm (List.range count) := by
  rw [assemble] at h
  split at h
  · next hone =>
    cases h
    rw [hone]
    exact .refl _
  · next hone =>
    refine (perm_leaves_combine h).trans (.of_eq ?_)
    rw [flatMap_leaves_pairUp 0 hone, List.range_eq_range']

/-! ## Height -/

/-- Some leaf lies as deep as the tree is high. -/
theorem exists_deepest (tree : TapTree) (depth : Nat) :
    ∃ index, (index, depth + tree.height) ∈ tree.depthsFrom depth := by
  induction tree generalizing depth with
  | leaf index => exact ⟨index, List.mem_singleton.mpr rfl⟩
  | branch left right ihl ihr =>
    rw [depthsFrom, height]
    rcases Nat.le_total left.height right.height with hle | hle
    · obtain ⟨index, hmem⟩ := ihr (depth + 1)
      rw [Nat.max_eq_right hle, ← Nat.add_assoc, Nat.add_right_comm]
      exact ⟨index, List.mem_append_right _ hmem⟩
    · obtain ⟨index, hmem⟩ := ihl (depth + 1)
      rw [Nat.max_eq_left hle, ← Nat.add_assoc, Nat.add_right_comm]
      exact ⟨index, List.mem_append_left _ hmem⟩

theorem height_branch_le {left right : TapTree} {bound : Nat} (hleft : left.height ≤ bound)
    (hright : right.height ≤ bound) : (branch left right).height ≤ bound + 1 :=
  Nat.succ_le_succ (Nat.max_le.mpr ⟨hleft, hright⟩)

/-- How a queue becomes a tree, in rounds: a queue is a round of nodes that have not been merged, and behind it what was
merged already.

* `nextRound`: a round that is over is followed by what is behind it.
* `across`: the last node of an odd round meets the first one of the next. What they become stands behind that round,
  and can also be counted as its last node.
* `pair`: two nodes of a round become one behind it. -/
inductive Rounds (tree : TapTree) : List TapTree → List TapTree → Prop
  | single : Rounds tree [tree] []
  | nextRound {node : TapTree} {fresh : List TapTree} : Rounds tree (node :: fresh) [] → Rounds tree [] (node :: fresh)
  | across {last node : TapTree} {fresh : List TapTree} : Rounds tree fresh [branch last node] →
      Rounds tree (fresh ++ [branch last node]) [] → Rounds tree [last] (node :: fresh)
  | pair {first second : TapTree} {old fresh : List TapTree} : Rounds tree old (fresh ++ [branch first second]) →
      Rounds tree (first :: second :: old) fresh

theorem rounds_of_combine {tree : TapTree} :
    (old fresh : List TapTree) → combine (old ++ fresh) = some tree → Rounds tree old fresh
  | [], [], h => by
    rw [List.append_nil, combine] at h
    cases h
  | [last], [], h => by
    rw [List.append_nil, combine, Option.some.injEq] at h
    exact h ▸ .single
  | [], node :: fresh, h => by
    refine .nextRound (rounds_of_combine (node :: fresh) [] ?_)
    rw [List.append_nil]
    exact h
  | [last], node :: fresh, h => by
    rw [List.cons_append, List.nil_append, combine] at h
    refine .across (rounds_of_combine fresh [branch last node] h)
      (rounds_of_combine (fresh ++ [branch last node]) [] ?_)
    rw [List.append_nil]
    exact h
  | first :: second :: old, fresh, h => by
    rw [List.cons_append, List.cons_append, combine, List.append_assoc] at h
    exact .pair (rounds_of_combine old (fresh ++ [branch first second]) h)
termination_by old fresh => 2 * old.length + 3 * fresh.length

/-- What was merged is one higher than the round. With as many nodes as 2^c of the round make, merging adds c levels. -/
theorem Rounds.height_le {tree : TapTree} {old fresh : List TapTree} {bound c : Nat} (h : Rounds tree old fresh)
    (hold : ∀ node ∈ old, node.height ≤ bound) (hfresh : ∀ node ∈ fresh, node.height ≤ bound + 1)
    (hcount : old.length + 2 * fresh.length ≤ 2 ^ c) : tree.height ≤ bound + c := by
  induction h generalizing bound c with
  | single => exact Nat.le_trans (hold tree List.mem_cons_self) (Nat.le_add_right bound c)
  | nextRound _ ih =>
    simp only [List.length_nil, List.length_cons] at hcount ih
    cases c with
    | zero => omega
    | succ c =>
      rw [Nat.pow_succ] at hcount
      have hheight := ih hfresh (List.forall_mem_nil _) (c := c) (by omega)
      omega
  | @across last node fresh _ _ ih _ =>
    obtain ⟨hnode, hfresh⟩ := List.forall_mem_cons.mp hfresh
    have hmerged : (branch last node).height ≤ bound + 1 + 1 :=
      height_branch_le (Nat.le_succ_of_le (hold last List.mem_cons_self)) hnode
    simp only [List.length_nil, List.length_cons] at hcount ih
    cases c with
    | zero => omega
    | succ c =>
      rw [Nat.pow_succ] at hcount
      have hheight := ih hfresh (List.forall_mem_singleton.mpr hmerged) (c := c) (by omega)
      omega
  | pair _ ih =>
    obtain ⟨hfirst, hold⟩ := List.forall_mem_cons.mp hold
    obtain ⟨hsecond, hold⟩ := List.forall_mem_cons.mp hold
    have hmerged := List.forall_mem_append.mpr
      ⟨hfresh, List.forall_mem_singleton.mpr (height_branch_le hfirst hsecond)⟩
    refine ih hold hmerged ?_
    simp only [List.length_cons, List.length_append, List.length_nil] at hcount ⊢
    omega

/-- Pairs have height one, and a pair with the odd last leaf has height two. -/
theorem pairUp_eq_append {count : Nat} (start : Nat) (h : count ≠ 1) :
    ∃ pairs odd, pairUp start count = pairs ++ odd ∧ (∀ node ∈ pairs, node.height ≤ 1) ∧
      (∀ node ∈ odd, node.height ≤ 1 + 1) ∧ pairs.length + 2 * odd.length = (count + 1) / 2 := by
  fun_induction pairUp start count with
  | case1 start => exact ⟨[_], [], rfl, by simp [height], by simp, rfl⟩
  | case2 start => exact ⟨[], [_], rfl, by simp, by simp [height], rfl⟩
  | case3 start count h2 h3 ih =>
    have hone : count ≠ 1 := fun hone => h3 (by rw [hone])
    obtain ⟨pairs, odd, heq, hpairs, hodd, hlength⟩ := ih hone
    refine ⟨branch (leaf start) (leaf (start + 1)) :: pairs, odd, by rw [heq]; rfl, ?_, hodd, ?_⟩
    · exact List.forall_mem_cons.mpr ⟨Nat.le_refl 1, hpairs⟩
    · rw [List.length_cons]
      omega
  | case4 count start h2 h3 hn =>
    rcases count with _ | _ | n
    · exact ⟨[], [], rfl, by simp, by simp, rfl⟩
    · exact absurd rfl h
    · exact absurd rfl (hn n)

/-- A tree over no more than 2^c leaves has no leaf below level c. -/
theorem height_assemble_le {count c : Nat} {tree : TapTree} (hcount : count ≤ 2 ^ c)
    (h : assemble count = some tree) : tree.height ≤ c := by
  rw [assemble] at h
  split at h
  · cases h
    exact Nat.zero_le c
  · next hone =>
    obtain ⟨pairs, odd, heq, hpairs, hodd, hlength⟩ := pairUp_eq_append 0 hone
    rw [heq] at h
    cases c with
    | zero =>
      -- Without leaves there is nothing to merge.
      have hpairsLength : pairs.length = 0 := by omega
      have hoddLength : odd.length = 0 := by omega
      rw [List.length_eq_zero_iff.mp hpairsLength, List.length_eq_zero_iff.mp hoddLength, List.append_nil, combine] at h
      cases h
    | succ c =>
      have hround : pairs.length + 2 * odd.length ≤ 2 ^ c := by
        rw [Nat.pow_succ] at hcount
        omega
      have hheight := (rounds_of_combine pairs odd h).height_le hpairs hodd hround
      omega

end Vtxo.TapTree
