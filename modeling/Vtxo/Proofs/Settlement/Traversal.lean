import Mathlib.Logic.Function.Iterate
import Vtxo.Proofs.Settlement.Conservation
import Vtxo.Settlement.Chunk

/-!
# Leaves, found with a stack

The leaves of a tree are found without recursion: the tree on top of a stack is taken off, and where it has children
they take its place. What is still to come off a stack are the nodes of its trees, as the recursion lists them. So the
stack is empty after as many turns as there are nodes, and searches that are continued where the last one ended find the
childless nodes in the order of all nodes.

  1. `Tree.flatMap_nodes_cons`, `Tree.flatMap_nodes_iterate_unstack`: one turn, and any number.
  2. `Tree.nextLeaf_eq_none_iff`, `Tree.exists_of_nextLeaf`: one search.
  3. `Tree.leaves_eq_filter`: the leaves of a tree.
  4. `Tree.leaves_traverse`: the turns, the searches, the leaves and the counts.
-/

set_option autoImplicit false

namespace Vtxo.Settlement.Tree

theorem nodesAll_eq_flatMap (children : List (UInt32 × Tree)) :
    nodesAll children = (children.map (·.2)).flatMap nodes := by
  induction children with
  | nil => rfl
  | cons entry rest ih => rw [nodesAll, ih, List.map_cons, List.flatMap_cons]

theorem nodesAll_append (before after : List (UInt32 × Tree)) :
    nodesAll (before ++ after) = nodesAll before ++ nodesAll after := by
  simp only [nodesAll_eq_flatMap, List.map_append, List.flatMap_append]

/-! ## Turns -/

theorem flatMap_nodes_pushAll (children : List (UInt32 × Tree)) (stack : List Tree) :
    (pushAll children stack).flatMap nodes = nodesAll children ++ stack.flatMap nodes := by
  induction children with
  | nil => rfl
  | cons child rest ih =>
    rw [pushAll, List.foldr_cons, ← pushAll, List.flatMap_cons, ih, nodesAll, List.append_assoc]

/-- One turn takes off the first of the nodes that are still to come. -/
theorem flatMap_nodes_cons (tree : Tree) (rest : List Tree) :
    (tree :: rest).flatMap nodes = tree :: (unstack (tree :: rest)).flatMap nodes := by
  cases tree with
  | node root children =>
    rw [unstack, flatMap_nodes_pushAll, List.flatMap_cons, nodes, Tree.children, List.cons_append]

theorem flatMap_nodes_unstack (stack : List Tree) : (unstack stack).flatMap nodes = (stack.flatMap nodes).tail := by
  cases stack with
  | nil => rfl
  | cons tree rest => rw [flatMap_nodes_cons, List.tail_cons]

theorem flatMap_nodes_iterate_unstack (turns : Nat) (stack : List Tree) :
    (unstack^[turns] stack).flatMap nodes = (stack.flatMap nodes).drop turns := by
  induction turns generalizing stack with
  | zero => rfl
  | succ turns ih => rw [Function.iterate_succ_apply, ih, flatMap_nodes_unstack, List.drop_tail]

theorem head?_flatMap_nodes (stack : List Tree) : (stack.flatMap nodes).head? = stack.head? := by
  cases stack with
  | nil => rfl
  | cons tree rest => rw [flatMap_nodes_cons, List.head?_cons, List.head?_cons]

/-! ## Searches -/

/-- A search fails on an empty stack only: below every tree there is a leaf. -/
theorem nextLeaf_eq_none_iff {stack : List Tree} : nextLeaf stack = none ↔ stack = [] := by
  fun_induction nextLeaf stack with
  | case1 => exact iff_of_true rfl rfl
  | case2 tree rest _ => simp
  | case3 tree rest hleaf ih =>
    rw [ih, iff_false_right (List.cons_ne_nil _ _), unstack]
    cases hchildren : tree.children with
    | nil => exact absurd (by rw [isLeaf, hchildren]; rfl) hleaf
    | cons child children => exact List.cons_ne_nil _ _

/-- A search passes nodes with children, and leaves the stack as it is after the turn that takes off the leaf. -/
theorem exists_of_nextLeaf {stack rest : List Tree} {leaf : Tree} (h : nextLeaf stack = some (leaf, rest)) :
    ∃ passed, stack.flatMap nodes = passed ++ leaf :: rest.flatMap nodes ∧ (∀ node ∈ passed, node.isLeaf = false) ∧
      leaf.isLeaf = true ∧ rest = unstack^[passed.length + 1] stack := by
  fun_induction nextLeaf stack with
  | case1 => cases h
  | case2 tree others hleaf =>
    cases h
    exact ⟨[], flatMap_nodes_cons leaf others, List.forall_mem_nil _, hleaf, rfl⟩
  | case3 tree others hleaf ih =>
    obtain ⟨passed, hnodes, hpassed, hfound, hrest⟩ := ih h
    refine ⟨tree :: passed, ?_, List.forall_mem_cons.mpr ⟨Bool.not_eq_true _ ▸ hleaf, hpassed⟩, hfound, ?_⟩
    · rw [flatMap_nodes_cons, hnodes, List.cons_append]
    · rw [List.length_cons, Function.iterate_succ_apply]
      exact hrest

/-- What is found from a stack are the childless nodes of its trees, in their order. -/
theorem leafList_eq_filter (stack : List Tree) : leafList stack = (stack.flatMap nodes).filter isLeaf := by
  fun_induction leafList stack with
  | case1 stack hnone => rw [nextLeaf_eq_none_iff.mp hnone]; rfl
  | case2 stack leaf rest hsome ih =>
    obtain ⟨passed, hnodes, hpassed, hleaf, -⟩ := exists_of_nextLeaf hsome
    have hnone : passed.filter isLeaf = [] :=
      List.filter_eq_nil_iff.mpr fun node hmem => Bool.eq_false_iff.mp (hpassed node hmem)
    rw [ih, hnodes, List.filter_append, hnone, List.nil_append, List.filter_cons_of_pos hleaf]

theorem leaves_eq_filter (tree : Tree) : tree.leaves = tree.nodes.filter isLeaf := by
  rw [leaves, leafList_eq_filter, List.flatMap_singleton]

/-! ## The traversal of a tree -/

theorem flatMap_nodes_iterate_singleton (turns : Nat) (tree : Tree) :
    (unstack^[turns] [tree]).flatMap nodes = tree.nodes.drop turns := by
  rw [flatMap_nodes_iterate_unstack, List.flatMap_singleton]

/-- The stack is empty once all nodes came off. -/
theorem iterate_unstack_eq_nil_iff {tree : Tree} {turns : Nat} : unstack^[turns] [tree] = [] ↔ tree.count ≤ turns := by
  rw [← List.head?_eq_none_iff, ← head?_flatMap_nodes, flatMap_nodes_iterate_singleton, List.head?_drop,
    List.getElem?_eq_none_iff, count_eq_length_nodes]

/-- On the stack of a tree, each turn takes off the next node of the recursive listing, and the turns end with the
nodes. A search that begins after some turns fails if no node is left, and else finds the next childless one and can be
continued from there. So the leaves are found once each and in their order, as a filter of all nodes has them; and there
are as many nodes as are counted, with one chunk for each. -/
theorem leaves_traverse (tree : Tree) :
    (∀ turns, (unstack^[turns] [tree]).head? = tree.nodes[turns]?) ∧
      (∀ turns, nextLeaf (unstack^[turns] [tree]) = none ↔ tree.count ≤ turns) ∧
      (∀ turns leaf rest, nextLeaf (unstack^[turns] [tree]) = some (leaf, rest) →
        ∃ passed, tree.nodes.drop turns = passed ++ leaf :: tree.nodes.drop (turns + passed.length + 1) ∧
          (∀ node ∈ passed, node.isLeaf = false) ∧ leaf.isLeaf = true ∧
          rest = unstack^[turns + passed.length + 1] [tree]) ∧
      tree.leaves = tree.nodes.filter isLeaf ∧
      tree.count = tree.nodes.length ∧ tree.count = tree.toChunks.length := by
  refine ⟨fun turns => ?_, fun turns => ?_, fun turns leaf rest hsome => ?_, leaves_eq_filter tree,
    count_eq_length_nodes tree, (length_toChunks tree).symm⟩
  · rw [← head?_flatMap_nodes, flatMap_nodes_iterate_singleton, List.head?_drop]
  · rw [nextLeaf_eq_none_iff, iterate_unstack_eq_nil_iff]
  · obtain ⟨passed, hnodes, hpassed, hleaf, hrest⟩ := exists_of_nextLeaf hsome
    rw [← Function.iterate_add_apply, Nat.add_comm, ← Nat.add_assoc] at hrest
    rw [hrest, flatMap_nodes_iterate_singleton, flatMap_nodes_iterate_singleton] at hnodes
    exact ⟨passed, hnodes, hpassed, hleaf, hrest⟩

/-- A childless node, told apart by what its output is worth. -/
def childless (value : UInt64) : Tree := node (spending ⟨.zero, 0⟩ [value]) []

/-- A root with two children, of which the first has two. -/
def uneven : Tree :=
  (childless 0).graft 0 (((childless 1).graft 0 (childless 2)).graft 1 (childless 3)) |>.graft 1 (childless 4)

theorem leaves_traverse_uneven :
    nextLeaf (unstack^[0] [uneven]) = some (childless 2, [childless 3, childless 4]) ∧
      (∃ passed, uneven.nodes.drop 0 = passed ++ childless 2 :: uneven.nodes.drop (0 + passed.length + 1) ∧
        (∀ node ∈ passed, node.isLeaf = false) ∧
        [childless 3, childless 4] = unstack^[0 + passed.length + 1] [uneven]) ∧
      uneven.leaves = [childless 2, childless 3, childless 4] ∧ nextLeaf (unstack^[5] [uneven]) = none := by
  obtain ⟨-, hends, hfound, hleaves, -⟩ := leaves_traverse uneven
  have hsearch : nextLeaf (unstack^[0] [uneven]) = some (childless 2, [childless 3, childless 4]) := by
    simp [nextLeaf, unstack, pushAll, uneven, childless, graft, insertAt, isLeaf, children]
  obtain ⟨passed, hnodes, hpassed, -, hrest⟩ := hfound 0 _ _ hsearch
  exact ⟨hsearch, ⟨passed, hnodes, hpassed, hrest⟩, hleaves.trans rfl, (hends 5).mpr (Nat.le_of_eq rfl)⟩

end Vtxo.Settlement.Tree
