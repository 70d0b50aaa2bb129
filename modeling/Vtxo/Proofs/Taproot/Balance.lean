import Mathlib.Logic.Function.Iterate
import Vtxo.Proofs.Taproot.Assembly
import Vtxo.Taproot.Builder

/-!
# Balance of the tree over a list

Each merge takes one node out of the queue, and after a round of merges all nodes have one more branch above their
leaves. So the tree over `n` leaves has them on two neighbouring levels, the logarithm of `n`, rounded down, and the one
below. As many leaves as a machine word counts do not reach the end of a byte, nor the deepest level a builder takes.

  1. `TapTree.iterate_mergeFront`, `TapTree.length_iterate_mergeFront`: the merges, one at a time.
  2. `TapTree.Rounds.le_low`: how many branches merging puts above every leaf.
  3. `TapTree.exists_byteDepthsFrom?`: depths that are counted in a byte.
  4. `TapTree.assemble_balanced`: the tree over any number of leaves.
-/

set_option autoImplicit false

namespace Vtxo.TapTree

/-! ## Merges -/

/-- The queue after one merge. -/
def mergeFront : List TapTree → List TapTree
  | left :: right :: rest => rest ++ [branch left right]
  | queue => queue

/-- While two nodes are left, a merge takes one out. -/
theorem length_iterate_mergeFront {queue : List TapTree} {turns : Nat} (h : turns < queue.length) :
    (mergeFront^[turns] queue).length = queue.length - turns := by
  induction turns generalizing queue with
  | zero => rfl
  | succ turns ih =>
    match queue, h with
    | left :: right :: rest, h =>
      have hlength : (mergeFront (left :: right :: rest)).length = rest.length + 1 := List.length_append
      rw [List.length_cons, List.length_cons] at h ⊢
      rw [Function.iterate_succ_apply, ih (by omega), hlength]
      omega

/-- The queue is merged into a tree by one merge less than it has nodes. -/
theorem iterate_mergeFront {queue : List TapTree} {tree : TapTree} (h : combine queue = some tree) :
    mergeFront^[queue.length - 1] queue = [tree] := by
  fun_induction combine queue with
  | case1 => cases h
  | case2 => cases h; rfl
  | case3 left right rest ih =>
    have hturns : (left :: right :: rest).length - 1 = (rest ++ [branch left right]).length - 1 + 1 := by simp
    rw [hturns, Function.iterate_succ_apply]
    exact ih h

/-! ## The highest leaf -/

/-- The number of branches above the highest leaf. -/
def low : TapTree → Nat
  | leaf _ => 0
  | branch left right => min left.low right.low + 1

theorem le_low_branch {left right : TapTree} {bound : Nat} (hleft : bound ≤ left.low) (hright : bound ≤ right.low) :
    bound + 1 ≤ (branch left right).low :=
  Nat.succ_le_succ (Nat.le_min.mpr ⟨hleft, hright⟩)

theorem two_pow_pred_le {c count : Nat} (hpos : 0 < count) (h : 2 ^ c ≤ 2 * count + 1) : 2 ^ (c - 1) ≤ count := by
  cases c with
  | zero => exact hpos
  | succ c =>
    rw [Nat.pow_succ] at h
    rw [Nat.add_sub_cancel]
    omega

/-- What was merged has one branch more above its leaves than the round. With as many nodes as 2^c of the round make,
merging puts c branches above every leaf. -/
theorem Rounds.le_low {tree : TapTree} {old fresh : List TapTree} {bound c : Nat} (h : Rounds tree old fresh)
    (hold : ∀ node ∈ old, bound ≤ node.low) (hfresh : ∀ node ∈ fresh, bound + 1 ≤ node.low)
    (hcount : 2 ^ c ≤ old.length + 2 * fresh.length) : bound + c ≤ tree.low := by
  induction h generalizing bound c with
  | single =>
    cases c with
    | zero => exact hold tree List.mem_cons_self
    | succ c =>
      rw [Nat.pow_succ, List.length_singleton, List.length_nil] at hcount
      have hpos := Nat.two_pow_pos c
      omega
  | @nextRound node fresh _ ih =>
    simp only [List.length_nil, List.length_cons] at hcount ih
    have hhalf : 2 ^ (c - 1) ≤ fresh.length + 1 := two_pow_pred_le (Nat.succ_pos _) (by omega)
    have hlow := ih hfresh (List.forall_mem_nil _) hhalf
    omega
  | @across last node fresh _ _ _ ih =>
    -- The last node of the round has less above its leaves than its partner, so what they become is only known to be
    -- as far from its leaves as the nodes of the next round.
    obtain ⟨hnode, hfresh⟩ := List.forall_mem_cons.mp hfresh
    have hmerged : bound + 1 ≤ (branch last node).low :=
      le_low_branch (hold last List.mem_cons_self) (Nat.le_of_succ_le hnode)
    have hround := List.forall_mem_append.mpr ⟨hfresh, List.forall_mem_singleton.mpr hmerged⟩
    simp only [List.length_nil, List.length_cons, List.length_append] at hcount ih
    have hhalf : 2 ^ (c - 1) ≤ fresh.length + 1 := two_pow_pred_le (Nat.succ_pos _) (by omega)
    have hlow := ih hround (List.forall_mem_nil _) hhalf
    omega
  | pair _ ih =>
    obtain ⟨hfirst, hold⟩ := List.forall_mem_cons.mp hold
    obtain ⟨hsecond, hold⟩ := List.forall_mem_cons.mp hold
    have hmerged := List.forall_mem_append.mpr
      ⟨hfresh, List.forall_mem_singleton.mpr (le_low_branch hfirst hsecond)⟩
    refine ih hold hmerged ?_
    simp only [List.length_cons, List.length_append, List.length_nil] at hcount ⊢
    omega

theorem one_le_low_of_mem_pairUp {start count : Nat} {node : TapTree} (h : node ∈ pairUp start count) :
    1 ≤ node.low := by
  fun_induction pairUp start count with
  | case1 => exact List.mem_singleton.mp h ▸ Nat.le_add_left 1 _
  | case2 => exact List.mem_singleton.mp h ▸ Nat.le_add_left 1 _
  | case3 start count _ _ ih =>
    rcases List.mem_cons.mp h with rfl | hmem
    · exact Nat.le_add_left 1 _
    · exact ih hmem
  | case4 => cases h

/-- A tree over no fewer than 2^c leaves has no leaf above level c. -/
theorem le_low_assemble {count c : Nat} {tree : TapTree} (hcount : 2 ^ c ≤ count) (h : assemble count = some tree) :
    c ≤ tree.low := by
  cases c with
  | zero => exact Nat.zero_le _
  | succ c =>
    rw [Nat.pow_succ] at hcount
    have hpos := Nat.two_pow_pos c
    rw [assemble, if_neg (by omega), ← List.append_nil (pairUp 0 count)] at h
    have hround : 2 ^ c ≤ (pairUp 0 count).length + 2 * ([] : List TapTree).length := by
      rw [length_pairUp, List.length_nil]
      omega
    have hlow := (rounds_of_combine _ _ h).le_low (fun _ => one_le_low_of_mem_pairUp) (List.forall_mem_nil _) hround
    omega

/-! ## Depths -/

theorem map_fst_depthsFrom (depth : Nat) (tree : TapTree) : (tree.depthsFrom depth).map Prod.fst = tree.leaves := by
  induction tree generalizing depth with
  | leaf index => rfl
  | branch left right ihl ihr => rw [depthsFrom, List.map_append, ihl, ihr, leaves]

/-- Every leaf is between the highest and the deepest one. -/
theorem depth_bounds (tree : TapTree) (depth : Nat) {entry : Nat × Nat} (h : entry ∈ tree.depthsFrom depth) :
    depth + tree.low ≤ entry.2 ∧ entry.2 ≤ depth + tree.height := by
  induction tree generalizing depth with
  | leaf index =>
    rw [List.mem_singleton.mp h]
    exact ⟨Nat.le_refl depth, Nat.le_refl depth⟩
  | branch left right ihl ihr =>
    rw [low, height]
    rcases List.mem_append.mp h with hmem | hmem
    · have hbounds := ihl (depth + 1) hmem
      omega
    · have hbounds := ihr (depth + 1) hmem
      omega

/-- The leaves from left to right with their depths, below a node at `depth`, where depths are counted in a byte. -/
def byteDepthsFrom? (depth : UInt8) : TapTree → Option (List (Nat × UInt8))
  | leaf index => some [(index, depth)]
  | branch left right =>
    if depth.toNat + 1 < UInt8.size then do
      let l ← byteDepthsFrom? (depth + 1) left
      let r ← byteDepthsFrom? (depth + 1) right
      return l ++ r
    else none

/-- A byte counts the depths of every tree whose deepest leaf has a depth below 256. -/
theorem exists_byteDepthsFrom? (tree : TapTree) (depth : UInt8) (h : depth.toNat + tree.height < UInt8.size) :
    ∃ counted, tree.byteDepthsFrom? depth = some counted ∧
      (counted.map fun entry => (entry.1, entry.2.toNat)) = tree.depthsFrom depth.toNat := by
  induction tree generalizing depth with
  | leaf index => exact ⟨_, rfl, rfl⟩
  | branch left right ihl ihr =>
    rw [height] at h
    have hdepth : (depth + 1).toNat = depth.toNat + 1 := by
      rw [UInt8.toNat_add]
      exact Nat.mod_eq_of_lt (show depth.toNat + 1 < UInt8.size by omega)
    obtain ⟨l, hl, hleft⟩ := ihl (depth + 1) (by omega)
    obtain ⟨r, hr, hright⟩ := ihr (depth + 1) (by omega)
    refine ⟨l ++ r, ?_, ?_⟩
    · rw [byteDepthsFrom?, if_pos (by omega), hl, hr]
      rfl
    · rw [List.map_append, hleft, hright, hdepth, depthsFrom]

/-! ## The tree over a list -/

/-- There is a tree over every positive number of leaves. The merges run out when it alone is left. It has each position
as a leaf once, at the logarithm of their number, rounded down, or one level below. For a number that fits into a
machine word, a byte counts the depths, and none is too deep for a builder. -/
theorem assemble_balanced (count : Nat) (h : 0 < count) :
    ∃ tree, assemble count = some tree ∧
      (1 < count →
        (∀ turns < count / 2, (mergeFront^[turns] (pairUp 0 count)).length = count / 2 - turns) ∧
        mergeFront^[count / 2 - 1] (pairUp 0 count) = [tree]) ∧
      (tree.leafDepths.map Prod.fst).Perm (List.range count) ∧
      (∀ entry ∈ tree.leafDepths, entry.2 = count.log2 ∨ entry.2 = count.log2 + 1) ∧
      (count < 2 ^ 64 →
        (∃ counted, tree.byteDepthsFrom? 0 = some counted ∧
          (counted.map fun entry => (entry.1, entry.2.toNat)) = tree.leafDepths) ∧
        ∀ entry ∈ tree.leafDepths, entry.2 ≤ Builder.maxDepth) := by
  obtain ⟨tree, hassemble⟩ := exists_assemble h
  have hlow : count.log2 ≤ tree.low := le_low_assemble (Nat.log2_self_le (Nat.ne_of_gt h)) hassemble
  have hheight : tree.height ≤ count.log2 + 1 := height_assemble_le (Nat.le_of_lt Nat.lt_log2_self) hassemble
  have hbounds : ∀ entry ∈ tree.leafDepths, tree.low ≤ entry.2 ∧ entry.2 ≤ tree.height := by
    intro entry hmem
    have hbounds := depth_bounds tree 0 hmem
    omega
  refine ⟨tree, hassemble, fun hcount => ⟨fun turns hturns => ?_, ?_⟩, ?_, fun entry hmem => ?_, fun hword => ?_⟩
  · rw [← length_pairUp 0 count] at hturns ⊢
    exact length_iterate_mergeFront hturns
  · rw [assemble, if_neg (Nat.ne_of_gt hcount)] at hassemble
    rw [← length_pairUp 0 count]
    exact iterate_mergeFront hassemble
  · rw [leafDepths, map_fst_depthsFrom]
    exact perm_leaves_assemble hassemble
  · have hentry := hbounds entry hmem
    omega
  · have hlog : count.log2 < 64 := (Nat.log2_lt (Nat.ne_of_gt h)).mpr hword
    refine ⟨exists_byteDepthsFrom? tree 0 ?_, fun entry hmem => ?_⟩
    · rw [UInt8.toNat_zero]
      exact Nat.lt_of_le_of_lt (Nat.zero_add _ ▸ hheight) (Nat.lt_of_le_of_lt hlog (by decide))
    · have hentry := hbounds entry hmem
      exact Nat.le_trans (Nat.le_trans hentry.2 hheight) (Nat.le_trans hlog (by decide))

/-- Two pairs, the second of which takes the odd last leaf. -/
def fiveLeaves : TapTree :=
  branch (branch (leaf 0) (leaf 1)) (branch (branch (leaf 2) (leaf 3)) (leaf 4))

theorem assemble_balanced_fiveLeaves :
    0 < 5 ∧ assemble 5 = some fiveLeaves ∧ mergeFront^[1] (pairUp 0 5) = [fiveLeaves] ∧
      (fiveLeaves.leafDepths.map Prod.fst).Perm (List.range 5) ∧
      fiveLeaves.leafDepths = [(0, 2), (1, 2), (2, 3), (3, 3), (4, 2)] ∧
      (∀ entry ∈ fiveLeaves.leafDepths, entry.2 = 2 ∨ entry.2 = 3) ∧
      fiveLeaves.byteDepthsFrom? 0 = some [(0, 2), (1, 2), (2, 3), (3, 3), (4, 2)] := by
  obtain ⟨tree, hassemble, hmerges, hperm, hlevels, -⟩ := assemble_balanced 5 (by decide)
  obtain ⟨-, hlast⟩ := hmerges (by decide)
  have htree : tree = fiveLeaves := List.singleton_inj.mp (hlast.symm.trans rfl)
  subst htree
  exact ⟨by decide, hassemble, hlast, hperm, rfl, hlevels, rfl⟩

end Vtxo.TapTree
