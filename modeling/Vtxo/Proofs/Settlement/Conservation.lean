import Mathlib.Algebra.BigOperators.Group.List.Basic
import Mathlib.Data.List.Nodup
import Vtxo.Proofs.Amount
import Vtxo.Proofs.Success
import Vtxo.Settlement.Tree

/-!
# What a checked settlement tree conserves

A check of a tree looks at one node or at one edge at a time. What an edge moves is worth the same on both sides, so
all outputs of a checked tree that nobody spends are together worth what the outputs of its root are.

  1. `Tree.validate_eq_ok_iff`: a tree passes its check exactly if each of its nodes is sound.
  2. `Tree.worth_unspent_add`: the outputs of a node are those that are left and those that its children spend.
  3. `Tree.worth_frontier`: what is left in a sound tree.
-/

set_option autoImplicit false

namespace Vtxo.Settlement

/-- What outputs are worth together, as a number that need not fit 64 bits. -/
def worth (outputs : List TxOut) : Nat :=
  (outputs.map fun output => output.value.toNat).sum

theorem worth_append (front back : List TxOut) : worth (front ++ back) = worth front + worth back := by
  rw [worth, List.map_append, List.sum_append, worth, worth]

/-- The checked sum of outputs is what they are worth, if that fits. -/
theorem sum?_eq_some_iff_worth {outputs : List TxOut} {total : Amount} :
    Amount.sum? (outputs.map TxOut.value) = some total ↔ worth outputs = total.toNat := by
  rw [Amount.sum?_eq_some, List.map_map]
  rfl

namespace Tree

/-! ## Sound nodes -/

/-- The child spends this output of its parent and nothing else, and pays out what the output is worth. The sum is one
of unbounded numbers, so it fits 64 bits because the output's value does. -/
structure Spends (child : Tree) (parent : Psbt) (vout : UInt32) : Prop where
  in_range : vout.toNat < parent.tx.outputs.length
  only_input : child.root.tx.inputs.map TxIn.outpoint = [⟨parent.txid, vout⟩]
  pays_all : worth child.root.tx.outputs = parent.tx.outputs[vout.toNat].value.toNat

/-- A node has one input, an output to spare, and children that spend its outputs. -/
structure Sound (node : Tree) : Prop where
  one_input : node.root.tx.inputs.length = 1
  one_spare : node.children.length ≤ node.root.tx.outputs.length - 1
  children_spend : ∀ entry ∈ node.children, entry.2.Spends node.root entry.1

theorem checkNode_eq_ok_iff {root : Psbt} {count : Nat} :
    checkNode root count = .ok () ↔ root.tx.inputs.length = 1 ∧ count ≤ root.tx.outputs.length - 1 := by
  rw [checkNode]
  split
  · next hinputs => exact ⟨fun h => absurd h (by rintro ⟨⟩), fun h => absurd h.1 hinputs⟩
  · next hinputs =>
    split
    · next hcount => exact ⟨fun h => absurd h (by rintro ⟨⟩), fun h => absurd h.2 (Nat.not_le.mpr hcount)⟩
    · next hcount => exact ⟨fun _ => ⟨not_not.mp hinputs, Nat.not_lt.mp hcount⟩, fun _ => rfl⟩

theorem checkChild_eq_ok_iff {parent : Psbt} {vout : UInt32} {child : Tree} :
    checkChild parent.tx parent.txid vout child = .ok () ↔ child.Spends parent vout := by
  rw [checkChild]
  cases houtput : parent.tx.outputs[vout.toNat]? with
  | none =>
    refine ⟨fun h => absurd h (by rintro ⟨⟩), fun h => ?_⟩
    exact absurd h.in_range (Nat.not_lt.mpr (List.getElem?_eq_none_iff.mp houtput))
  | some output =>
    obtain ⟨hrange, rfl⟩ := List.getElem?_eq_some_iff.mp houtput
    dsimp only
    split
    · next hinputs => exact ⟨fun h => absurd h (by rintro ⟨⟩), fun h => absurd h.only_input hinputs⟩
    · next hinputs =>
      have hinputs := not_not.mp hinputs
      cases hsum : Amount.sum? (child.root.tx.outputs.map TxOut.value) with
      | none =>
        -- A sum that does not fit is not the value of an output.
        refine ⟨fun h => absurd h (by rintro ⟨⟩), fun h => ?_⟩
        have hfits := sum?_eq_some_iff_worth.mpr h.pays_all
        rw [hsum] at hfits
        cases hfits
      | some total =>
        have htotal : worth child.root.tx.outputs = total.toNat := sum?_eq_some_iff_worth.mp hsum
        dsimp only
        split
        · next hvalue =>
          refine ⟨fun h => absurd h (by rintro ⟨⟩), fun h => absurd ?_ hvalue⟩
          exact Amount.toNat_inj.mp (htotal.symm.trans h.pays_all)
        · next hvalue => exact ⟨fun _ => ⟨hrange, hinputs, htotal.trans (by rw [not_not.mp hvalue])⟩, fun _ => rfl⟩

mutual

/-- A tree passes its check exactly if each of its nodes is sound. -/
theorem validate_eq_ok_iff : (tree : Tree) → (tree.validate = .ok () ↔ ∀ node ∈ tree.nodes, node.Sound)
  | node root children => by
    rw [validate, bind_eq_ok, nodes, List.forall_mem_cons]
    constructor
    · rintro ⟨⟨⟩, hnode, hchildren⟩
      obtain ⟨hinput, hspare⟩ := checkNode_eq_ok_iff.mp hnode
      obtain ⟨hspend, hbelow⟩ := (validateAll_eq_ok_iff root children).mp hchildren
      exact ⟨⟨hinput, hspare, hspend⟩, hbelow⟩
    · rintro ⟨⟨hinput, hspare, hspend⟩, hbelow⟩
      exact ⟨(), checkNode_eq_ok_iff.mpr ⟨hinput, hspare⟩, (validateAll_eq_ok_iff root children).mpr ⟨hspend, hbelow⟩⟩

theorem validateAll_eq_ok_iff (parent : Psbt) : (children : List (UInt32 × Tree)) →
    (validateAll parent.tx parent.txid children = .ok () ↔
      (∀ entry ∈ children, entry.2.Spends parent entry.1) ∧ ∀ node ∈ nodesAll children, node.Sound)
  | [] => by
    rw [validateAll, nodesAll]
    simp
  | (vout, child) :: rest => by
    rw [validateAll, nodesAll, bind_eq_ok, List.forall_mem_cons, List.forall_mem_append]
    constructor
    · rintro ⟨⟨⟩, hedge, h⟩
      obtain ⟨⟨⟩, hchild, hrest⟩ := bind_eq_ok.mp h
      obtain ⟨hspend, hbelow⟩ := (validateAll_eq_ok_iff parent rest).mp hrest
      exact ⟨⟨checkChild_eq_ok_iff.mp hedge, hspend⟩, (validate_eq_ok_iff child).mp hchild, hbelow⟩
    · rintro ⟨⟨hedge, hspend⟩, hchild, hbelow⟩
      refine ⟨(), checkChild_eq_ok_iff.mpr hedge, bind_eq_ok.mpr ⟨(), (validate_eq_ok_iff child).mpr hchild, ?_⟩⟩
      exact (validateAll_eq_ok_iff parent rest).mpr ⟨hspend, hbelow⟩

end

/-! ## What is left -/

/-- The outputs of a node that no child spends. -/
def unspent (node : Tree) : List TxOut :=
  (node.root.tx.outputs.zipIdx.filter fun output =>
    !(node.children.map fun entry => entry.1.toNat).contains output.2).map (·.1)

/-- The outputs of a node that its children spend, in the order of the children. -/
def spent (node : Tree) : List TxOut :=
  (node.children.map fun entry => entry.1.toNat).filterMap fun position => node.root.tx.outputs[position]?

/-- The outputs in a tree that no child spends. -/
def frontier (tree : Tree) : List TxOut :=
  tree.nodes.flatMap unspent

/-- Items at different positions, taken in the order of the items or in that of the positions. -/
theorem perm_filter_zipIdx {α : Type} {positions : List Nat} (h : positions.Nodup) (items : List α) :
    ((items.zipIdx.filter fun item => positions.contains item.2).map (·.1)).Perm
      (positions.filterMap fun position => items[position]?) := by
  have hitems : items.zipIdx.Nodup := by
    refine List.Nodup.of_map Prod.snd ?_
    rw [List.zipIdx_map_snd]
    exact List.nodup_range'
  have hpositions : (positions.filterMap fun position => items[position]?.map fun item => (item, position)).Nodup := by
    refine h.filterMap fun first second pair hfirst hsecond => ?_
    obtain ⟨_, _, rfl⟩ := Option.map_eq_some_iff.mp hfirst
    obtain ⟨_, _, hpair⟩ := Option.map_eq_some_iff.mp hsecond
    exact (Prod.mk.inj hpair).2.symm
  have hpairs : (items.zipIdx.filter fun item => positions.contains item.2).Perm
      (positions.filterMap fun position => items[position]?.map fun item => (item, position)) := by
    refine (List.perm_ext_iff_of_nodup (hitems.filter _) hpositions).mpr fun pair => ?_
    obtain ⟨item, position⟩ := pair
    rw [List.mem_filter, List.mem_zipIdx_iff_getElem?, List.contains_iff_mem, List.mem_filterMap]
    constructor
    · rintro ⟨hitem, hmem⟩
      exact ⟨position, hmem, Option.map_eq_some_iff.mpr ⟨item, hitem, rfl⟩⟩
    · rintro ⟨_, hmem, hpair⟩
      obtain ⟨_, hitem, hpair⟩ := Option.map_eq_some_iff.mp hpair
      cases hpair
      exact ⟨hitem, hmem⟩
  refine (hpairs.map Prod.fst).trans (.of_eq ?_)
  rw [List.map_filterMap]
  refine List.filterMap_congr fun position _ => ?_
  cases items[position]? <;> rfl

theorem nodup_positions {items : List (UInt32 × Tree)} (h : Ascending items) :
    (items.map fun entry => entry.1.toNat).Nodup := by
  refine List.pairwise_map.mpr (h.imp fun hlt heq => ?_)
  exact UInt32.lt_irrefl _ (UInt32.toNat_inj.mp heq ▸ hlt)

/-- The outputs of a node are those that are left and those that its children spend. -/
theorem worth_unspent_add {node : Tree} (h : Ascending node.children) :
    worth node.unspent + worth node.spent = worth node.root.tx.outputs := by
  have hspent := perm_filter_zipIdx (nodup_positions h) node.root.tx.outputs
  have hall : (node.spent ++ node.unspent).Perm node.root.tx.outputs := by
    refine (hspent.symm.append_right _).trans ?_
    rw [unspent, ← List.map_append]
    refine ((List.filter_append_perm _ _).map Prod.fst).trans (.of_eq ?_)
    exact List.zipIdx_map_fst ..
  rw [Nat.add_comm, ← worth_append]
  exact (hall.map _).sum_eq

/-- What children spend is worth what they pay out. -/
theorem worth_spent {node : Tree} (h : node.Sound) :
    worth node.spent = (node.children.map fun entry => worth entry.2.root.tx.outputs).sum := by
  have hspend := h.children_spend
  rw [spent, List.filterMap_map]
  generalize node.children = children at hspend ⊢
  induction children with
  | nil => rfl
  | cons entry rest ih =>
    obtain ⟨hentry, hrest⟩ := List.forall_mem_cons.mp hspend
    have hrange : entry.1.toNat < node.root.tx.outputs.length := hentry.in_range
    have houtput : node.root.tx.outputs[entry.1.toNat]? = some node.root.tx.outputs[entry.1.toNat] :=
      List.getElem?_eq_getElem hrange
    rw [List.filterMap_cons_some (by exact houtput), List.map_cons, List.sum_cons, ← ih hrest, hentry.pays_all]
    rfl

mutual

/-- What is left in a sound tree is worth what the outputs of its root are. -/
theorem worth_frontier : (tree : Tree) → tree.Ordered → (∀ node ∈ tree.nodes, node.Sound) →
    worth tree.frontier = worth tree.root.tx.outputs
  | node root children, hordered, hsound => by
    rw [Ordered, nodes] at hordered
    rw [nodes] at hsound
    obtain ⟨hascending, hordered⟩ := List.forall_mem_cons.mp hordered
    obtain ⟨hnode, hsound⟩ := List.forall_mem_cons.mp hsound
    rw [frontier, nodes, List.flatMap_cons, worth_append, worth_frontierAll children hordered hsound]
    exact worth_spent hnode ▸ worth_unspent_add hascending

theorem worth_frontierAll : (children : List (UInt32 × Tree)) →
    (∀ node ∈ nodesAll children, Ascending node.children) → (∀ node ∈ nodesAll children, node.Sound) →
    worth ((nodesAll children).flatMap unspent) =
      (children.map fun entry => worth entry.2.root.tx.outputs).sum
  | [], _, _ => rfl
  | (_, child) :: rest, hordered, hsound => by
    rw [nodesAll] at hordered hsound
    obtain ⟨hchild, hordered⟩ := List.forall_mem_append.mp hordered
    obtain ⟨hchildSound, hsound⟩ := List.forall_mem_append.mp hsound
    rw [nodesAll, List.flatMap_append, worth_append, worth_frontierAll rest hordered hsound, List.map_cons,
      List.sum_cons]
    exact congrArg (· + _) (worth_frontier child hchild hchildSound)

end

/-- A tree passes its check exactly if each of its nodes is sound. Then all outputs in it that no child spends are
together worth what the outputs of the root are. -/
theorem validate_conserves (tree : Tree) :
    (tree.validate = .ok () ↔ ∀ node ∈ tree.nodes, node.Sound) ∧
      (tree.Ordered → tree.validate = .ok () → worth tree.frontier = worth tree.root.tx.outputs) :=
  ⟨validate_eq_ok_iff tree, fun hordered hvalid =>
    worth_frontier tree hordered ((validate_eq_ok_iff tree).mp hvalid)⟩

/-- A transaction that spends one output, with outputs of these values. -/
def spending (outpoint : OutPoint) (values : List UInt64) : Psbt :=
  ⟨⟨transactionVersion, [⟨outpoint, [], replaceableSequence⟩], values.map fun value => ⟨⟨value⟩, []⟩, 0⟩, [.empty], rfl⟩

/-- A root with two children, of which the first has a child. -/
def threeLevels : Tree :=
  let root := spending ⟨.zero, 0⟩ [10, 5, 0]
  let left := spending ⟨root.txid, 0⟩ [6, 4, 0]
  node root [(0, node left [(0, node (spending ⟨left.txid, 0⟩ [6]) [])]),
    (1, node (spending ⟨root.txid, 1⟩ [5]) [])]

theorem sound_threeLevels : ∀ node ∈ threeLevels.nodes, node.Sound := by
  simp only [threeLevels, nodes, nodesAll, List.nil_append, List.append_nil, List.cons_append,
    List.forall_mem_cons, List.not_mem_nil, false_implies, implies_true, and_true]
  refine ⟨⟨rfl, by decide, ?_⟩, ⟨rfl, by decide, ?_⟩, ⟨rfl, by decide, ?_⟩, ⟨rfl, by decide, ?_⟩⟩
  all_goals simp only [children, List.forall_mem_cons, List.not_mem_nil, false_implies, implies_true, and_true]
  · exact ⟨⟨by decide, rfl, rfl⟩, ⟨by decide, rfl, rfl⟩⟩
  · exact ⟨by decide, rfl, rfl⟩

theorem validate_conserves_threeLevels :
    threeLevels.Ordered ∧ threeLevels.validate = .ok () ∧ worth threeLevels.frontier = 10 + 5 + 0 := by
  have hordered : threeLevels.Ordered := by
    simp [Ordered, threeLevels, nodes, nodesAll, children, Ascending]
  obtain ⟨hvalid, hconserves⟩ := validate_conserves threeLevels
  have hvalid := hvalid.mpr sound_threeLevels
  exact ⟨hordered, hvalid, hconserves hordered hvalid⟩

end Tree

end Vtxo.Settlement
