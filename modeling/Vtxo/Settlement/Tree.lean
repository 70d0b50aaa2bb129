import Vtxo.Psbt.Records

/-!
# Settlement trees

A batch is settled by a tree of transactions: each node's transaction spends one output of its parent's, and a node
holds its children under the positions of the outputs they spend.

  1. `Tree.nodes` and `Tree.leaves`: every node, and the nodes without children, from left to right.
  2. `Tree.count_eq_length_nodes`: the number of nodes; `Tree.find?_eq_find?_nodes`: the first one of a name.
  3. `ascending_insertAt`: putting a child in its place keeps the children in the order of their positions.
  4. `Tree.child?_graft`: grafting changes one child.
-/

set_option autoImplicit false

namespace Vtxo.Settlement

/-- Items in order of their positions, with one more; an item at the same position is replaced. -/
def insertAt {α : Type} (vout : UInt32) (item : α) : List (UInt32 × α) → List (UInt32 × α)
  | [] => [(vout, item)]
  | (v, other) :: rest =>
    if vout < v then (vout, item) :: (v, other) :: rest
    else if v < vout then (v, other) :: insertAt vout item rest
    else (vout, item) :: rest

/-- Whether items are listed in the order of their positions, no two at the same one. -/
def Ascending {α : Type} (items : List (UInt32 × α)) : Prop :=
  items.Pairwise fun a b => a.1 < b.1

theorem mem_insertAt {α : Type} {vout : UInt32} {item : α} {items : List (UInt32 × α)} {entry : UInt32 × α}
    (h : entry ∈ insertAt vout item items) : entry = (vout, item) ∨ entry ∈ items := by
  fun_induction insertAt vout item items <;> grind

theorem ascending_insertAt {α : Type} (vout : UInt32) (item : α) {items : List (UInt32 × α)}
    (h : Ascending items) : Ascending (insertAt vout item items) := by
  induction items with
  | nil => exact List.pairwise_singleton _ _
  | cons first rest ih =>
    obtain ⟨hfirst, hrest⟩ := List.pairwise_cons.mp h
    rw [insertAt]
    split
    · next hvout =>
      refine List.pairwise_cons.mpr ⟨fun entry hmem => ?_, h⟩
      rcases List.mem_cons.mp hmem with rfl | hmem
      · exact hvout
      · exact UInt32.lt_trans hvout (hfirst entry hmem)
    · next hvout =>
      split
      · next hvout' =>
        refine List.pairwise_cons.mpr ⟨fun entry hmem => ?_, ih hrest⟩
        rcases mem_insertAt hmem with rfl | hmem
        · exact hvout'
        · exact hfirst entry hmem
      · next hvout' =>
        -- Neither position comes before the other, so they are the same and the new item takes the place.
        have heq : vout = first.1 := UInt32.le_antisymm (UInt32.not_lt.mp hvout') (UInt32.not_lt.mp hvout)
        refine List.pairwise_cons.mpr ⟨fun entry hmem => ?_, hrest⟩
        exact heq ▸ hfirst entry hmem

/-- Nothing changes but what is found at the position of the new item. -/
theorem find?_insertAt {α : Type} (vout : UInt32) (item : α) (items : List (UInt32 × α)) (other : UInt32) :
    (insertAt vout item items).find? (fun entry => entry.1 == other) =
      if vout = other then some (vout, item) else items.find? fun entry => entry.1 == other := by
  induction items with
  | nil => by_cases h : vout = other <;> simp [insertAt, h]
  | cons first rest ih =>
    obtain ⟨held, _⟩ := first
    rw [insertAt]
    split
    · by_cases h : vout = other <;> simp [h]
    · next hvout =>
      split
      · next hvout' =>
        by_cases hheld : held = other
        · have hne : vout ≠ other := fun h => UInt32.lt_irrefl _ (hheld ▸ h ▸ hvout')
          simp [hheld, hne]
        · simp [hheld, ih]
      · next hvout' =>
        have heq : vout = held := UInt32.le_antisymm (UInt32.not_lt.mp hvout') (UInt32.not_lt.mp hvout)
        by_cases h : vout = other
        · simp [h]
        · simp [h, heq ▸ h]

/-- A transaction and the subtrees that spend its outputs. -/
inductive Tree where
  | node (root : Psbt) (children : List (UInt32 × Tree))

namespace Tree

def root : Tree → Psbt
  | node root _ => root

def children : Tree → List (UInt32 × Tree)
  | node _ children => children

def txid (tree : Tree) : Txid := tree.root.txid

/-- Whether no child spends an output of this node. -/
def isLeaf (tree : Tree) : Bool := tree.children.isEmpty

/-! ## Equality -/

mutual

def decEq : (a b : Tree) → Decidable (a = b)
  | node ra ca, node rb cb =>
    if hr : ra = rb then
      match decEqChildren ca cb with
      | isTrue hc => isTrue (by rw [hr, hc])
      | isFalse hc => isFalse (by rintro ⟨⟩; exact hc rfl)
    else isFalse (by rintro ⟨⟩; exact hr rfl)

def decEqChildren : (a b : List (UInt32 × Tree)) → Decidable (a = b)
  | [], [] => isTrue rfl
  | [], _ :: _ => isFalse (by simp)
  | _ :: _, [] => isFalse (by simp)
  | (va, ta) :: ra, (vb, tb) :: rb =>
    if hv : va = vb then
      match decEq ta tb with
      | isTrue ht =>
        match decEqChildren ra rb with
        | isTrue hr => isTrue (by rw [hv, ht, hr])
        | isFalse hr => isFalse (by rintro ⟨⟩; exact hr rfl)
      | isFalse ht => isFalse (by rintro ⟨⟩; exact ht rfl)
    else isFalse (by rintro ⟨⟩; exact hv rfl)

end

instance : DecidableEq Tree := decEq

/-! ## Nodes -/

mutual

/-- How many nodes there are. -/
def count : Tree → Nat
  | node _ children => countAll children + 1

def countAll : List (UInt32 × Tree) → Nat
  | [] => 0
  | (_, child) :: rest => count child + countAll rest

end

mutual

/-- Every node, a parent before its children. -/
def nodes : Tree → List Tree
  | node root children => node root children :: nodesAll children

def nodesAll : List (UInt32 × Tree) → List Tree
  | [] => []
  | (_, child) :: rest => nodes child ++ nodesAll rest

end

mutual

theorem count_eq_length_nodes : (tree : Tree) → tree.count = tree.nodes.length
  | node _ children => by
    rw [count, nodes, List.length_cons, countAll_eq_length_nodesAll children]

theorem countAll_eq_length_nodesAll :
    (children : List (UInt32 × Tree)) → countAll children = (nodesAll children).length
  | [] => rfl
  | (_, child) :: rest => by
    rw [countAll, nodesAll, List.length_append, count_eq_length_nodes child,
      countAll_eq_length_nodesAll rest]

end

/-- Whether every node holds its children in the order of their positions, so that no two children spend the
same output. -/
def Ordered (tree : Tree) : Prop :=
  ∀ node ∈ tree.nodes, Ascending node.children

/-! ## Leaves -/

/-- How many nodes the trees on a stack have. -/
def stackSize (stack : List Tree) : Nat :=
  stack.foldr (fun tree size => tree.count + size) 0

/-- Children on top of a stack: the last one is put there first, so that the first one is on top. -/
def pushAll (children : List (UInt32 × Tree)) (stack : List Tree) : List Tree :=
  children.foldr (fun child pushed => child.2 :: pushed) stack

theorem stackSize_pushAll (children : List (UInt32 × Tree)) (stack : List Tree) :
    stackSize (pushAll children stack) = countAll children + stackSize stack := by
  induction children with
  | nil => simp [pushAll, countAll]
  | cons child rest ih =>
    simp only [stackSize, pushAll, List.foldr_cons, countAll] at ih ⊢
    omega

/-- A stack without the tree on top, which gives way to its children. -/
def unstack : List Tree → List Tree
  | [] => []
  | tree :: rest => pushAll tree.children rest

theorem stackSize_unstack_lt (tree : Tree) (rest : List Tree) :
    stackSize (unstack (tree :: rest)) < stackSize (tree :: rest) := by
  cases tree with
  | node root children =>
    rw [unstack, stackSize_pushAll, Tree.children]
    simp only [stackSize, List.foldr_cons, count]
    omega

/-- The next leaf that comes off a stack, and the stack that it leaves. -/
def nextLeaf : List Tree → Option (Tree × List Tree)
  | [] => none
  | tree :: rest =>
    if tree.isLeaf then some (tree, unstack (tree :: rest)) else nextLeaf (unstack (tree :: rest))
termination_by stack => stackSize stack
decreasing_by exact stackSize_unstack_lt _ _

theorem stackSize_nextLeaf_lt {stack rest : List Tree} {leaf : Tree} (h : nextLeaf stack = some (leaf, rest)) :
    stackSize rest < stackSize stack := by
  fun_induction nextLeaf stack with
  | case1 => cases h
  | case2 => cases h; exact stackSize_unstack_lt _ _
  | case3 tree others _ ih => exact Nat.lt_trans (ih h) (stackSize_unstack_lt tree others)

/-- All leaves that come off a stack, one after the other. -/
def leafList (stack : List Tree) : List Tree :=
  match _h : nextLeaf stack with
  | none => []
  | some (leaf, rest) => leaf :: leafList rest
termination_by stackSize stack
decreasing_by exact stackSize_nextLeaf_lt _h

/-- The nodes without children, from left to right. -/
def leaves (tree : Tree) : List Tree :=
  leafList [tree]

/-! ## Checks -/

/-- Whether a child's only input spends an output of its parent, and its outputs are worth that output. -/
def checkChild (parent : Transaction) (parentTxid : Txid) (vout : UInt32) (child : Tree) :
    Except Error Unit :=
  match parent.outputs[vout.toNat]? with
  | none => .error (.settlement (.noOutput parentTxid vout))
  | some output =>
    let expected : OutPoint := ⟨parentTxid, vout⟩
    if child.root.tx.inputs.map TxIn.outpoint ≠ [expected] then
      .error (.settlement (.wrongParent child.txid expected))
    else
      match Amount.sum? (child.root.tx.outputs.map TxOut.value) with
      | none => .error (.settlement .childOverflow)
      | some total =>
        if total ≠ output.value then
          .error (.settlement (.childAmount child.txid total output.value))
        else .ok ()

/-- Whether a node has one input and fewer children than outputs. -/
def checkNode (root : Psbt) (childCount : Nat) : Except Error Unit :=
  if root.tx.inputs.length ≠ 1 then
    .error (.settlement (.inputCount root.txid root.tx.inputs.length))
  else if childCount > root.tx.outputs.length - 1 then
    .error (.settlement (.tooManyChildren root.txid))
  else .ok ()

mutual

/-- Check every node and every edge, a node before its children, and each child's edge before the child. -/
def validate : Tree → Except Error Unit
  | node root children => do
    checkNode root children.length
    validateAll root.tx root.txid children

def validateAll (parent : Transaction) (parentTxid : Txid) :
    List (UInt32 × Tree) → Except Error Unit
  | [] => .ok ()
  | (vout, child) :: rest => do
    checkChild parent parentTxid vout child
    validate child
    validateAll parent parentTxid rest

end

/-! ## Finding and replacing a node -/

mutual

/-- The first node with a name: the tree itself, or what the first child that has such a node finds. -/
def find? (txid : Txid) : Tree → Option Tree
  | node root children => if root.txid = txid then some (node root children) else findAll? txid children

def findAll? (txid : Txid) : List (UInt32 × Tree) → Option Tree
  | [] => none
  | (_, child) :: rest =>
    match find? txid child with
    | some found => some found
    | none => findAll? txid rest

end

mutual

/-- The search looks at the nodes one after the other. -/
theorem find?_eq_find?_nodes (txid : Txid) :
    (tree : Tree) → tree.find? txid = tree.nodes.find? fun candidate => candidate.txid == txid
  | node root children => by
    rw [find?, nodes, List.find?_cons, findAll?_eq_find?_nodesAll txid children]
    by_cases hroot : root.txid = txid
    · have hself : (node root children).txid = txid := hroot
      rw [if_pos hroot, hself, beq_self_eq_true]
    · have hself : ((node root children).txid == txid) = false := beq_eq_false_iff_ne.mpr hroot
      rw [if_neg hroot, hself]

theorem findAll?_eq_find?_nodesAll (txid : Txid) : (children : List (UInt32 × Tree)) →
    findAll? txid children = (nodesAll children).find? fun candidate => candidate.txid == txid
  | [] => rfl
  | (_, child) :: rest => by
    rw [findAll?, nodesAll, List.find?_append, ← find?_eq_find?_nodes txid child,
      ← findAll?_eq_find?_nodesAll txid rest]
    cases child.find? txid <;> rfl

end

def find (tree : Tree) (txid : Txid) : Except Error Tree :=
  match tree.find? txid with
  | some found => .ok found
  | none => .error (.settlement (.notInTree txid))

mutual

/-- The tree with the first node of that name given another transaction of the same name. -/
def replace? (psbt : Psbt) (txid : Txid) : Tree → Option Tree
  | node root children =>
    if root.txid = txid then some (node psbt children)
    else (replaceAll? psbt txid children).map (node root)

def replaceAll? (psbt : Psbt) (txid : Txid) : List (UInt32 × Tree) → Option (List (UInt32 × Tree))
  | [] => none
  | (vout, child) :: rest =>
    match replace? psbt txid child with
    | some replaced => some ((vout, replaced) :: rest)
    | none => (replaceAll? psbt txid rest).map ((vout, child) :: ·)

end

/-- Give the first node of the same name this transaction. The tree is changed in place. -/
def update (tree : Tree) (psbt : Psbt) : Tree × Except Error Unit :=
  match tree.replace? psbt psbt.txid with
  | some updated => (updated, .ok ())
  | none => (tree, .error (.settlement (.notInTree psbt.txid)))

/-! ## Changing children -/

/-- The child at a position. -/
def child? (tree : Tree) (vout : UInt32) : Option Tree :=
  (tree.children.find? fun child => child.1 == vout).map (·.2)

/-- The tree with a child at a position. -/
def graft (tree : Tree) (vout : UInt32) (child : Tree) : Tree :=
  node tree.root (insertAt vout child tree.children)

theorem child?_graft (tree child : Tree) (vout other : UInt32) :
    (tree.graft vout child).child? other = if vout = other then some child else tree.child? other := by
  rw [child?, graft, children, find?_insertAt, child?]
  split <;> rfl

/-- The tree without the child at a position. -/
def prune (tree : Tree) (vout : UInt32) : Tree :=
  node tree.root (tree.children.filter fun child => child.1 != vout)

/-- The tree with the node reached along a path of positions changed. -/
def modifyAt? (change : Tree → Option Tree) : List UInt32 → Tree → Option Tree
  | [], tree => change tree
  | vout :: path, tree => do
    let child ← tree.child? vout
    let changed ← modifyAt? change path child
    return tree.graft vout changed

/-! ## Data on the nodes -/

/-- The keys that co-sign a node, from its first input. -/
def cosignerKeys (tree : Tree) : Except Error (List PublicKey) :=
  match tree.root.inputs.head? with
  | none => .ok []
  | some maps => maps.cosigners.map (·.map (·.2))

/-- When the batch expires, from a node's first input. -/
def batchExpiry (tree : Tree) : Except Error (Option RelativeLock) :=
  match tree.root.inputs.head? with
  | none => .ok none
  | some maps => maps.expiry

end Tree

end Vtxo.Settlement
