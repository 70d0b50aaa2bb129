import Vtxo.Settlement.Tree

/-!
# Settlement trees as chunks

The operator hands a settlement tree out as chunks in any order: one transaction each, with the names of the
transactions that spend its outputs. The tree is rebuilt from the one chunk that no other refers to. A chunk is
used up when it is attached, so references that are missing, shared or circular are found.

  1. `toChunks_eq_map_nodes`: a tree has one chunk for each node.
  2. `Tree.ofChunks`: the tree that chunks spell, or what is wrong with them.
-/

set_option autoImplicit false

namespace Vtxo.Settlement

/-- One transaction of a settlement tree, and who spends its outputs. -/
structure Chunk where
  txid : Txid
  psbt : Psbt
  children : List (UInt32 × Txid)
deriving DecidableEq

namespace Tree

/-- The chunk of a node. -/
def chunk (tree : Tree) : Chunk :=
  ⟨tree.txid, tree.root, tree.children.map fun (vout, child) => (vout, child.txid)⟩

mutual

/-- Put the chunks of all nodes after those that are collected already, a parent before its children. -/
def collectChunks (out : Array Chunk) : Tree → Array Chunk
  | node root children => collectAll (out.push (node root children).chunk) children

def collectAll (out : Array Chunk) : List (UInt32 × Tree) → Array Chunk
  | [] => out
  | (_, child) :: rest => collectAll (collectChunks out child) rest

end

/-- The chunks of all nodes, a parent before its children. -/
def toChunks (tree : Tree) : List Chunk :=
  (tree.collectChunks #[]).toList

mutual

theorem toList_collectChunks : (tree : Tree) → (out : Array Chunk) →
    (tree.collectChunks out).toList = out.toList ++ tree.nodes.map chunk
  | node root children, out => by
    rw [collectChunks, toList_collectAll children, Array.toList_push, nodes, List.map_cons, List.append_assoc]
    rfl

theorem toList_collectAll : (children : List (UInt32 × Tree)) → (out : Array Chunk) →
    (collectAll out children).toList = out.toList ++ (nodesAll children).map chunk
  | [], out => by rw [collectAll, nodesAll, List.map_nil, List.append_nil]
  | (_, child) :: rest, out => by
    rw [collectAll, toList_collectAll rest, toList_collectChunks child, nodesAll, List.map_append, List.append_assoc]

end

theorem toChunks_eq_map_nodes (tree : Tree) : tree.toChunks = tree.nodes.map chunk :=
  toList_collectChunks tree #[]

theorem length_toChunks (tree : Tree) : tree.toChunks.length = tree.count := by
  rw [toChunks_eq_map_nodes, List.length_map, count_eq_length_nodes]

/-! ## Rebuilding -/

/-- Take the chunk of a name out of those that are left. -/
def takeChunk (txid : Txid) : StateT (List Chunk) (Except Error) Chunk := fun left =>
  match left.find? fun chunk => chunk.txid == txid with
  | some chunk => .ok (chunk, left.filter fun other => other.txid != txid)
  | none => .error (.settlement (.missingChild txid))

/-- Build the subtree of a name from the chunks that are left. Each level takes a chunk, so `fuel` chunks are
enough for `fuel` levels. -/
def attach : Nat → Txid → StateT (List Chunk) (Except Error) Tree
  | 0, txid => throw (.settlement (.missingChild txid))
  | fuel + 1, txid => do
    let chunk ← takeChunk txid
    let children ← chunk.children.mapM fun (vout, child) => do return (vout, ← attach fuel child)
    return node chunk.psbt children

/-- The names that chunks refer to. -/
def referenced (chunks : List Chunk) : List Txid :=
  chunks.flatMap fun chunk => chunk.children.map (·.2)

/-- The only chunk that no chunk refers to. -/
def rootOf (chunks : List Chunk) : Except Error Txid :=
  match (chunks.map Chunk.txid).filter fun txid => !(referenced chunks).contains txid with
  | [] => .error (.settlement .noRoot)
  | [root] => .ok root
  | _ => .error (.settlement .severalRoots)

/-- Whether each chunk has its transaction's name and no two have the same. -/
def checkNames (chunks : List Chunk) : Except Error Unit :=
  match chunks.find? fun chunk => chunk.psbt.txid != chunk.txid with
  | some chunk => .error (.settlement (.chunkMismatch chunk.txid))
  | none =>
    if (chunks.map Chunk.txid).Nodup then .ok () else .error (.settlement .duplicateChunks)

/-- The tree that chunks in any order spell. -/
def ofChunks (chunks : List Chunk) : Except Error Tree := do
  checkNames chunks
  let root ← rootOf chunks
  let (tree, _) ← (attach chunks.length root).run chunks
  -- Chunks that are left over are referred to by each other only, so some of them refer in a circle.
  if tree.count ≠ chunks.length then
    throw (.settlement (.nodeCount tree.count chunks.length))
  return tree

end Tree

end Vtxo.Settlement
