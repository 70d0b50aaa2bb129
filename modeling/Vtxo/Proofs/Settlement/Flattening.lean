import Vtxo.Proofs.Settlement.Conservation
import Vtxo.Proofs.Settlement.RootedTree
import Vtxo.Proofs.Settlement.Traversal

/-!
# Trees, flattened and rebuilt

Flattening a tree leaves a chunk for each node, in which the children are only named. Chunks spell a tree exactly if the
chunk of each of its nodes is among them, so nothing is lost on the way: what was rebuilt is flattened to the chunks it
came from, and a tree whose nodes have different names is rebuilt from its own chunks, in any order.

  1. `Tree.spelled_iff`: the trees that chunks spell.
  2. `Tree.toChunks_inj`: a tree is known by its chunks in order.
  3. `Tree.rootOf_of_spelled`: where all chunks are nodes of one tree, its root is the only one.
  4. `Tree.flattening_inverse`: both ways round.
-/

set_option autoImplicit false

namespace Vtxo.Settlement.Tree

variable {chunks : List Chunk}

/-! ## The chunks of nodes -/

theorem map_txid_toChunks (tree : Tree) : tree.toChunks.map Chunk.txid = tree.names := by
  rw [toChunks_eq_map_nodes, List.map_map]
  rfl

theorem named_toChunks (tree : Tree) : Named tree.toChunks := by
  intro chunk hmem
  rw [toChunks_eq_map_nodes] at hmem
  obtain ⟨_, _, rfl⟩ := List.mem_map.mp hmem
  rfl

theorem chunk_mem_toChunks {tree held : Tree} (h : held ∈ tree.nodes) : held.chunk ∈ tree.toChunks :=
  toChunks_eq_map_nodes tree ▸ List.mem_map_of_mem h

/-- The names that a chunk refers to are those of the trees that are spelled there. -/
theorem SpelledAll.references_eq (hnamed : Named chunks) {children : List (UInt32 × Tree)} :
    ∀ {references : List (UInt32 × Txid)}, SpelledAll chunks children references →
      references = children.map fun (vout, child) => (vout, child.txid) := by
  induction children with
  | nil => exact fun h => h
  | cons entry rest ih =>
    obtain ⟨vout, child⟩ := entry
    rintro _ ⟨name, others, rfl, hchild, hrest⟩
    rw [List.map_cons, ← ih hrest, ← hchild.txid_eq hnamed]

mutual

theorem Spelled.chunk_mem (hnamed : Named chunks) : (tree : Tree) → {name : Txid} → Spelled chunks tree name →
    ∀ held ∈ tree.nodes, held.chunk ∈ chunks
  | node root children, _, ⟨chunk, hmem, _, hroot, hchildren⟩ => by
    rw [nodes]
    refine List.forall_mem_cons.mpr ⟨?_, SpelledAll.chunk_mem hnamed children hchildren⟩
    have hchunk : chunk = (node root children).chunk := by
      rw [Tree.chunk, Tree.children, ← hchildren.references_eq hnamed, txid, Tree.root, ← hroot, hnamed chunk hmem]
    exact hchunk ▸ hmem

theorem SpelledAll.chunk_mem (hnamed : Named chunks) : (children : List (UInt32 × Tree)) →
    {references : List (UInt32 × Txid)} → SpelledAll chunks children references →
    ∀ held ∈ nodesAll children, held.chunk ∈ chunks
  | [], _, _ => List.forall_mem_nil _
  | (_, child) :: rest, _, ⟨_, _, _, hchild, hrest⟩ => by
    rw [nodesAll]
    exact List.forall_mem_append.mpr
      ⟨Spelled.chunk_mem hnamed child hchild, SpelledAll.chunk_mem hnamed rest hrest⟩

end

mutual

theorem spelled_of_chunk_mem : (tree : Tree) → (∀ held ∈ tree.nodes, held.chunk ∈ chunks) →
    Spelled chunks tree tree.txid
  | node root children, h => by
    rw [nodes] at h
    obtain ⟨hroot, hchildren⟩ := List.forall_mem_cons.mp h
    exact ⟨_, hroot, rfl, rfl, spelledAll_of_chunk_mem children hchildren⟩

theorem spelledAll_of_chunk_mem : (children : List (UInt32 × Tree)) →
    (∀ held ∈ nodesAll children, held.chunk ∈ chunks) →
    SpelledAll chunks children (children.map fun (vout, child) => (vout, child.txid))
  | [], _ => rfl
  | (_, child) :: rest, h => by
    rw [nodesAll] at h
    obtain ⟨hchild, hrest⟩ := List.forall_mem_append.mp h
    exact ⟨child.txid, _, rfl, spelled_of_chunk_mem child hchild, spelledAll_of_chunk_mem rest hrest⟩

end

/-- Chunks spell a tree if and only if the chunks of all its nodes are among them. -/
theorem spelled_iff (hnamed : Named chunks) (tree : Tree) :
    Spelled chunks tree tree.txid ↔ ∀ held ∈ tree.nodes, held.chunk ∈ chunks :=
  ⟨Spelled.chunk_mem hnamed tree, spelled_of_chunk_mem tree⟩

/-! ## Chunks in order -/

/-- The chunks of all nodes of some trees. -/
def chunksAll (children : List (UInt32 × Tree)) : List Chunk := (nodesAll children).map chunk

theorem toChunks_node (root : Psbt) (children : List (UInt32 × Tree)) :
    (node root children).toChunks = (node root children).chunk :: chunksAll children := by
  rw [toChunks_eq_map_nodes, nodes, List.map_cons, chunksAll]

theorem chunksAll_cons (vout : UInt32) (child : Tree) (rest : List (UInt32 × Tree)) :
    chunksAll ((vout, child) :: rest) = child.toChunks ++ chunksAll rest := by
  rw [chunksAll, nodesAll, List.map_append, toChunks_eq_map_nodes, chunksAll]

theorem chunksAll_append (before after : List (UInt32 × Tree)) :
    chunksAll (before ++ after) = chunksAll before ++ chunksAll after := by
  rw [chunksAll, nodesAll_append, List.map_append, chunksAll, chunksAll]

theorem map_txid_chunksAll (children : List (UInt32 × Tree)) :
    (chunksAll children).map Chunk.txid = namesAll children := by
  rw [chunksAll, List.map_map]
  rfl

mutual

/-- Where the chunks of two trees are followed by others, it is seen from them where the tree ends. -/
theorem eq_of_toChunks_append : (a b : Tree) → {rest rest' : List Chunk} →
    a.toChunks ++ rest = b.toChunks ++ rest' → a = b ∧ rest = rest'
  | node ra ca, node rb cb, _, _, h => by
    rw [toChunks_node, toChunks_node, List.cons_append, List.cons_append] at h
    obtain ⟨hchunk, hbelow⟩ := List.cons.inj h
    have hroot : ra = rb := congrArg Chunk.psbt hchunk
    obtain ⟨hchildren, hrest⟩ := eq_of_chunksAll_append ca cb (congrArg Chunk.children hchunk) hbelow
    exact ⟨by rw [hroot, hchildren], hrest⟩

theorem eq_of_chunksAll_append : (a b : List (UInt32 × Tree)) → {rest rest' : List Chunk} →
    (a.map fun (vout, child) => (vout, child.txid)) = (b.map fun (vout, child) => (vout, child.txid)) →
    chunksAll a ++ rest = chunksAll b ++ rest' → a = b ∧ rest = rest'
  | [], [], _, _, _, h => ⟨rfl, h⟩
  | (vout, child) :: others, (vout', child') :: others', _, _, hreferences, h => by
    obtain ⟨hfirst, hreferences⟩ := List.cons.inj hreferences
    rw [chunksAll_cons, chunksAll_cons, List.append_assoc, List.append_assoc] at h
    obtain ⟨hchild, h⟩ := eq_of_toChunks_append child child' h
    obtain ⟨hothers, hrest⟩ := eq_of_chunksAll_append others others' hreferences h
    exact ⟨by rw [(Prod.mk.inj hfirst).1, hchild, hothers], hrest⟩

end

/-- A tree is known by its chunks in order, also where names are repeated. -/
theorem toChunks_inj {a b : Tree} (h : a.toChunks = b.toChunks) : a = b :=
  (eq_of_toChunks_append a b (congrArg (· ++ []) h)).1

/-! ## The root -/

/-- Where each chunk is a node of one tree, the root of the tree is the only chunk that no chunk refers to. -/
theorem rootOf_of_spelled (hnamed : Named chunks) (hdistinct : Distinct chunks) {tree : Tree}
    (hspelled : Spelled chunks tree tree.txid) (hperm : tree.names.Perm (chunks.map Chunk.txid)) :
    rootOf chunks = .ok tree.txid := by
  have hvisits := visits_of_spelled hnamed tree hspelled .done
  rw [List.append_nil] at hvisits
  have hreferenced : tree.names.Perm (tree.txid :: referenced chunks) := hvisits.perm_referenced hdistinct hperm
  have hfresh : tree.txid ∉ referenced chunks := by
    have hnodup := hreferenced.nodup_iff.mp (hperm.nodup_iff.mpr hdistinct)
    exact (List.nodup_cons.mp hnodup).1
  have hself : tree ∈ tree.nodes := by
    cases tree with
    | node root children => rw [nodes]; exact List.mem_cons_self
  have hroot : tree.chunk ∈ chunks := hspelled.chunk_mem hnamed tree tree hself
  refine (rootOf_eq_ok_iff hdistinct).mpr ⟨tree.chunk, rfl, ⟨hroot, fun other hother hmem => ?_⟩, ?_⟩
  · exact hfresh (mem_referenced.mpr ⟨other, hother, hmem⟩)
  · rintro other ⟨hother, hunreferenced⟩
    have hname : other.txid ∈ tree.txid :: referenced chunks :=
      hreferenced.mem_iff.mp (hperm.mem_iff.mpr (List.mem_map_of_mem hother))
    rcases List.mem_cons.mp hname with hname | hname
    · exact hdistinct.eq_of_txid_eq hother hroot hname
    · obtain ⟨parent, hparent, hmem⟩ := mem_referenced.mp hname
      exact absurd hmem (hunreferenced parent hparent)

/-! ## Both ways -/

/-- A tree that was rebuilt has the chunks it came from. -/
theorem perm_toChunks_of_ofChunks {tree : Tree} (h : ofChunks chunks = .ok tree) : tree.toChunks.Perm chunks := by
  obtain ⟨hnamed, hdistinct, _, hspelled, hnames⟩ := ofChunks_eq_ok_iff.mp h
  have hnodup : tree.toChunks.Nodup := by
    refine List.Nodup.of_map Chunk.txid ?_
    rw [map_txid_toChunks]
    exact hnames.nodup_iff.mpr hdistinct
  have hsub : tree.toChunks ⊆ chunks := by
    intro chunk hmem
    obtain ⟨held, hheld, rfl⟩ := List.mem_map.mp (toChunks_eq_map_nodes tree ▸ hmem)
    exact hspelled.chunk_mem hnamed tree held hheld
  refine (hnodup.subperm hsub).perm_of_length_le (Nat.le_of_eq ?_)
  have hcount := hnames.length_eq
  rw [← map_txid_toChunks, List.length_map, List.length_map] at hcount
  exact hcount.symm

/-- A tree without repeated names is rebuilt from its chunks. -/
theorem ofChunks_toChunks {tree : Tree} (h : tree.names.Nodup) : ofChunks tree.toChunks = .ok tree := by
  have hnamed := named_toChunks tree
  have hspelled := (spelled_iff hnamed tree).mpr fun _ => chunk_mem_toChunks
  have hperm : tree.names.Perm (tree.toChunks.map Chunk.txid) := by rw [map_txid_toChunks]
  have hdistinct : Distinct tree.toChunks := hperm.nodup_iff.mp h
  exact ofChunks_eq_ok_iff.mpr ⟨hnamed, hdistinct, rootOf_of_spelled hnamed hdistinct hspelled hperm, hspelled, hperm⟩

/-- Flattening and rebuilding undo each other: a tree that is rebuilt from chunks is flattened to the same chunks, and a
tree whose nodes have different names is rebuilt from its chunks in any order. -/
theorem flattening_inverse :
    (∀ chunks tree, ofChunks chunks = .ok tree → tree.toChunks.Perm chunks) ∧
      ∀ (tree : Tree) (chunks : List Chunk), (tree.nodes.map txid).Nodup → chunks.Perm tree.toChunks →
        ofChunks chunks = .ok tree :=
  ⟨fun _ _ => perm_toChunks_of_ofChunks, fun _ _ hnodup hperm => ofChunks_of_perm hperm (ofChunks_toChunks hnodup)⟩

theorem flattening_inverse_threeLevels :
    (threeLevels.nodes.map txid).Nodup ∧ ofChunks threeLevels.toChunks.reverse = .ok threeLevels ∧
      threeLevels.toChunks.Perm threeLevels.toChunks.reverse := by
  have hnodup : (threeLevels.nodes.map txid).Nodup := by decide +kernel
  obtain ⟨hflattened, hrebuilt⟩ := flattening_inverse
  have hok := hrebuilt threeLevels threeLevels.toChunks.reverse hnodup threeLevels.toChunks.reverse_perm
  exact ⟨hnodup, hok, hflattened _ _ hok⟩

end Vtxo.Settlement.Tree
