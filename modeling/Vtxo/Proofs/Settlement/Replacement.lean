import Vtxo.Proofs.Settlement.Coverage
import Vtxo.Proofs.Settlement.Flattening

/-!
# Replacing a transaction of a tree

A transaction of a settlement tree is replaced, once it is signed, by one of the same name. The first node of that name is
given the new one, whatever else the tree holds, and nothing else changes: a parent knows its children by their positions,
and a child its parent by the name, which stays. A tree without such a node is left as it was.

  1. `Tree.Replaced`: one tree is the other but for the first node of a name; `Tree.exists_replaced`: what is computed.
  2. `Tree.update_eq_ok_iff`: an updated tree is known by its chunks.
  3. `Tree.Replaced.validate_eq`: the check of the tree does not notice.
  4. `Tree.update_local`: all that an update does to a tree that is held.
-/

set_option autoImplicit false

namespace Vtxo.Settlement

/-- The chunk with another transaction, under the same name and with the same children. -/
def Chunk.holding (psbt : Psbt) (chunk : Chunk) : Chunk :=
  { chunk with psbt := psbt }

namespace Tree

variable {psbt : Psbt} {name : Txid} {tree updated : Tree}

/-! ## The node that is replaced -/

/-- The second tree is the first one, in which the first node of a name holds `psbt`. -/
inductive Replaced (psbt : Psbt) (name : Txid) : Tree → Tree → Prop where
  | here {held : Psbt} {children : List (UInt32 × Tree)} : held.txid = name →
      Replaced psbt name (node held children) (node psbt children)
  | deeper {root : Psbt} {before after : List (UInt32 × Tree)} {vout : UInt32} {child changed : Tree} :
      root.txid ≠ name → name ∉ namesAll before → Replaced psbt name child changed →
      Replaced psbt name (node root (before ++ (vout, child) :: after)) (node root (before ++ (vout, changed) :: after))

mutual

theorem replace?_of_notMem : (tree : Tree) → name ∉ tree.names → replace? psbt name tree = none
  | node root children, h => by
    rw [names_node] at h
    obtain ⟨hroot, hchildren⟩ := not_or.mp (mt List.mem_cons.mpr h)
    rw [replace?, if_neg (Ne.symm hroot), replaceAll?_of_notMem children hchildren]
    rfl

theorem replaceAll?_of_notMem : (children : List (UInt32 × Tree)) → name ∉ namesAll children →
    replaceAll? psbt name children = none
  | [], _ => by rw [replaceAll?]
  | (vout, child) :: rest, h => by
    rw [namesAll_cons] at h
    obtain ⟨hchild, hrest⟩ := not_or.mp (mt List.mem_append.mpr h)
    rw [replaceAll?, replace?_of_notMem child hchild, replaceAll?_of_notMem rest hrest]
    rfl

end

mutual

/-- Where a tree has a node of the name, the first one is replaced. -/
theorem exists_replaced : (tree : Tree) → name ∈ tree.names →
    ∃ updated, replace? psbt name tree = some updated ∧ Replaced psbt name tree updated
  | node root children, h => by
    rw [replace?]
    by_cases hroot : root.txid = name
    · exact ⟨_, if_pos hroot, .here hroot⟩
    · rw [names_node] at h
      have hmem : name ∈ namesAll children := (List.mem_cons.mp h).resolve_left (Ne.symm hroot)
      obtain ⟨before, vout, child, changed, after, rfl, hbefore, hchanged, hall⟩ := exists_replacedAll children hmem
      rw [if_neg hroot, hall]
      exact ⟨_, rfl, .deeper hroot hbefore hchanged⟩

theorem exists_replacedAll : (children : List (UInt32 × Tree)) → name ∈ namesAll children →
    ∃ before vout child changed after, children = before ++ (vout, child) :: after ∧ name ∉ namesAll before ∧
      Replaced psbt name child changed ∧
      replaceAll? psbt name children = some (before ++ (vout, changed) :: after)
  | (vout, child) :: rest, h => by
    rw [replaceAll?]
    by_cases hchild : name ∈ child.names
    · obtain ⟨changed, hreplace, hchanged⟩ := exists_replaced child hchild
      rw [hreplace]
      exact ⟨[], vout, child, changed, rest, rfl, List.not_mem_nil, hchanged, rfl⟩
    · rw [namesAll_cons] at h
      have hrest : name ∈ namesAll rest := (List.mem_append.mp h).resolve_left hchild
      obtain ⟨before, other, held, changed, after, rfl, hbefore, hchanged, hall⟩ := exists_replacedAll rest hrest
      rw [replace?_of_notMem child hchild, hall]
      refine ⟨(vout, child) :: before, other, held, changed, after, rfl, ?_, hchanged, rfl⟩
      rw [namesAll_cons]
      exact fun hmem => (List.mem_append.mp hmem).elim hchild hbefore

end

/-! ## What an update changes -/

/-- A tree keeps its own name. -/
theorem Replaced.txid_eq (h : Replaced psbt psbt.txid tree updated) : updated.txid = tree.txid := by
  cases h with
  | here hname => exact hname.symm
  | deeper => rfl

/-- The chunks of a tree, up to the one that is replaced and from there on. -/
theorem Replaced.exists_split (h : Replaced psbt psbt.txid tree updated) :
    ∃ front held back, tree.toChunks = front ++ held :: back ∧ updated.toChunks = front ++ held.holding psbt :: back ∧
      held.txid = psbt.txid ∧ psbt.txid ∉ front.map Chunk.txid := by
  induction h with
  | @here held children hname =>
    refine ⟨[], (node held children).chunk, chunksAll children, toChunks_node _ _, ?_, hname, List.not_mem_nil⟩
    have hchunk : (node psbt children).chunk = (node held children).chunk.holding psbt := by
      rw [chunk, Chunk.holding, chunk, txid, root, txid, root, hname]
      rfl
    rw [toChunks_node, hchunk, List.nil_append]
  | @deeper root before after vout child changed hroot hbefore hchanged ih =>
    obtain ⟨front, held, back, htree, hupdated, hname, hfront⟩ := ih
    refine ⟨(node root (before ++ (vout, child) :: after)).chunk :: (chunksAll before ++ front), held,
      back ++ chunksAll after, ?_, ?_, hname, ?_⟩
    · rw [toChunks_node, chunksAll_append, chunksAll_cons, htree]
      simp only [List.cons_append, List.append_assoc]
    · have hchunk : (node root (before ++ (vout, changed) :: after)).chunk =
          (node root (before ++ (vout, child) :: after)).chunk := by
        simp only [chunk, Tree.children, List.map_append, List.map_cons, hchanged.txid_eq]
        rfl
      rw [toChunks_node, chunksAll_append, chunksAll_cons, hupdated, hchunk]
      simp only [List.cons_append, List.append_assoc]
    · rw [List.map_cons, List.map_append, map_txid_chunksAll]
      simp only [List.mem_cons, List.mem_append, not_or]
      exact ⟨Ne.symm hroot, hbefore, hfront⟩

/-- The first chunk of the name holds the new transaction, and all other chunks are the same. -/
theorem Replaced.toChunks_eq (h : Replaced psbt psbt.txid tree updated) :
    updated.toChunks = tree.toChunks.modify (tree.names.idxOf psbt.txid) (Chunk.holding psbt) := by
  obtain ⟨front, held, back, htree, hupdated, hname, hfront⟩ := h.exists_split
  have hindex : tree.names.idxOf psbt.txid = front.length + 0 := by
    rw [← map_txid_toChunks, htree, List.map_append, List.idxOf_append_of_notMem hfront, List.map_cons,
      List.idxOf_cons_eq _ hname, List.length_map]
  rw [hindex, htree, hupdated]
  exact (List.modifyTailIdx_add (List.modifyHead (Chunk.holding psbt)) 0 front (held :: back)).symm

/-- No transaction gets another name, and no node other children. -/
theorem Replaced.map_toChunks_eq (h : Replaced psbt psbt.txid tree updated) {α : Type} {view : Chunk → α}
    (hview : ∀ chunk, view (chunk.holding psbt) = view chunk) : updated.toChunks.map view = tree.toChunks.map view := by
  obtain ⟨front, held, back, htree, hupdated, _⟩ := h.exists_split
  rw [htree, hupdated, List.map_append, List.map_append, List.map_cons, List.map_cons, hview]

theorem Replaced.names_eq (h : Replaced psbt psbt.txid tree updated) : updated.names = tree.names := by
  rw [← map_txid_toChunks, ← map_txid_toChunks]
  exact h.map_toChunks_eq fun _ => rfl

theorem Replaced.mem_names (h : Replaced psbt psbt.txid tree updated) : psbt.txid ∈ tree.names := by
  obtain ⟨front, held, back, htree, _, hname, _⟩ := h.exists_split
  rw [← map_txid_toChunks, htree, ← hname]
  exact List.mem_map_of_mem List.mem_append_cons_self

/-- The leaves are seen from the chunks. -/
theorem map_txid_leaves (tree : Tree) :
    tree.leaves.map txid =
      ((tree.toChunks.map fun chunk => (chunk.txid, chunk.children.isEmpty)).filter (·.2)).map (·.1) := by
  have hleaf : ∀ held : Tree, held.chunk.children.isEmpty = held.isLeaf := fun held => by
    rw [chunk, isLeaf, List.isEmpty_map]
  rw [leaves_eq_filter, toChunks_eq_map_nodes, List.map_map, List.filter_map, List.map_map]
  simp only [Function.comp_def, hleaf]
  rfl

theorem Replaced.map_txid_leaves_eq (h : Replaced psbt psbt.txid tree updated) :
    updated.leaves.map txid = tree.leaves.map txid := by
  rw [map_txid_leaves, map_txid_leaves, h.map_toChunks_eq fun _ => rfl]

/-! ## The node that is found -/

theorem find?_of_txid_eq (h : tree.txid = name) : tree.find? name = some tree := by
  cases tree with
  | node root children => exact if_pos h

theorem findAll?_of_notMem {before rest : List (UInt32 × Tree)} (h : name ∉ namesAll before) :
    findAll? name (before ++ rest) = findAll? name rest := by
  have hnone : (nodesAll before).find? (fun candidate => candidate.txid == name) = none := by
    refine List.find?_eq_none.mpr fun candidate hmem hname => h ?_
    exact List.mem_map.mpr ⟨candidate, hmem, by simpa using hname⟩
  rw [findAll?_eq_find?_nodesAll, findAll?_eq_find?_nodesAll, nodesAll_append, List.find?_append, hnone,
    Option.none_or]

theorem find?_isSome_iff : (tree.find? name).isSome ↔ name ∈ tree.names := by
  rw [find?_eq_find?_nodes, List.find?_isSome, names, List.mem_map]
  simp only [beq_iff_eq]

/-- What has the name in one child, and neither in the root nor in earlier children, is found in that child. -/
theorem find?_of_mem_child {root : Psbt} {before after : List (UInt32 × Tree)} {vout : UInt32} {child : Tree}
    (hroot : root.txid ≠ name) (hbefore : name ∉ namesAll before) (hchild : name ∈ child.names) :
    (node root (before ++ (vout, child) :: after)).find? name = child.find? name := by
  obtain ⟨found, hfound⟩ := Option.isSome_iff_exists.mp (find?_isSome_iff.mpr hchild)
  rw [find?, if_neg hroot, findAll?_of_notMem hbefore, findAll?, hfound]

/-- The node that is found under the name holds the new transaction, and it has the children of the one that was found
before. -/
theorem Replaced.find?_eq (h : Replaced psbt psbt.txid tree updated) {held : Tree}
    (hheld : tree.find? psbt.txid = some held) : updated.find? psbt.txid = some (node psbt held.children) := by
  induction h with
  | @here first children hname =>
    rw [find?_of_txid_eq (by exact hname)] at hheld
    cases hheld
    exact find?_of_txid_eq rfl
  | deeper hroot hbefore hchanged ih =>
    rw [find?_of_mem_child hroot hbefore hchanged.mem_names] at hheld
    rw [find?_of_mem_child hroot hbefore (hchanged.names_eq ▸ hchanged.mem_names)]
    exact ih hheld

/-! ## The check of the tree -/

theorem validateAll_append (parent : Transaction) (parentTxid : Txid) (before after : List (UInt32 × Tree)) :
    validateAll parent parentTxid (before ++ after) = (do
      validateAll parent parentTxid before
      validateAll parent parentTxid after) := by
  induction before with
  | nil =>
    rw [List.nil_append, validateAll]
    rfl
  | cons entry rest ih =>
    rw [List.cons_append, validateAll, ih, validateAll]
    simp only [bind_assoc]

/-- The check of an edge looks at the transaction of the child only. -/
theorem checkChild_congr {a b : Tree} (h : a.root.tx = b.root.tx) (parent : Transaction) (parentTxid : Txid)
    (vout : UInt32) : checkChild parent parentTxid vout a = checkChild parent parentTxid vout b := by
  have htxid : a.txid = b.txid := congrArg Transaction.txid h
  rw [checkChild, checkChild, h, htxid]

theorem checkNode_congr {a b : Psbt} (h : a.tx = b.tx) (count : Nat) : checkNode a count = checkNode b count := by
  have htxid : a.txid = b.txid := congrArg Transaction.txid h
  rw [checkNode, checkNode, h, htxid]

/-- Where the new transaction is the one it is put in place of, the check of the tree ends as before. -/
theorem Replaced.validate_eq (h : Replaced psbt psbt.txid tree updated) {held : Tree}
    (hheld : tree.find? psbt.txid = some held) (hsame : held.root.tx = psbt.tx) :
    updated.root.tx = tree.root.tx ∧ updated.validate = tree.validate := by
  induction h with
  | @here first children hname =>
    rw [find?_of_txid_eq (by exact hname)] at hheld
    cases hheld
    have htx : first.tx = psbt.tx := hsame
    refine ⟨hsame.symm, ?_⟩
    rw [validate, validate, checkNode_congr htx, htx, hname]
  | @deeper root before after vout child changed hroot hbefore hchanged ih =>
    rw [find?_of_mem_child hroot hbefore hchanged.mem_names] at hheld
    obtain ⟨htx, hvalidate⟩ := ih hheld
    refine ⟨rfl, ?_⟩
    rw [validate, validate, validateAll_append, validateAll_append, validateAll, validateAll, checkChild_congr htx,
      hvalidate, List.length_append, List.length_append, List.length_cons, List.length_cons]

/-! ## Updating -/

theorem update_of_notMem (h : psbt.txid ∉ tree.names) :
    tree.update psbt = (tree, .error (.settlement (.notInTree psbt.txid))) := by
  rw [update, replace?_of_notMem tree h]

theorem exists_update (h : psbt.txid ∈ tree.names) :
    ∃ updated, tree.update psbt = (updated, .ok ()) ∧ Replaced psbt psbt.txid tree updated := by
  obtain ⟨updated, hreplace, hreplaced⟩ := exists_replaced tree h
  exact ⟨updated, by rw [update, hreplace], hreplaced⟩

theorem replaced_of_update (h : tree.update psbt = (updated, .ok ())) : Replaced psbt psbt.txid tree updated := by
  by_cases hmem : psbt.txid ∈ tree.names
  · obtain ⟨found, hfound, hreplaced⟩ := exists_update hmem
    rw [hfound] at h
    cases h
    exact hreplaced
  · rw [update_of_notMem hmem] at h
    cases h

/-- An updated tree is known by its chunks. -/
theorem update_eq_ok_iff : tree.update psbt = (updated, .ok ()) ↔
    psbt.txid ∈ tree.names ∧
      updated.toChunks = tree.toChunks.modify (tree.names.idxOf psbt.txid) (Chunk.holding psbt) := by
  refine ⟨fun h => ⟨(replaced_of_update h).mem_names, (replaced_of_update h).toChunks_eq⟩, fun ⟨hmem, hchunks⟩ => ?_⟩
  obtain ⟨found, hfound, hreplaced⟩ := exists_update hmem
  rw [hfound, toChunks_inj (hreplaced.toChunks_eq.trans hchunks.symm)]

/-- In the second tree the node `held` of the first one has the transaction `psbt`, and nothing else is different. -/
structure ChangedOnly (psbt : Psbt) (held tree updated : Tree) : Prop where
  found : updated.find psbt.txid = .ok (node psbt held.children)
  /-- The chunks say of every node what its transaction is, and which children it has at which positions. -/
  chunks : updated.toChunks = tree.toChunks.modify (tree.names.idxOf psbt.txid) (Chunk.holding psbt)
  names : updated.names = tree.names
  leaves : updated.leaves.map txid = tree.leaves.map txid
  verdict : held.root.tx = psbt.tx → updated.validate = tree.validate

theorem find_eq_ok_iff {held : Tree} : tree.find name = .ok held ↔ tree.find? name = some held := by
  rw [find]
  cases tree.find? name <;> simp

theorem Replaced.changedOnly (h : Replaced psbt psbt.txid tree updated) :
    ∃ held, tree.find psbt.txid = .ok held ∧ ChangedOnly psbt held tree updated := by
  obtain ⟨held, hheld⟩ := Option.isSome_iff_exists.mp (find?_isSome_iff.mpr h.mem_names)
  exact ⟨held, find_eq_ok_iff.mpr hheld, {
    found := find_eq_ok_iff.mpr (h.find?_eq hheld)
    chunks := h.toChunks_eq
    names := h.names_eq
    leaves := h.map_txid_leaves_eq
    verdict := fun hsame => (h.validate_eq hheld hsame).2 }⟩

/-- An update succeeds exactly if some node has the name of the transaction. If it fails, the tree stays as it was. If
it succeeds, the node that was found under the name holds the transaction, and nothing else is different. -/
theorem update_local (tree : Tree) (psbt : Psbt) :
    ((tree.update psbt).2 = .ok () ↔ ∃ held ∈ tree.nodes, held.txid = psbt.txid) ∧
      (∀ fault, (tree.update psbt).2 = .error fault →
        fault = .settlement (.notInTree psbt.txid) ∧ (tree.update psbt).1 = tree) ∧
      ((tree.update psbt).2 = .ok () →
        ∃ held, tree.find psbt.txid = .ok held ∧ ChangedOnly psbt held tree (tree.update psbt).1) := by
  by_cases hmem : psbt.txid ∈ tree.names
  · obtain ⟨updated, hupdate, hreplaced⟩ := exists_update hmem
    rw [hupdate]
    refine ⟨iff_of_true rfl (List.mem_map.mp hmem), ?_, fun _ => hreplaced.changedOnly⟩
    rintro fault ⟨⟩
  · rw [update_of_notMem hmem]
    refine ⟨iff_of_false (by rintro ⟨⟩) (mt List.mem_map.mpr hmem), ?_, by rintro ⟨⟩⟩
    rintro fault ⟨⟩
    exact ⟨rfl, rfl⟩

/-- The transaction of `singleTree`, with nothing recorded about its input. -/
def blankMove : Psbt :=
  ⟨Spend.moving 0, [InputMaps.empty], length_cosignedInput⟩

/-- A tree with the same transaction twice. -/
def twins : Tree :=
  node ⟨Spend.moving 1, [InputMaps.empty], length_cosignedInput⟩ [(0, singleTree), (1, singleTree)]

/-- The first of two nodes of one name is given the transaction. In a tree without the name nothing changes. -/
theorem update_local_twins :
    ((twins.update blankMove).2 = .ok () ∧ (twins.update blankMove).1.names = twins.names ∧
      (twins.update blankMove).1.find blankMove.txid = .ok (node blankMove []) ∧
      (twins.update blankMove).1.validate = twins.validate) ∧
    singleTree.update twins.root = (singleTree, .error (.settlement (.notInTree twins.txid))) := by
  have hname : blankMove.txid = nodeName := Spend.txid_moving.1
  have hroot : twins.root.txid = foreignName := Spend.txid_moving.2
  constructor
  · obtain ⟨hsucceeds, _, hchanged⟩ := update_local twins blankMove
    have hmem : singleTree ∈ twins.nodes := by
      simp [twins, singleTree, nodes, nodesAll]
    have hok := hsucceeds.mpr ⟨singleTree, hmem, rfl⟩
    obtain ⟨held, hfind, h⟩ := hchanged hok
    have hsingle : twins.find? blankMove.txid = some singleTree := by
      have hne : twins.root.txid ≠ blankMove.txid := by
        rw [hname, hroot]
        exact foreignName_ne
      refine (@find?_of_mem_child _ _ [] _ _ _ hne ?_ ?_).trans (find?_of_txid_eq rfl)
      · exact List.not_mem_nil
      · rw [names_singleTree, hname]
        exact List.mem_singleton_self _
    rw [find_eq_ok_iff, hsingle] at hfind
    cases hfind
    exact ⟨hok, h.names, h.found, h.verdict rfl⟩
  · obtain ⟨hsucceeds, hfails, _⟩ := update_local singleTree twins.root
    cases houtcome : (singleTree.update twins.root).2 with
    | error fault =>
      obtain ⟨rfl, hleft⟩ := hfails fault houtcome
      exact Prod.ext hleft houtcome
    | ok =>
      obtain ⟨held, hmem, hheld⟩ := hsucceeds.mp houtcome
      have hmem : held.txid ∈ singleTree.names := List.mem_map_of_mem hmem
      rw [names_singleTree, hheld, hroot, List.mem_singleton] at hmem
      exact absurd hmem foreignName_ne

end Tree

end Vtxo.Settlement
