import Vtxo.Proofs.Settlement.Attach

/-!
# Chunks that spell a tree

Chunks are a graph: each refers to others by name. They are a rooted tree if one of them is referred to by no chunk, and
a walk from there over all references comes to every chunk once and to nothing else. The chunks from which a tree is
rebuilt are the rooted trees, whatever their order.

  1. `Visits`: a walk, with the names that are still to be visited on a stack.
  2. `Tree.visits_of_spelled` and `Tree.spelled_of_visits`: a walk goes over the nodes of the tree that the chunks spell.
  3. `Tree.ofChunks_eq_ok_iff`: what a rebuilt tree is.
  4. `Visits.perm_referenced`: a walk over all chunks follows each reference once.
-/

set_option autoImplicit false

namespace Vtxo.Settlement

/-- A chunk that no chunk refers to. -/
def IsRoot (chunks : List Chunk) (chunk : Chunk) : Prop :=
  chunk ∈ chunks ∧ ∀ other ∈ chunks, chunk.txid ∉ other.children.map (·.2)

/-- Following all references from the names on a stack, one after the other and each with everything below it, visits
these names. There must be a chunk for each name, and the walk must come to an end. -/
inductive Visits (chunks : List Chunk) : List Txid → List Txid → Prop where
  | done : Visits chunks [] []
  | visit {chunk : Chunk} {pending visited : List Txid} :
    chunk ∈ chunks → Visits chunks (chunk.children.map (·.2) ++ pending) visited →
      Visits chunks (chunk.txid :: pending) (chunk.txid :: visited)

/-- Whether chunks are a tree: a walk from the only root visits each of them once and nothing else. -/
structure RootedTree (chunks : List Chunk) : Prop where
  named : Named chunks
  distinct : Distinct chunks
  one_root : ∃! root, IsRoot chunks root
  visits_once : ∀ root, IsRoot chunks root →
    ∃ visited, Visits chunks [root.txid] visited ∧ visited.Perm (chunks.map Chunk.txid)

variable {chunks others : List Chunk}

theorem mem_referenced {name : Txid} :
    name ∈ Tree.referenced chunks ↔ ∃ chunk ∈ chunks, name ∈ chunk.children.map (·.2) := by
  rw [Tree.referenced, List.mem_flatMap]

theorem mem_roots {chunk : Chunk} :
    chunk ∈ chunks.filter (fun other => !(Tree.referenced chunks).contains other.txid) ↔ IsRoot chunks chunk := by
  rw [List.mem_filter, IsRoot, Bool.not_eq_true', List.contains_eq_mem, decide_eq_false_iff_not, mem_referenced]
  simp only [not_exists, not_and]

theorem IsRoot.of_perm (hperm : others.Perm chunks) {root : Chunk} (h : IsRoot chunks root) : IsRoot others root :=
  ⟨hperm.mem_iff.mpr h.1, fun other hmem => h.2 other (hperm.mem_iff.mp hmem)⟩

namespace Tree

/-! ## The root -/

/-- The root that is found is the only one. -/
theorem rootOf_eq_ok_iff (hdistinct : Distinct chunks) {name : Txid} :
    rootOf chunks = .ok name ↔
      ∃ root, root.txid = name ∧ IsRoot chunks root ∧ ∀ other, IsRoot chunks other → other = root := by
  have hroots : ∀ root, (chunks.filter fun other => !(referenced chunks).contains other.txid) = [root] ↔
      IsRoot chunks root ∧ ∀ other, IsRoot chunks other → other = root := by
    intro root
    have hnodup : chunks.Nodup := List.Nodup.of_map _ hdistinct
    rw [← List.perm_singleton, List.perm_ext_iff_of_nodup (hnodup.filter _) (List.nodup_singleton root)]
    simp only [mem_roots, List.mem_singleton]
    exact ⟨fun h => ⟨(h root).mpr rfl, fun other => (h other).mp⟩,
      fun h other => ⟨h.2 other, fun heq => heq ▸ h.1⟩⟩
  have hnames : rootOf chunks = .ok name ↔
      (chunks.map Chunk.txid).filter (fun txid => !(referenced chunks).contains txid) = [name] := by
    rw [rootOf]
    split
    · next hnone => rw [hnone]; exact ⟨fun h => absurd h (by rintro ⟨⟩), fun h => absurd h (by rintro ⟨⟩)⟩
    · next root hroot => rw [hroot, Except.ok.injEq, List.cons.injEq, and_iff_left rfl]
    · next hseveral => exact ⟨fun h => absurd h (by rintro ⟨⟩), fun h => absurd h (hseveral name)⟩
  rw [hnames, List.filter_map, List.map_eq_singleton_iff]
  constructor
  · rintro ⟨root, hroot, rfl⟩
    exact ⟨root, rfl, (hroots root).mp hroot⟩
  · rintro ⟨root, rfl, hroot⟩
    exact ⟨root, (hroots root).mpr hroot, rfl⟩

/-! ## Walks -/

mutual

/-- A walk over a tree that is spelled goes over its nodes, and then on. -/
theorem visits_of_spelled (hnamed : Named chunks) : (tree : Tree) → {name : Txid} → {pending visited : List Txid} →
    Spelled chunks tree name → Visits chunks pending visited → Visits chunks (name :: pending) (tree.names ++ visited)
  | node root children, _, _, _, ⟨chunk, hmem, hname, hroot, hchildren⟩, hrest => by
    rw [names_node, ← hroot, hnamed chunk hmem, ← hname]
    exact .visit hmem (visits_of_spelledAll hnamed children hchildren hrest)

theorem visits_of_spelledAll (hnamed : Named chunks) : (children : List (UInt32 × Tree)) →
    {references : List (UInt32 × Txid)} → {pending visited : List Txid} → SpelledAll chunks children references →
    Visits chunks pending visited → Visits chunks (references.map (·.2) ++ pending) (namesAll children ++ visited)
  | [], _, _, _, hnil, hrest => by
    rw [hnil]
    exact hrest
  | (vout, child) :: others, _, _, _, ⟨name, references, hcons, hchild, hothers⟩, hrest => by
    rw [hcons, namesAll_cons, List.append_assoc]
    exact visits_of_spelled hnamed child hchild (visits_of_spelledAll hnamed others hothers hrest)

end

/-- The trees under the names that a chunk refers to are the children of a node. -/
theorem spelledAll_of_forall₂ {references : List (UInt32 × Txid)} {pending : List Txid} : ∀ {trees : List Tree},
    List.Forall₂ (Spelled chunks) trees (references.map (·.2) ++ pending) →
    ∃ children rest, SpelledAll chunks children references ∧ List.Forall₂ (Spelled chunks) rest pending ∧
      trees.flatMap names = namesAll children ++ rest.flatMap names := by
  induction references with
  | nil => exact fun {trees} h => ⟨[], trees, rfl, h, rfl⟩
  | cons reference references ih =>
    obtain ⟨vout, name⟩ := reference
    intro trees h
    obtain ⟨child, trees, hchild, htrees, rfl⟩ := List.forall₂_cons_right_iff.mp h
    obtain ⟨children, rest, hchildren, hrest, hnames⟩ := ih htrees
    refine ⟨(vout, child) :: children, rest, ⟨name, references, rfl, hchild, hchildren⟩, hrest, ?_⟩
    rw [List.flatMap_cons, hnames, namesAll_cons, List.append_assoc]

/-- A walk that comes to an end has gone over the nodes of trees that are spelled. -/
theorem spelled_of_visits (hnamed : Named chunks) {pending visited : List Txid} (h : Visits chunks pending visited) :
    ∃ trees, List.Forall₂ (Spelled chunks) trees pending ∧ trees.flatMap names = visited := by
  induction h with
  | done => exact ⟨[], .nil, rfl⟩
  | @visit chunk pending visited hmem _ ih =>
    obtain ⟨trees, htrees, hvisited⟩ := ih
    obtain ⟨children, rest, hchildren, hrest, hnames⟩ := spelledAll_of_forall₂ htrees
    refine ⟨node chunk.psbt children :: rest, .cons ⟨chunk, hmem, rfl, rfl, hchildren⟩ hrest, ?_⟩
    rw [List.flatMap_cons, names_node, hnamed chunk hmem, List.cons_append, ← hnames, hvisited]

/-! ## Rebuilding -/

theorem checkNames_eq_ok_iff : checkNames chunks = .ok () ↔ Named chunks ∧ Distinct chunks := by
  have hfind : (chunks.find? fun chunk => chunk.psbt.txid != chunk.txid) = none ↔ Named chunks := by
    simp [List.find?_eq_none, Named]
  rw [checkNames, ← hfind, Distinct]
  cases chunks.find? fun chunk => chunk.psbt.txid != chunk.txid with
  | some => simp
  | none => by_cases h : (chunks.map Chunk.txid).Nodup <;> simp [h]

/-- As many different names as there are chunks, each of them the name of a chunk, are all names. -/
theorem perm_of_count {tree : Tree} (hnamed : Named chunks) (hspelled : Spelled chunks tree tree.txid)
    (hnodup : tree.names.Nodup) (hcount : tree.count = chunks.length) :
    tree.names.Perm (chunks.map Chunk.txid) := by
  refine (hnodup.subperm fun name hname => ?_).perm_of_length_le ?_
  · exact List.mem_map.mpr (Spelled.names_subset hnamed tree hspelled name hname)
  · exact Nat.le_of_eq (by rw [List.length_map, length_names, hcount])

/-- The tree that is rebuilt is spelled by the chunks under the name of the root, and each of them is one of its
nodes. -/
theorem ofChunks_eq_ok_iff {tree : Tree} :
    ofChunks chunks = .ok tree ↔
      Named chunks ∧ Distinct chunks ∧ rootOf chunks = .ok tree.txid ∧ Spelled chunks tree tree.txid ∧
        tree.names.Perm (chunks.map Chunk.txid) := by
  constructor
  · intro h
    obtain ⟨⟨⟩, hcheck, h⟩ := bind_eq_ok.mp h
    obtain ⟨root, hroot, h⟩ := bind_eq_ok.mp h
    obtain ⟨⟨attached, left⟩, hattach, h⟩ := bind_eq_ok.mp h
    obtain ⟨hcount, hreturn⟩ := unless_eq_ok.mp h
    cases hreturn
    obtain ⟨hnamed, hdistinct⟩ := checkNames_eq_ok_iff.mp hcheck
    obtain ⟨hspelled, hnodup, _⟩ := attached_of_attach hnamed hattach
    have hname : tree.txid = root := Spelled.txid_eq hnamed hspelled
    subst hname
    exact ⟨hnamed, hdistinct, hroot, hspelled, perm_of_count hnamed hspelled hnodup (not_not.mp hcount)⟩
  · rintro ⟨hnamed, hdistinct, hroot, hspelled, hperm⟩
    have hcount : tree.count = chunks.length := by
      rw [← length_names, hperm.length_eq, List.length_map]
    have hattach := attach_of_spelled tree hnamed hdistinct hspelled (hperm.nodup_iff.mpr hdistinct)
      (Nat.le_of_eq hcount)
    refine bind_eq_ok.mpr ⟨(), checkNames_eq_ok_iff.mpr ⟨hnamed, hdistinct⟩, ?_⟩
    refine bind_eq_ok.mpr ⟨tree.txid, hroot, bind_eq_ok.mpr ⟨_, hattach, ?_⟩⟩
    exact unless_eq_ok.mpr ⟨not_not.mpr hcount, rfl⟩

/-- What is rebuilt does not depend on the order of the chunks. -/
theorem ofChunks_of_perm (hperm : others.Perm chunks) {tree : Tree} (h : ofChunks chunks = .ok tree) :
    ofChunks others = .ok tree := by
  obtain ⟨hnamed, hdistinct, hroot, hspelled, hnames⟩ := ofChunks_eq_ok_iff.mp h
  have hkept : ∀ chunk ∈ chunks, chunk ∈ others := fun chunk => hperm.mem_iff.mpr
  have hdistinct' : Distinct others := (hperm.map _).nodup_iff.mpr hdistinct
  obtain ⟨root, hname, hisRoot, honly⟩ := (rootOf_eq_ok_iff hdistinct).mp hroot
  have hroot' : rootOf others = .ok tree.txid := (rootOf_eq_ok_iff hdistinct').mpr
    ⟨root, hname, hisRoot.of_perm hperm, fun other hother => honly other (hother.of_perm hperm.symm)⟩
  exact ofChunks_eq_ok_iff.mpr ⟨fun chunk hmem => hnamed chunk (hperm.mem_iff.mp hmem), hdistinct', hroot',
    Spelled.mono hnamed tree hspelled fun chunk hmem _ => hkept chunk hmem, hnames.trans (hperm.map _).symm⟩

/-! ## Rooted trees -/

/-- Chunks from which a tree is rebuilt are a rooted tree. -/
theorem rootedTree_of_ofChunks {tree : Tree} (h : ofChunks chunks = .ok tree) : RootedTree chunks := by
  obtain ⟨hnamed, hdistinct, hroot, hspelled, hnames⟩ := ofChunks_eq_ok_iff.mp h
  obtain ⟨root, hname, hisRoot, honly⟩ := (rootOf_eq_ok_iff hdistinct).mp hroot
  refine ⟨hnamed, hdistinct, ⟨root, hisRoot, honly⟩, fun other hother => ?_⟩
  rw [honly other hother, hname]
  have hvisits := visits_of_spelled hnamed tree hspelled .done
  rw [List.append_nil] at hvisits
  exact ⟨tree.names, hvisits, hnames⟩

/-- A tree is rebuilt from a rooted tree. -/
theorem exists_ofChunks_of_rootedTree (h : RootedTree chunks) : ∃ tree, ofChunks chunks = .ok tree := by
  obtain ⟨root, hisRoot, honly⟩ := h.one_root
  obtain ⟨visited, hvisits, hperm⟩ := h.visits_once root hisRoot
  obtain ⟨trees, htrees, hvisited⟩ := spelled_of_visits h.named hvisits
  obtain ⟨tree, rest, hspelled, hrest, rfl⟩ := List.forall₂_cons_right_iff.mp htrees
  obtain rfl := List.forall₂_nil_right_iff.mp hrest
  have hname : root.txid = tree.txid := (Spelled.txid_eq h.named hspelled).symm
  rw [List.flatMap_cons, List.flatMap_nil, List.append_nil] at hvisited
  rw [hname] at hspelled
  exact ⟨tree, ofChunks_eq_ok_iff.mpr ⟨h.named, h.distinct,
    (rootOf_eq_ok_iff h.distinct).mpr ⟨root, hname, hisRoot, honly⟩, hspelled, hvisited ▸ hperm⟩⟩

end Tree

/-! ## References -/

/-- A walk comes to the names it starts from and to those that the chunks on its way refer to. -/
theorem Visits.perm {pending visited : List Txid} (h : Visits chunks pending visited) :
    ∃ walked, walked ⊆ chunks ∧ walked.map Chunk.txid = visited ∧
      visited.Perm (pending ++ Tree.referenced walked) := by
  induction h with
  | done => exact ⟨[], List.nil_subset _, rfl, .nil⟩
  | @visit chunk pending visited hmem _ ih =>
    obtain ⟨walked, hsub, hvisited, hperm⟩ := ih
    refine ⟨chunk :: walked, List.cons_subset.mpr ⟨hmem, hsub⟩, by rw [List.map_cons, hvisited], ?_⟩
    refine (hperm.trans ?_).cons _
    -- The references of the chunk come before the pending names on the stack, and after them in the list.
    change List.Perm _ (pending ++ (chunk.children.map (·.2) ++ Tree.referenced walked))
    rw [← List.append_assoc]
    exact List.perm_append_comm.append_right _

/-- A walk that visits every chunk once comes to each name from the start or by one reference. -/
theorem Visits.perm_referenced (hdistinct : Distinct chunks) {pending visited : List Txid}
    (h : Visits chunks pending visited) (hperm : visited.Perm (chunks.map Chunk.txid)) :
    visited.Perm (pending ++ Tree.referenced chunks) := by
  obtain ⟨walked, hsub, rfl, hwalk⟩ := h.perm
  have hnodup : walked.Nodup := List.Nodup.of_map _ (hperm.nodup_iff.mpr hdistinct)
  have hlength : chunks.length ≤ walked.length := by
    simpa using Nat.le_of_eq hperm.length_eq.symm
  have hall : walked.Perm chunks := (hnodup.subperm hsub).perm_of_length_le hlength
  exact hwalk.trans ((hall.flatMap_right _).append_left _)

/-- Every chunk but the root is referred to once, and nothing else is. -/
theorem RootedTree.perm_referenced (h : RootedTree chunks) {root : Chunk} (hroot : IsRoot chunks root) :
    (root.txid :: Tree.referenced chunks).Perm (chunks.map Chunk.txid) := by
  obtain ⟨visited, hvisits, hperm⟩ := h.visits_once root hroot
  exact (hvisits.perm_referenced h.distinct hperm).symm.trans hperm

namespace Tree

/-! ## Accepted chunks -/

/-- A tree is rebuilt exactly from the rooted trees. In these every chunk but the root is referred to once, and the
order of the chunks is of no matter to the tree, or to whether there is one. -/
theorem ofChunks_rooted (chunks : List Chunk) :
    ((∃ tree, ofChunks chunks = .ok tree) ↔ RootedTree chunks) ∧
      (∀ root, RootedTree chunks → IsRoot chunks root →
        (root.txid :: referenced chunks).Perm (chunks.map Chunk.txid)) ∧
      ∀ others tree, others.Perm chunks → (ofChunks others = .ok tree ↔ ofChunks chunks = .ok tree) :=
  ⟨⟨fun ⟨_, h⟩ => rootedTree_of_ofChunks h, exists_ofChunks_of_rootedTree⟩,
    fun _ h hroot => h.perm_referenced hroot,
    fun _ _ hperm => ⟨ofChunks_of_perm hperm.symm, ofChunks_of_perm hperm⟩⟩

/-- A transaction without inputs. -/
def paying (value : Amount) : Psbt :=
  ⟨⟨transactionVersion, [], [⟨value, []⟩], 0⟩, [], rfl⟩

/-- A chunk, and then the one that refers to it. -/
def childFirst : List Chunk :=
  [⟨(paying ⟨1⟩).txid, paying ⟨1⟩, []⟩, ⟨(paying ⟨2⟩).txid, paying ⟨2⟩, [(0, (paying ⟨1⟩).txid)]⟩]

theorem ofChunks_childFirst : ofChunks childFirst = .ok (node (paying ⟨2⟩) [(0, node (paying ⟨1⟩) [])]) := by
  have hne : (paying ⟨1⟩).txid ≠ (paying ⟨2⟩).txid := by decide +kernel
  refine ofChunks_eq_ok_iff.mpr ⟨?_, ?_, ?_, ?_, .swap _ _ _⟩
  · simp [Named, childFirst]
  · simpa [Distinct, childFirst] using hne
  · simp [rootOf, referenced, childFirst, txid, root, hne.symm]
  · refine ⟨_, List.mem_cons_of_mem _ List.mem_cons_self, rfl, rfl, _, _, rfl, ?_, rfl⟩
    exact ⟨_, List.mem_cons_self, rfl, rfl, rfl⟩

theorem ofChunks_rooted_childFirst :
    RootedTree childFirst ∧
      ofChunks childFirst.reverse = .ok (node (paying ⟨2⟩) [(0, node (paying ⟨1⟩) [])]) := by
  obtain ⟨hrooted, _, horder⟩ := ofChunks_rooted childFirst
  exact ⟨hrooted.mp ⟨_, ofChunks_childFirst⟩,
    (horder _ _ childFirst.reverse_perm).mpr ofChunks_childFirst⟩

end Tree

end Vtxo.Settlement
