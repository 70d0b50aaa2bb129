import Mathlib.Data.List.Nodup
import Mathlib.Data.List.Perm.Subperm
import Vtxo.Proofs.Success
import Vtxo.Settlement.Chunk

/-!
# Attaching chunks

Chunks spell a tree if each node is one of the chunks, and its children are spelled under the names that this chunk
refers to. Attaching finds that tree and uses up the chunks of its nodes, so it succeeds exactly if no two nodes of the
tree have the same name.

  1. `Tree.Spelled.unique`: chunks with different names spell at most one tree under a name.
  2. `Tree.attached_of_attach`: what is attached is spelled by the chunks that were left, each used once.
  3. `Tree.attach_of_spelled`: a tree without repeated names is attached.
-/

set_option autoImplicit false

namespace Vtxo.Settlement

/-- Each chunk has the name of its transaction. -/
def Named (chunks : List Chunk) : Prop :=
  ∀ chunk ∈ chunks, chunk.psbt.txid = chunk.txid

/-- No two chunks have the same name. -/
def Distinct (chunks : List Chunk) : Prop :=
  (chunks.map Chunk.txid).Nodup

/-- The chunks with other names than the given ones. -/
def without (chunks : List Chunk) (names : List Txid) : List Chunk :=
  chunks.filter fun chunk => !names.contains chunk.txid

section Without

variable {chunks : List Chunk}

theorem mem_without {names : List Txid} {chunk : Chunk} :
    chunk ∈ without chunks names ↔ chunk ∈ chunks ∧ chunk.txid ∉ names := by
  simp [without]

theorem without_append (front back : List Txid) :
    without chunks (front ++ back) = without (without chunks front) back := by
  rw [without, without, without, List.filter_filter]
  refine List.filter_congr fun chunk _ => ?_
  simp [Bool.and_comm]

theorem without_cons (name : Txid) (names : List Txid) :
    without chunks (name :: names) = without (without chunks [name]) names :=
  without_append [name] names

theorem without_nil : without chunks [] = chunks := by
  simp [without]

theorem Named.without (h : Named chunks) (names : List Txid) : Named (without chunks names) :=
  fun chunk hmem => h chunk (mem_without.mp hmem).1

theorem Distinct.without (h : Distinct chunks) (names : List Txid) : Distinct (without chunks names) :=
  h.sublist (List.filter_sublist.map _)

/-- Chunks are told apart by their names. -/
theorem Distinct.eq_of_txid_eq (h : Distinct chunks) {a b : Chunk} (ha : a ∈ chunks) (hb : b ∈ chunks)
    (heq : a.txid = b.txid) : a = b :=
  List.inj_on_of_nodup_map h ha hb heq

theorem Distinct.find?_txid (h : Distinct chunks) {chunk : Chunk} (hmem : chunk ∈ chunks) :
    (chunks.find? fun other => other.txid == chunk.txid) = some chunk := by
  cases hfind : chunks.find? fun other => other.txid == chunk.txid with
  | none => exact absurd (List.find?_eq_none.mp hfind chunk hmem) (by simp)
  | some found =>
    have hname : found.txid = chunk.txid := by simpa using List.find?_some hfind
    rw [h.eq_of_txid_eq (List.mem_of_find?_eq_some hfind) hmem hname]

end Without

namespace Tree

/-! ## The tree that chunks spell -/

mutual

/-- The tree is spelled by the chunks under a name. -/
def Spelled (chunks : List Chunk) : Tree → Txid → Prop
  | node root children, name =>
    ∃ chunk ∈ chunks, chunk.txid = name ∧ chunk.psbt = root ∧ SpelledAll chunks children chunk.children

/-- The trees are spelled by the chunks under the names that are referred to, at the same positions. -/
def SpelledAll (chunks : List Chunk) : List (UInt32 × Tree) → List (UInt32 × Txid) → Prop
  | [], references => references = []
  | (vout, child) :: rest, references =>
    ∃ name others, references = (vout, name) :: others ∧ Spelled chunks child name ∧ SpelledAll chunks rest others

end

/-- The names of all nodes. -/
def names (tree : Tree) : List Txid := tree.nodes.map txid

/-- The names of all nodes of some trees. -/
def namesAll (children : List (UInt32 × Tree)) : List Txid := (nodesAll children).map txid

theorem names_node (root : Psbt) (children : List (UInt32 × Tree)) :
    (node root children).names = root.txid :: namesAll children := by
  rw [names, nodes, List.map_cons, namesAll]
  rfl

theorem namesAll_cons (vout : UInt32) (child : Tree) (rest : List (UInt32 × Tree)) :
    namesAll ((vout, child) :: rest) = child.names ++ namesAll rest := by
  rw [namesAll, nodesAll, List.map_append, names, namesAll]

theorem length_names (tree : Tree) : tree.names.length = tree.count := by
  rw [names, List.length_map, count_eq_length_nodes]

section Spelling

variable {chunks others : List Chunk}

mutual

/-- All names of a tree are names of chunks it is spelled by. -/
theorem Spelled.names_subset (hnamed : Named chunks) : (tree : Tree) → {name : Txid} →
    Spelled chunks tree name → ∀ held ∈ tree.names, ∃ chunk ∈ chunks, chunk.txid = held
  | node root children, _, ⟨chunk, hmem, _, hroot, hchildren⟩ => by
    intro held hheld
    rw [names_node] at hheld
    rcases List.mem_cons.mp hheld with rfl | hheld
    · exact ⟨chunk, hmem, by rw [← hroot, hnamed chunk hmem]⟩
    · exact SpelledAll.names_subset hnamed children hchildren held hheld

theorem SpelledAll.names_subset (hnamed : Named chunks) : (children : List (UInt32 × Tree)) →
    {references : List (UInt32 × Txid)} → SpelledAll chunks children references →
    ∀ held ∈ namesAll children, ∃ chunk ∈ chunks, chunk.txid = held
  | [], _, _ => fun _ hheld => nomatch hheld
  | (vout, child) :: rest, _, ⟨_, _, _, hchild, hrest⟩ => by
    intro held hheld
    rw [namesAll_cons] at hheld
    rcases List.mem_append.mp hheld with hheld | hheld
    · exact Spelled.names_subset hnamed child hchild held hheld
    · exact SpelledAll.names_subset hnamed rest hrest held hheld

end

/-- The root is the transaction with the name. -/
theorem Spelled.txid_eq (hnamed : Named chunks) {tree : Tree} {name : Txid} (h : Spelled chunks tree name) :
    tree.txid = name := by
  obtain ⟨root, children⟩ := tree
  obtain ⟨chunk, hmem, rfl, rfl, _⟩ := h
  exact hnamed chunk hmem

mutual

/-- Chunks that are not among the nodes do not matter. -/
theorem Spelled.mono (hnamed : Named chunks) : (tree : Tree) → {name : Txid} → Spelled chunks tree name →
    (∀ chunk ∈ chunks, chunk.txid ∈ tree.names → chunk ∈ others) → Spelled others tree name
  | node root children, _, ⟨chunk, hmem, hname, hroot, hchildren⟩, hkept => by
    have hown : chunk.txid ∈ (node root children).names := by
      rw [names_node, ← hroot, hnamed chunk hmem]
      exact List.mem_cons_self
    refine ⟨chunk, hkept chunk hmem hown, hname, hroot, ?_⟩
    refine SpelledAll.mono hnamed children hchildren fun other hother hheld => hkept other hother ?_
    rw [names_node]
    exact List.mem_cons_of_mem _ hheld

theorem SpelledAll.mono (hnamed : Named chunks) : (children : List (UInt32 × Tree)) →
    {references : List (UInt32 × Txid)} → SpelledAll chunks children references →
    (∀ chunk ∈ chunks, chunk.txid ∈ namesAll children → chunk ∈ others) → SpelledAll others children references
  | [], _, h, _ => h
  | (vout, child) :: rest, _, ⟨name, references, hcons, hchild, hrest⟩, hkept => by
    refine ⟨name, references, hcons, ?_, ?_⟩
    · refine Spelled.mono hnamed child hchild fun other hother hheld => hkept other hother ?_
      rw [namesAll_cons]
      exact List.mem_append_left _ hheld
    · refine SpelledAll.mono hnamed rest hrest fun other hother hheld => hkept other hother ?_
      rw [namesAll_cons]
      exact List.mem_append_right _ hheld

end

mutual

/-- There is one tree at most under a name. -/
theorem Spelled.unique (hdistinct : Distinct chunks) : (tree : Tree) → {tree' : Tree} → {name : Txid} →
    Spelled chunks tree name → Spelled chunks tree' name → tree = tree'
  | node root children, node root' children', _, ⟨chunk, hmem, hname, hroot, hchildren⟩,
      ⟨chunk', hmem', hname', hroot', hchildren'⟩ => by
    have heq : chunk = chunk' := hdistinct.eq_of_txid_eq hmem hmem' (hname.trans hname'.symm)
    subst heq
    rw [← hroot, ← hroot', SpelledAll.unique hdistinct children hchildren hchildren']

theorem SpelledAll.unique (hdistinct : Distinct chunks) : (children : List (UInt32 × Tree)) →
    {children' : List (UInt32 × Tree)} → {references : List (UInt32 × Txid)} →
    SpelledAll chunks children references → SpelledAll chunks children' references → children = children'
  | [], [], _, _, _ => rfl
  | [], (_, _) :: _, _, h, ⟨_, _, hcons, _, _⟩ => by
    rw [h] at hcons
    cases hcons
  | (_, _) :: _, [], _, ⟨_, _, hcons, _, _⟩, h => by
    rw [h] at hcons
    cases hcons
  | (vout, child) :: rest, (vout', child') :: rest', _, ⟨name, references, hcons, hchild, hrest⟩,
      ⟨name', references', hcons', hchild', hrest'⟩ => by
    rw [hcons] at hcons'
    cases hcons'
    rw [Spelled.unique hdistinct child hchild hchild', SpelledAll.unique hdistinct rest hrest hrest']

end

end Spelling

/-! ## Attaching, step by step -/

/-- Build the subtrees that a chunk refers to, one after the other. -/
def attachAll (fuel : Nat) (references : List (UInt32 × Txid)) :
    StateT (List Chunk) (Except Error) (List (UInt32 × Tree)) :=
  references.mapM fun (vout, child) => do return (vout, ← attach fuel child)

section Steps

variable {left rest : List Chunk} {name : Txid} {fuel : Nat}

theorem takeChunk_eq_ok {chunk : Chunk} :
    takeChunk name left = .ok (chunk, rest) ↔
      (left.find? fun other => other.txid == name) = some chunk ∧ rest = without left [name] := by
  have hrest : (left.filter fun other => other.txid != name) = without left [name] := by
    refine List.filter_congr fun other _ => ?_
    rw [List.contains_cons, List.contains_nil, Bool.or_false, bne]
  rw [takeChunk, hrest]
  cases left.find? fun other => other.txid == name with
  | none => exact ⟨fun h => absurd h (by rintro ⟨⟩), fun ⟨h, _⟩ => absurd h (by rintro ⟨⟩)⟩
  | some found =>
    change Except.ok (found, without left [name]) = Except.ok (chunk, rest) ↔ _
    rw [Except.ok.injEq, Prod.mk.injEq, Option.some.injEq, @eq_comm _ (without left [name])]

theorem attach_zero_ne {reached : Tree × List Chunk} : attach 0 name left ≠ .ok reached :=
  fun h => nomatch h

/-- A chunk is taken before its children are attached. -/
theorem attach_succ_eq_ok {tree : Tree} :
    attach (fuel + 1) name left = .ok (tree, rest) ↔
      ∃ chunk children, (left.find? fun other => other.txid == name) = some chunk ∧
        attachAll fuel chunk.children (without left [name]) = .ok (children, rest) ∧
        tree = node chunk.psbt children := by
  change (takeChunk name >>= fun chunk => attachAll fuel chunk.children >>= fun children =>
    pure (node chunk.psbt children)) left = _ ↔ _
  rw [stateful_bind_eq_ok]
  constructor
  · rintro ⟨chunk, _, htake, hchildren⟩
    obtain ⟨children, _, hchildren, hnode⟩ := stateful_bind_eq_ok.mp hchildren
    obtain ⟨hfind, rfl⟩ := takeChunk_eq_ok.mp htake
    obtain ⟨rfl, rfl⟩ := stateful_pure_eq_ok.mp hnode
    exact ⟨chunk, children, hfind, hchildren, rfl⟩
  · rintro ⟨chunk, children, hfind, hchildren, rfl⟩
    exact ⟨chunk, _, takeChunk_eq_ok.mpr ⟨hfind, rfl⟩,
      stateful_bind_eq_ok.mpr ⟨children, _, hchildren, stateful_pure_eq_ok.mpr ⟨rfl, rfl⟩⟩⟩

theorem attachAll_nil {children : List (UInt32 × Tree)} :
    attachAll fuel [] left = .ok (children, rest) ↔ children = [] ∧ rest = left := by
  rw [attachAll, List.mapM_nil, stateful_pure_eq_ok]

theorem attachAll_cons {vout : UInt32} {references : List (UInt32 × Txid)} {children : List (UInt32 × Tree)} :
    attachAll fuel ((vout, name) :: references) left = .ok (children, rest) ↔
      ∃ child between others, attach fuel name left = .ok (child, between) ∧
        attachAll fuel references between = .ok (others, rest) ∧ children = (vout, child) :: others := by
  rw [attachAll, List.mapM_cons, stateful_bind_eq_ok]
  constructor
  · rintro ⟨_, between, hchild, hothers⟩
    obtain ⟨child, _, hchild, hpair⟩ := stateful_bind_eq_ok.mp hchild
    obtain ⟨rfl, rfl⟩ := stateful_pure_eq_ok.mp hpair
    obtain ⟨others, _, hothers, hcons⟩ := stateful_bind_eq_ok.mp hothers
    obtain ⟨rfl, rfl⟩ := stateful_pure_eq_ok.mp hcons
    exact ⟨child, _, others, hchild, hothers, rfl⟩
  · rintro ⟨child, between, others, hchild, hothers, rfl⟩
    exact ⟨(vout, child), between, stateful_bind_eq_ok.mpr ⟨child, _, hchild, stateful_pure_eq_ok.mpr ⟨rfl, rfl⟩⟩,
      stateful_bind_eq_ok.mpr ⟨others, _, hothers, stateful_pure_eq_ok.mpr ⟨rfl, rfl⟩⟩⟩

end Steps

/-! ## What is attached -/

/-- The tree is spelled by the chunks that were left, and each of its nodes used up one of them. -/
structure Attached (left : List Chunk) (tree : Tree) (name : Txid) (rest : List Chunk) : Prop where
  spelled : Spelled left tree name
  nodup : tree.names.Nodup
  rest_eq : rest = without left tree.names

/-- The same of the subtrees that a chunk refers to. -/
structure AttachedAll (left : List Chunk) (children : List (UInt32 × Tree)) (references : List (UInt32 × Txid))
    (rest : List Chunk) : Prop where
  spelled : SpelledAll left children references
  nodup : (namesAll children).Nodup
  rest_eq : rest = without left (namesAll children)

/-- What holds of one subtree holds of several: the chunks of each are gone when the next one is attached. -/
theorem attachedAll_of_attachAll {fuel : Nat}
    (hattach : ∀ {name left tree rest}, Named left → attach fuel name left = .ok (tree, rest) →
      Attached left tree name rest) {references : List (UInt32 × Txid)} :
    ∀ {left children rest}, Named left → attachAll fuel references left = .ok (children, rest) →
      AttachedAll left children references rest := by
  induction references with
  | nil =>
    intro left children rest _ h
    obtain ⟨rfl, rfl⟩ := attachAll_nil.mp h
    exact ⟨rfl, List.nodup_nil, without_nil.symm⟩
  | cons reference references ih =>
    obtain ⟨vout, name⟩ := reference
    intro left children rest hnamed h
    obtain ⟨child, between, others, hchild, hothers, rfl⟩ := attachAll_cons.mp h
    obtain ⟨hspelled, hnodup, rfl⟩ := hattach hnamed hchild
    obtain ⟨hspelledAll, hnodupAll, rfl⟩ := ih (hnamed.without _) hothers
    have hfresh : child.names.Disjoint (namesAll others) := by
      intro held hheld hothers
      obtain ⟨chunk, hmem, rfl⟩ := SpelledAll.names_subset (hnamed.without _) others hspelledAll held hothers
      exact (mem_without.mp hmem).2 hheld
    refine ⟨⟨name, references, rfl, hspelled, ?_⟩, ?_, ?_⟩
    · exact SpelledAll.mono (hnamed.without _) others hspelledAll fun chunk hmem _ => (mem_without.mp hmem).1
    · rw [namesAll_cons]
      exact hnodup.append hnodupAll hfresh
    · rw [namesAll_cons, without_append]

theorem attached_of_attach {fuel : Nat} : ∀ {name left tree rest}, Named left →
    attach fuel name left = .ok (tree, rest) → Attached left tree name rest := by
  induction fuel with
  | zero =>
    intro _ _ _ _ _ h
    exact absurd h attach_zero_ne
  | succ fuel ih =>
    intro name left tree rest hnamed h
    obtain ⟨chunk, children, hfind, hchildren, rfl⟩ := attach_succ_eq_ok.mp h
    have hmem : chunk ∈ left := List.mem_of_find?_eq_some hfind
    have hname : chunk.txid = name := by simpa using List.find?_some hfind
    have hroot : chunk.psbt.txid = name := (hnamed chunk hmem).trans hname
    obtain ⟨hspelled, hnodup, rfl⟩ := attachedAll_of_attachAll ih (hnamed.without _) hchildren
    refine ⟨⟨chunk, hmem, hname, rfl, ?_⟩, ?_, ?_⟩
    · exact SpelledAll.mono (hnamed.without _) children hspelled fun other hother _ => (mem_without.mp hother).1
    · rw [names_node, hroot]
      refine hnodup.cons fun hheld => ?_
      obtain ⟨other, hother, heq⟩ := SpelledAll.names_subset (hnamed.without _) children hspelled _ hheld
      exact (mem_without.mp hother).2 (by rw [heq]; exact List.mem_cons_self)
    · rw [names_node, hroot, without_cons name (namesAll children)]

/-! ## What can be attached -/

mutual

/-- A tree that is spelled without repeated names is attached, with fuel for its nodes. -/
theorem attach_of_spelled : (tree : Tree) → {name : Txid} → {left : List Chunk} → {fuel : Nat} → Named left →
    Distinct left → Spelled left tree name → tree.names.Nodup → tree.count ≤ fuel →
    attach fuel name left = .ok (tree, without left tree.names)
  | node root children, name, left, fuel, hnamed, hdistinct, ⟨chunk, hmem, hname, hroot, hchildren⟩, hnodup, hfuel => by
    have hown : root.txid = name := by rw [← hroot, hnamed chunk hmem, hname]
    rw [names_node, hown] at hnodup
    obtain ⟨hfresh, hnodup⟩ := List.nodup_cons.mp hnodup
    rw [count] at hfuel
    obtain ⟨spare, rfl⟩ := Nat.exists_eq_add_of_le' hfuel
    refine attach_succ_eq_ok.mpr ⟨chunk, children, ?_, ?_, by rw [hroot]⟩
    · rw [← hname]
      exact hdistinct.find?_txid hmem
    · rw [names_node, hown, without_cons name (namesAll children)]
      refine attachAll_of_spelled children (hnamed.without _) (hdistinct.without _) ?_ hnodup (Nat.le_add_left _ _)
      refine SpelledAll.mono hnamed children hchildren fun other hother hheld => mem_without.mpr ⟨hother, ?_⟩
      intro hsame
      exact hfresh (List.mem_singleton.mp hsame ▸ hheld)

theorem attachAll_of_spelled : (children : List (UInt32 × Tree)) → {references : List (UInt32 × Txid)} →
    {left : List Chunk} → {fuel : Nat} → Named left → Distinct left → SpelledAll left children references →
    (namesAll children).Nodup → countAll children ≤ fuel →
    attachAll fuel references left = .ok (children, without left (namesAll children))
  | [], _, left, _, _, _, hnil, _, _ => by
    rw [hnil]
    exact attachAll_nil.mpr ⟨rfl, without_nil⟩
  | (vout, child) :: rest, _, left, fuel, hnamed, hdistinct, ⟨name, references, hcons, hchild, hrest⟩, hnodup, hfuel => by
    rw [namesAll_cons] at hnodup
    obtain ⟨hnodup, hnodupAll, hfresh⟩ := List.nodup_append'.mp hnodup
    rw [countAll] at hfuel
    rw [hcons]
    refine attachAll_cons.mpr ⟨child, without left child.names, rest, ?_, ?_, rfl⟩
    · exact attach_of_spelled child hnamed hdistinct hchild hnodup (by omega)
    · rw [namesAll_cons, without_append]
      refine attachAll_of_spelled rest (hnamed.without _) (hdistinct.without _) ?_ hnodupAll (by omega)
      exact SpelledAll.mono hnamed rest hrest fun other hother hheld =>
        mem_without.mpr ⟨hother, fun hused => hfresh hused hheld⟩

end

end Tree

end Vtxo.Settlement
