import Vtxo.Proofs.Success
import Vtxo.Proofs.Taproot.Assembly
import Vtxo.Taproot.Commitment

/-!
# Openings of a commitment

The builder sees the depths of the leaves from left to right and nothing of the tree they are taken from. What it has
seen of a subtree it holds as that subtree, so it rebuilds the tree, with its digest and with a path for each leaf that
leads up to this digest.

  1. `Builder.insert_insert`: two subtrees side by side are one subtree a level above.
  2. `Commitment.foldlM_add_depthsFrom`: adding the leaves of a tree is inserting the tree.
  3. `Commitment.path_leads_up`: where the path of a leaf leads.
  4. `Commitment.exists_controlBlock_of_make`, `Commitment.noOutputKey_of_make`: what is known of a commitment that was
     made, and of one that could not be made.
  5. `Commitment.make_opens`: every script of a list is opened by its control block, and no other script is.
-/

set_option autoImplicit false

namespace Vtxo

theorem branchHash_comm (a b : Sized 32) : branchHash a b = branchHash b a := by
  unfold branchHash
  by_cases hab : a.val < b.val
  · rw [if_pos hab, if_neg (List.lt_asymm hab)]
  · by_cases hba : b.val < a.val
    · rw [if_neg hab, if_pos hba]
    · have heq : a.val = b.val := List.le_antisymm hba hab
      rw [if_neg hab, if_neg hba, heq]

/-! ## The builder -/

namespace Builder

/-- Below the places that are taken, a subtree opens places of its own. -/
theorem insert_of_length_le {builder : Builder} (node : Subtree) {depth : Nat} (h : builder.length ≤ depth)
    (hdepth : depth ≤ maxDepth) :
    builder.insert node depth = .ok (some node :: (List.replicate (depth - builder.length) none ++ builder)) := by
  rw [insert, if_neg (Nat.not_lt.mpr hdepth), if_neg (by omega), if_neg (by omega)]

/-- Two subtrees side by side are one subtree a level above. -/
theorem insert_insert {builder : Builder} (left right : Subtree) {depth : Nat} (h : builder.length ≤ depth + 1)
    (hdepth : depth + 1 ≤ maxDepth) :
    (builder.insert left (depth + 1) >>= fun reached => reached.insert right (depth + 1)) =
      builder.insert (right.merge left) depth := by
  rw [insert_of_length_le left h hdepth]
  change insert (some left :: _) right (depth + 1) = _
  have hlength : (some left :: (List.replicate (depth + 1 - builder.length) none ++ builder)).length = depth + 2 := by
    simp only [List.length_cons, List.length_append, List.length_replicate]
    omega
  rw [insert, if_neg (Nat.not_lt.mpr hdepth), if_neg (by omega), if_pos hlength.symm]
  by_cases htaken : builder.length = depth + 1
  · -- The place above is the deepest one that was taken before.
    obtain ⟨place, above, rfl⟩ := List.exists_cons_of_length_eq_add_one htaken
    rw [htaken, Nat.sub_self, List.replicate_zero, List.nil_append, Builder.place, insert,
      if_neg (by omega), if_neg (by omega), if_pos htaken.symm]
    exact List.cons_ne_nil place above
  · -- The place above is free.
    have hspare : depth + 1 - builder.length = depth - builder.length + 1 := by omega
    rw [insert_of_length_le _ (by omega) (by omega), hspare, List.replicate_succ]
    rfl

end Builder

/-! ## The subtree that the builder holds -/

namespace Commitment

/-- What the builder holds of a tree over scripts. -/
def subtree (scripts : List Bytes) : TapTree → Subtree
  | .leaf index => .single (scripts.getD index [])
  | .branch left right => (subtree scripts right).merge (subtree scripts left)

/-- Adding the leaves of a tree is inserting the tree. -/
theorem foldlM_add_depthsFrom (scripts : List Bytes) (tree : TapTree) {depth : Nat} {builder : Builder}
    (h : builder.length ≤ depth + 1) (hdepth : depth + tree.height ≤ Builder.maxDepth) :
    (tree.depthsFrom depth).foldlM (fun reached entry => reached.add (scripts.getD entry.1 []) entry.2) builder =
      builder.insert (subtree scripts tree) depth := by
  induction tree generalizing depth builder with
  | leaf index =>
    rw [TapTree.depthsFrom, List.foldlM_cons]
    exact bind_pure _
  | branch left right ihl ihr =>
    rw [TapTree.height] at hdepth
    rw [TapTree.depthsFrom, List.foldlM_append, ihl (Nat.le_succ_of_le h) (by omega), subtree,
      ← Builder.insert_insert _ _ h (by omega), Builder.insert_of_length_le _ h (by omega)]
    refine ihr ?_ (by omega)
    simp only [List.length_cons, List.length_append, List.length_replicate]
    omega

/-- The builder is complete once all leaves of a tree are added, and then holds the tree. -/
theorem addAll_eq (scripts : List Bytes) {tree : TapTree} (h : tree.height ≤ Builder.maxDepth) :
    addAll scripts tree = .ok [some (subtree scripts tree)] := by
  have hadd : addAll scripts tree = Builder.insert [] (subtree scripts tree) 0 :=
    foldlM_add_depthsFrom scripts tree (Nat.zero_le _) (by omega)
  rw [hadd, Builder.insert_of_length_le _ (Nat.le_refl 0) (Nat.zero_le _)]
  rfl

/-- No leaf that was added lies below the deepest level. -/
theorem depth_le_of_foldlM_add {scripts : List Bytes} {entries : List (Nat × Nat)} {start reached : Builder}
    (h : entries.foldlM (fun builder (index, depth) => builder.add (scripts.getD index []) depth) start = .ok reached) :
    ∀ entry ∈ entries, entry.2 ≤ Builder.maxDepth := by
  induction entries generalizing start with
  | nil => exact List.forall_mem_nil _
  | cons entry rest ih =>
    obtain ⟨index, depth⟩ := entry
    rw [List.foldlM_cons] at h
    obtain ⟨next, hnext, hrest⟩ := bind_eq_ok.mp h
    refine List.forall_mem_cons.mpr ⟨?_, ih hrest⟩
    have hinsert : start.insert (.single (scripts.getD index [])) depth = .ok next := hnext
    rw [Builder.insert] at hinsert
    split at hinsert
    · cases hinsert
    · next hdepth => exact Nat.not_lt.mp hdepth

theorem height_le_of_addAll {scripts : List Bytes} {tree : TapTree} {builder : Builder}
    (h : addAll scripts tree = .ok builder) : tree.height ≤ Builder.maxDepth := by
  obtain ⟨index, hmem⟩ := tree.exists_deepest 0
  rw [Nat.zero_add] at hmem
  exact depth_le_of_foldlM_add h _ hmem

/-- It arrives at the digest of the tree. -/
theorem digest_eq {scripts : List Bytes} {tree : TapTree} (h : ∀ index ∈ tree.leaves, index < scripts.length) :
    tree.digest scripts = .ok (subtree scripts tree).digest := by
  induction tree with
  | leaf index =>
    have hindex : index < scripts.length := h index List.mem_cons_self
    rw [TapTree.digest, subtree, List.getD_eq_getElem?_getD, List.getElem?_eq_getElem hindex]
    rfl
  | branch left right ihl ihr =>
    obtain ⟨hleft, hright⟩ := List.forall_mem_append.mp h
    rw [TapTree.digest, ihl hleft, ihr hright, subtree, Subtree.merge, branchHash_comm]
    rfl

/-! ## Paths -/

/-- The path of each leaf leads up to the digest of the tree. -/
theorem path_leads_up {scripts : List Bytes} {tree : TapTree} :
    ∀ leaf ∈ (subtree scripts tree).leaves,
      leaf.path.foldl branchHash (leafHash leaf.script) = (subtree scripts tree).digest := by
  induction tree with
  | leaf index =>
    intro leaf hmem
    rw [List.mem_singleton.mp hmem]
    rfl
  | branch left right ihl ihr =>
    intro leaf hmem
    rcases List.mem_append.mp hmem with hmem | hmem
    · obtain ⟨below, hbelow, rfl⟩ := List.mem_map.mp hmem
      rw [List.foldl_append, ihr below hbelow]
      rfl
    · obtain ⟨below, hbelow, rfl⟩ := List.mem_map.mp hmem
      rw [List.foldl_append, ihl below hbelow]
      exact branchHash_comm _ _

theorem map_script_lengthen (beside : Sized 32) (leaves : List LeafPath) :
    (Subtree.lengthen beside leaves).map LeafPath.script = leaves.map LeafPath.script := by
  rw [Subtree.lengthen, List.map_map]
  rfl

/-- The scripts that have a path are those at the leaves of the tree. -/
theorem perm_scripts_subtree (scripts : List Bytes) (tree : TapTree) :
    ((subtree scripts tree).leaves.map LeafPath.script).Perm (tree.leaves.map fun index => scripts.getD index []) := by
  induction tree with
  | leaf index => exact .refl _
  | branch left right ihl ihr =>
    rw [subtree, Subtree.merge, List.map_append, map_script_lengthen, map_script_lengthen, TapTree.leaves,
      List.map_append]
    exact (ihr.append ihl).trans List.perm_append_comm

theorem map_getD_range (scripts : List Bytes) :
    ((List.range scripts.length).map fun index => scripts.getD index []) = scripts := by
  refine List.ext_getElem (by simp) fun index _ h => ?_
  simp [h]

theorem perm_scripts_of_assemble {scripts : List Bytes} {tree : TapTree}
    (h : TapTree.assemble scripts.length = some tree) :
    ((subtree scripts tree).leaves.map LeafPath.script).Perm scripts :=
  (perm_scripts_subtree scripts tree).trans
    (((TapTree.perm_leaves_assemble h).map _).trans (.of_eq (map_getD_range scripts)))

/-! ## Control blocks -/

theorem mem_of_bestPath {paths : List (List (Sized 32))} {path : List (Sized 32)} (h : bestPath paths = some path) :
    path ∈ paths := by
  induction paths generalizing path with
  | nil => cases h
  | cons first rest ih =>
    rw [bestPath] at h
    cases hbest : bestPath rest with
    | none =>
      rw [hbest] at h
      cases h
      exact List.mem_cons_self
    | some best =>
      rw [hbest] at h
      cases h
      split
      · exact List.mem_cons_of_mem _ (ih hbest)
      · exact List.mem_cons_self

theorem bestPath_eq_none_iff {paths : List (List (Sized 32))} : bestPath paths = none ↔ paths = [] := by
  cases paths with
  | nil => exact ⟨fun _ => rfl, fun _ => rfl⟩
  | cons first rest =>
    rw [bestPath]
    cases bestPath rest <;> simp

theorem mem_pathsOf {commitment : Commitment} {script : Bytes} {path : List (Sized 32)} :
    path ∈ commitment.pathsOf script ↔ ⟨script, path⟩ ∈ commitment.leaves := by
  rw [pathsOf, List.mem_map]
  constructor
  · rintro ⟨leaf, hmem, rfl⟩
    obtain ⟨hmem, hscript⟩ := List.mem_filter.mp hmem
    exact beq_iff_eq.mp hscript ▸ hmem
  · exact fun hmem => ⟨_, List.mem_filter.mpr ⟨hmem, beq_self_eq_true script⟩, rfl⟩

/-- A script has a control block if it has a path. -/
theorem exists_controlBlock_iff {commitment : Commitment} {script : Bytes} :
    (∃ block, commitment.controlBlock script = .ok block) ↔ script ∈ commitment.leaves.map LeafPath.script := by
  have hpaths : script ∈ commitment.leaves.map LeafPath.script ↔ commitment.pathsOf script ≠ [] := by
    rw [List.mem_map]
    constructor
    · rintro ⟨⟨_, path⟩, hmem, rfl⟩
      exact List.ne_nil_of_mem (mem_pathsOf.mpr hmem)
    · intro hne
      obtain ⟨path, hmem⟩ := List.exists_mem_of_ne_nil _ hne
      exact ⟨⟨script, path⟩, mem_pathsOf.mp hmem, rfl⟩
  rw [hpaths, ne_eq, ← bestPath_eq_none_iff, controlBlock]
  cases bestPath (commitment.pathsOf script) with
  | none =>
    refine ⟨?_, fun h => absurd rfl h⟩
    rintro ⟨_, ⟨⟩⟩
  | some path => exact ⟨fun _ => by rintro ⟨⟩, fun _ => ⟨_, rfl⟩⟩

/-- It holds one of the script's paths. -/
theorem controlBlock_eq_ok {commitment : Commitment} {script : Bytes} {block : ControlBlock}
    (h : commitment.controlBlock script = .ok block) :
    block.odd = commitment.odd ∧ block.internal = unspendableKey ∧ ⟨script, block.path⟩ ∈ commitment.leaves := by
  rw [controlBlock] at h
  split at h
  · next path hpath =>
    cases h
    exact ⟨rfl, rfl, mem_pathsOf.mp (mem_of_bestPath hpath)⟩
  · cases h

end Commitment

/-! ## Openings -/

namespace ControlBlock

/-- The digest that a script and its path lead up to. -/
def rootOf (block : ControlBlock) (script : Bytes) : Sized 32 :=
  block.path.foldl branchHash (leafHash script)

/-- Whether the output key is the internal key moved by the digest, with the parity that the block states: what is
checked when an output is spent through the script. -/
def Opens (block : ControlBlock) (script : Bytes) (outputKey : XOnlyKey) : Prop :=
  block.internal.tweak? (Commitment.tweak block.internal (block.rootOf script)) = some (outputKey, block.odd)

end ControlBlock

namespace Commitment

theorem digest_of_assemble {scripts : List Bytes} {tree : TapTree}
    (hassemble : TapTree.assemble scripts.length = some tree) :
    tree.digest scripts = .ok (subtree scripts tree).digest :=
  digest_eq fun _ hmem => List.mem_range.mp ((TapTree.perm_leaves_assemble hassemble).mem_iff.mp hmem)

/-- There is a commitment to a list of scripts if the internal key can be moved by the digest of the tree over them. -/
theorem make_eq_ok {scripts : List Bytes} {tree : TapTree} (hassemble : TapTree.assemble scripts.length = some tree)
    (hheight : tree.height ≤ Builder.maxDepth) {outputKey : XOnlyKey} {odd : Bool}
    (htweak : unspendableKey.tweak? (tweak unspendableKey (subtree scripts tree).digest) = some (outputKey, odd)) :
    make scripts =
      .ok ⟨scripts, tree, (subtree scripts tree).leaves, (subtree scripts tree).digest, outputKey, odd⟩ := by
  rw [make, hassemble]
  simp only [addAll_eq scripts hheight, htweak, digest_of_assemble hassemble, Builder.complete?, bind, Except.bind, pure, Except.pure]
  rw [if_neg fun hne => hne rfl]

/-- The digest of the tree can be computed without the builder. -/
theorem exists_make_of_digest {scripts : List Bytes} {tree : TapTree}
    (hassemble : TapTree.assemble scripts.length = some tree) (hheight : tree.height ≤ Builder.maxDepth)
    (htweak : ((tree.digest scripts).toOption.bind fun root =>
      unspendableKey.tweak? (tweak unspendableKey root)).isSome = true) :
    ∃ commitment, make scripts = .ok commitment := by
  rw [digest_of_assemble hassemble] at htweak
  obtain ⟨⟨_, _⟩, hkey⟩ := Option.isSome_iff_exists.mp htweak
  exact ⟨_, make_eq_ok hassemble hheight hkey⟩

/-- Where the internal key cannot be moved by the digest of the tree, there is no commitment. -/
theorem make_eq_error {scripts : List Bytes} {tree : TapTree} (hassemble : TapTree.assemble scripts.length = some tree)
    (hheight : tree.height ≤ Builder.maxDepth)
    (htweak : unspendableKey.tweak? (tweak unspendableKey (subtree scripts tree).digest) = none) :
    make scripts = .error (.taproot .noOutputKey) := by
  rw [make, hassemble]
  simp only [addAll_eq scripts hheight, htweak, Builder.complete?, bind, Except.bind]
  rfl

/-- A commitment that was made has a leaf for each script of the list. -/
theorem perm_scripts_of_make {scripts : List Bytes} {commitment : Commitment} (h : make scripts = .ok commitment) :
    (commitment.leaves.map LeafPath.script).Perm scripts := by
  have hmake := h
  rw [make] at h
  cases hassemble : TapTree.assemble scripts.length with
  | none =>
    rw [hassemble] at h
    cases h
  | some tree =>
    rw [hassemble] at h
    obtain ⟨builder, hadd, _⟩ := bind_eq_ok.mp h
    have hheight := height_le_of_addAll hadd
    cases htweak : unspendableKey.tweak? (tweak unspendableKey (subtree scripts tree).digest) with
    | none =>
      rw [make_eq_error hassemble hheight htweak] at hmake
      cases hmake
    | some output =>
      rw [make_eq_ok hassemble hheight htweak] at hmake
      cases hmake
      exact perm_scripts_of_assemble hassemble

/-- Exactly the scripts of the list have control blocks. -/
theorem exists_controlBlock_of_make {scripts : List Bytes} {commitment : Commitment}
    (h : make scripts = .ok commitment) (script : Bytes) :
    (∃ block, commitment.controlBlock script = .ok block) ↔ script ∈ scripts :=
  exists_controlBlock_iff.trans (perm_scripts_of_make h).mem_iff

/-- A list of scripts has no commitment only if the internal key cannot be moved by the digest of its tree. -/
theorem noOutputKey_of_make {scripts : List Bytes} {tree : TapTree}
    (hassemble : TapTree.assemble scripts.length = some tree) (hheight : tree.height ≤ Builder.maxDepth) {error : Error}
    (h : make scripts = .error error) :
    error = .taproot .noOutputKey ∧
      unspendableKey.tweak? (tweak unspendableKey (subtree scripts tree).digest) = none := by
  cases htweak : unspendableKey.tweak? (tweak unspendableKey (subtree scripts tree).digest) with
  | none =>
    rw [make_eq_error hassemble hheight htweak] at h
    cases h
    exact ⟨rfl, rfl⟩
  | some output =>
    rw [make_eq_ok hassemble hheight htweak] at h
    cases h

/-- For every list of scripts, the builder is complete once the leaves of the tree over the list are added, and has the
tree's digest. If the internal key can be moved by this digest, there is a commitment; then a script has a control block
exactly if it is in the list, and each control block leads from its script up to the digest and opens the output key. A
tree over more than 2^128 scripts would have leaves below the deepest level. -/
theorem make_opens (scripts : List Bytes) (hne : scripts ≠ []) (hcount : scripts.length ≤ 2 ^ Builder.maxDepth) :
    ∃ (tree : TapTree) (builder : Builder) (built : Subtree),
      TapTree.assemble scripts.length = some tree ∧ addAll scripts tree = .ok builder ∧
      builder.complete? = some built ∧ tree.digest scripts = .ok built.digest ∧
      ((unspendableKey.tweak? (tweak unspendableKey built.digest)).isSome →
        ∃ commitment, make scripts = .ok commitment ∧ commitment.root = built.digest ∧
          ∀ script, ((∃ block, commitment.controlBlock script = .ok block) ↔ script ∈ scripts) ∧
            ∀ block, commitment.controlBlock script = .ok block →
              block.rootOf script = commitment.root ∧ block.Opens script commitment.outputKey) := by
  obtain ⟨tree, hassemble⟩ := TapTree.exists_assemble (List.length_pos_iff.mpr hne)
  have hheight : tree.height ≤ Builder.maxDepth := TapTree.height_assemble_le hcount hassemble
  have hdigest : tree.digest scripts = .ok (subtree scripts tree).digest :=
    digest_eq fun index hmem => List.mem_range.mp ((TapTree.perm_leaves_assemble hassemble).mem_iff.mp hmem)
  refine ⟨tree, _, subtree scripts tree, hassemble, addAll_eq scripts hheight, rfl, hdigest, fun htweak => ?_⟩
  obtain ⟨⟨outputKey, odd⟩, htweak⟩ := Option.isSome_iff_exists.mp htweak
  refine ⟨_, make_eq_ok hassemble hheight htweak, rfl, fun script => ⟨?_, fun block hblock => ?_⟩⟩
  · exact exists_controlBlock_iff.trans (perm_scripts_of_assemble hassemble).mem_iff
  · obtain ⟨hodd, hinternal, hleaf⟩ := controlBlock_eq_ok hblock
    have hroot : block.rootOf script = (subtree scripts tree).digest := path_leads_up ⟨script, block.path⟩ hleaf
    refine ⟨hroot, ?_⟩
    rw [ControlBlock.Opens, hroot, hinternal, hodd]
    exact htweak

/-- Three scripts, the first and the last the same. -/
def repeatedScripts : List Bytes := [[0x51], [0x52], [0x51]]

def repeatedTree : TapTree := .branch (.branch (.leaf 0) (.leaf 1)) (.leaf 2)

theorem assemble_repeatedScripts : TapTree.assemble repeatedScripts.length = some repeatedTree := by
  simp [repeatedScripts, repeatedTree, TapTree.assemble, TapTree.pairUp, TapTree.combine]

theorem tweak?_repeatedTree :
    ((repeatedTree.digest repeatedScripts).toOption.bind fun root =>
      unspendableKey.tweak? (tweak unspendableKey root)).isSome = true := by
  decide +kernel

theorem make_opens_repeatedScripts :
    repeatedScripts ≠ [] ∧ repeatedScripts.length ≤ 2 ^ Builder.maxDepth ∧
      ∃ commitment block, make repeatedScripts = .ok commitment ∧ commitment.controlBlock [0x51] = .ok block ∧
        block.rootOf [0x51] = commitment.root ∧ block.Opens [0x51] commitment.outputKey := by
  have hne : repeatedScripts ≠ [] := List.cons_ne_nil _ _
  have hcount : repeatedScripts.length ≤ 2 ^ Builder.maxDepth := by simp [repeatedScripts, Builder.maxDepth]
  obtain ⟨tree, builder, built, hassemble, _, _, hdigest, hmake⟩ := make_opens repeatedScripts hne hcount
  cases hassemble.symm.trans assemble_repeatedScripts
  have htweak := tweak?_repeatedTree
  rw [hdigest] at htweak
  obtain ⟨commitment, hcommitment, _, hopens⟩ := hmake htweak
  obtain ⟨hlisted, hblock⟩ := hopens [0x51]
  obtain ⟨block, hcontrol⟩ := hlisted.mpr List.mem_cons_self
  exact ⟨hne, hcount, commitment, block, hcommitment, hcontrol, hblock block hcontrol⟩

end Commitment

end Vtxo
