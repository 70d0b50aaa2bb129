import Vtxo.Proofs.Psbt.Independence
import Vtxo.Proofs.Settlement.Attach
import Vtxo.Proofs.Spend.SendRun
import Vtxo.Settlement.Cosign

/-!
# What co-signing answers cover

An answer of a cosigner covers a tree if it has an item for every node and for no other transaction. What is checked is
only that there are as many items as nodes. So an answer that is accepted covers the tree if all its items are for nodes,
and else it has an item for another transaction and leaves out a node. Where two nodes have the same name, no answer is
accepted that covers the tree.

  1. `covers_iff_onlyNodes`: answers of the right size that cover the tree.
  2. `length_eq_count_iff`: answers that cover the tree and have the right size.
  3. `collected_covers_iff`: both for nonces and for partial signatures; `not_forall_collected_covers`: an answer for
     another transaction.
-/

set_option autoImplicit false

namespace Vtxo

namespace SortedMap

variable {κ ν : Type} [ByteKey κ]

/-- The keys of all entries, in their order. -/
def keys (map : SortedMap κ ν) : List κ := map.entries.map Prod.fst

theorem nodup_keys (map : SortedMap κ ν) : map.keys.Nodup :=
  List.pairwise_map.mpr (map.sorted.imp ne_of_keyBefore)

theorem length_keys (map : SortedMap κ ν) : map.keys.length = map.entries.length :=
  List.length_map _

theorem isSome_find?_iff [DecidableEq κ] {map : SortedMap κ ν} {key : κ} :
    (map.find? key).isSome ↔ key ∈ map.keys := by
  rw [find?, Option.isSome_map, List.find?_isSome, keys, List.mem_map]
  simp only [beq_iff_eq]

end SortedMap

namespace Settlement

variable {α : Type} {tree : Tree} {items : PerTransaction α}

/-- The answer has an item for every node of the tree and for no other transaction. -/
def Covers (tree : Tree) (items : PerTransaction α) : Prop :=
  ∀ txid, (items.find? txid).isSome ↔ txid ∈ tree.names

/-- The answer has items for nodes of the tree only. -/
def OnlyNodes (tree : Tree) (items : PerTransaction α) : Prop :=
  ∀ txid, (items.find? txid).isSome → txid ∈ tree.names

theorem onlyNodes_iff : OnlyNodes tree items ↔ items.keys ⊆ tree.names := by
  unfold OnlyNodes
  simp only [SortedMap.isSome_find?_iff]
  rfl

theorem covers_iff_mem : Covers tree items ↔ ∀ txid, txid ∈ items.keys ↔ txid ∈ tree.names := by
  unfold Covers
  simp only [SortedMap.isSome_find?_iff]

/-! ## Answers of the right size -/

/-- Items for nodes only, as many as there are nodes, are one for each node. -/
theorem perm_of_onlyNodes (h : OnlyNodes tree items) (hlength : items.entries.length = tree.count) :
    items.keys.Perm tree.names := by
  have hsubperm : items.keys.Subperm tree.names := items.nodup_keys.subperm (onlyNodes_iff.mp h)
  refine hsubperm.perm_of_length_le ?_
  rw [Tree.length_names, items.length_keys, hlength]

theorem covers_iff_onlyNodes (hlength : items.entries.length = tree.count) :
    Covers tree items ↔ OnlyNodes tree items := by
  refine ⟨fun h txid => (h txid).mp, fun h => covers_iff_mem.mpr fun txid => ?_⟩
  exact (perm_of_onlyNodes h hlength).mem_iff

/-- An answer that covers the tree has one item for each name, so its size is right exactly if no name is repeated. -/
theorem length_eq_count_iff (h : Covers tree items) : items.entries.length = tree.count ↔ tree.names.Nodup := by
  constructor
  · intro hlength
    have hperm := perm_of_onlyNodes ((covers_iff_onlyNodes hlength).mp h) hlength
    exact hperm.nodup_iff.mp items.nodup_keys
  · intro hnodup
    have hperm : items.keys.Perm tree.names :=
      (List.perm_ext_iff_of_nodup items.nodup_keys hnodup).mpr (covers_iff_mem.mp h)
    rw [← items.length_keys, hperm.length_eq, Tree.length_names]

theorem collect_not_cancelled {fault : Nat → Nat → SigningFault} :
    collect tree false (.ok items) fault = .ok items ↔ items.entries.length = tree.count := by
  refine ⟨collect_eq_ok, fun hlength => ?_⟩
  rw [collect, if_neg Bool.false_ne_true]
  exact if_pos hlength

/-! ## Nonces and partial signatures -/

theorem collectNonces_eq {key : PublicKey} {cancelled : Bool} {answer : Except Error Nonces}
    (hregistered : checkCosigner key tree.nodes = .ok ()) :
    collectNonces tree key cancelled answer = collect tree cancelled answer .nonceCount := by
  rw [collectNonces, hregistered]
  rfl

theorem collectPartials_eq {nonces : Nonces} {cancelled : Bool} {answer : Except Error Partials}
    (hnonces : ∀ node ∈ tree.nodes, (nonces.find? node.txid).isSome) :
    collectPartials tree nonces cancelled answer = collect tree cancelled answer .partialCount := by
  have hnone : (tree.nodes.find? fun node => (nonces.find? node.txid).isNone) = none := by
    refine List.find?_eq_none.mpr fun node hmem => ?_
    simp [Option.isSome_iff_ne_none.mp (hnonces node hmem)]
  rw [collectPartials, hnone]

theorem length_of_collectNonces {key : PublicKey} {cancelled : Bool} {answer : Except Error Nonces} {items : Nonces}
    (h : collectNonces tree key cancelled answer = .ok items) : items.entries.length = tree.count := by
  obtain ⟨_, _, hcollect⟩ := bind_eq_ok.mp h
  exact collect_eq_ok hcollect

theorem length_of_collectPartials {nonces : Nonces} {cancelled : Bool} {answer : Except Error Partials}
    {items : Partials} (h : collectPartials tree nonces cancelled answer = .ok items) :
    items.entries.length = tree.count := by
  unfold collectPartials at h
  split at h
  · cases h
  · exact collect_eq_ok h

/-- What is accepted covers the tree exactly if it has items for nodes only, whoever answers and whatever the tree is. An
answer that covers the tree is accepted exactly if no two nodes have the same name. -/
theorem collected_covers_iff (tree : Tree) (key : PublicKey) (aggregated : Nonces) :
    (∀ cancelled answer items, collectNonces tree key cancelled answer = .ok items →
      (Covers tree items ↔ OnlyNodes tree items)) ∧
    (∀ cancelled answer items, collectPartials tree aggregated cancelled answer = .ok items →
      (Covers tree items ↔ OnlyNodes tree items)) ∧
    (checkCosigner key tree.nodes = .ok () → ∀ items, Covers tree items →
      (collectNonces tree key false (.ok items) = .ok items ↔ tree.names.Nodup)) ∧
    ((∀ node ∈ tree.nodes, (aggregated.find? node.txid).isSome) → ∀ items, Covers tree items →
      (collectPartials tree aggregated false (.ok items) = .ok items ↔ tree.names.Nodup)) := by
  refine ⟨fun cancelled answer items h => ?_, fun cancelled answer items h => ?_, fun hregistered items hcovers => ?_,
    fun hnonces items hcovers => ?_⟩
  · exact covers_iff_onlyNodes (length_of_collectNonces h)
  · exact covers_iff_onlyNodes (length_of_collectPartials h)
  · rw [collectNonces_eq hregistered, collect_not_cancelled, length_eq_count_iff hcovers]
  · rw [collectPartials_eq hnonces, collect_not_cancelled, length_eq_count_iff hcovers]

/-! ## An answer for another transaction -/

theorem cosignerKeys_node {root : Psbt} {children : List (UInt32 × Tree)} {maps : InputMaps}
    (h : root.inputs = [maps]) : (Tree.node root children).cosignerKeys = maps.cosigners.map (·.map (·.2)) := by
  rw [Tree.cosignerKeys, Tree.root, h]
  rfl

/-- A key that co-signs. -/
def treeKey : PublicKey := ⟨false, unspendableKey⟩

/-- The input of a transaction that the key co-signs. -/
def cosignedInput : InputMaps := InputMaps.empty.addCosigner 0 treeKey

theorem length_cosignedInput : [cosignedInput].length = (Spend.moving 0).inputs.length := rfl

/-- A tree of one transaction. -/
def singleTree : Tree := .node ⟨Spend.moving 0, [cosignedInput], length_cosignedInput⟩ []

def nodeName : Txid := ⟨Spend.digestOf Spend.firstName⟩

def foreignName : Txid := ⟨Spend.digestOf Spend.secondName⟩

theorem names_singleTree : singleTree.names = [nodeName] :=
  congrArg (fun name => [name]) Spend.txid_moving.1

theorem foreignName_ne : foreignName ≠ nodeName := by
  decide

theorem checkCosigner_singleTree : checkCosigner treeKey singleTree.nodes = .ok () := by
  have hnone : ∀ entry ∈ InputMaps.empty.records.entries, RecordName.cosigner.owns entry.1 = false :=
    List.forall_mem_nil _
  obtain ⟨keys, hkeys, _, hmem⟩ :=
    InputMaps.cosigners_of_holds (InputMaps.holdsCosigners_performAll hnone [.cosigner 0 treeKey])
  have hkey : (keys.map (·.2)).contains treeKey = true :=
    List.contains_iff_mem.mpr (List.mem_map_of_mem ((hmem 0 treeKey).mpr rfl))
  have hinput : cosignedInput.cosigners = .ok keys := hkeys
  have hnode : singleTree.cosignerKeys = .ok (keys.map (·.2)) := by
    rw [singleTree, cosignerKeys_node rfl, hinput]
    rfl
  have hnodes : singleTree.nodes = [singleTree] := by
    rw [singleTree, Tree.nodes, Tree.nodesAll]
  rw [hnodes, checkCosigner, hnode]
  simp only [bind, Except.bind, hkey, checkCosigner]
  rfl

/-- An answer of one item. -/
def answerFor (name : Txid) (item : α) : PerTransaction α := SortedMap.empty.insert name item

theorem find?_answerFor (name other : Txid) (item : α) :
    (answerFor name item).find? other = if name = other then some item else none :=
  SortedMap.find?_insert _ _ _ _

theorem covers_singleTree_iff (name : Txid) (item : α) : Covers singleTree (answerFor name item) ↔ name = nodeName := by
  unfold Covers
  rw [names_singleTree]
  simp only [find?_answerFor, List.mem_singleton]
  constructor
  · intro h
    simpa using h name
  · rintro rfl txid
    split
    · next heq => simp [heq]
    · next hne => simp [Ne.symm hne]

def someNonce : Sized 66 := ⟨List.replicate 66 2, List.length_replicate⟩

def somePartial : Sized 32 := ⟨List.replicate 32 3, List.length_replicate⟩

/-- One nonce is accepted for one transaction, under any name. -/
theorem collectNonces_singleTree (name : Txid) :
    collectNonces singleTree treeKey false (.ok (answerFor name someNonce)) = .ok (answerFor name someNonce) := by
  rw [collectNonces_eq checkCosigner_singleTree]
  exact collect_not_cancelled.mpr rfl

theorem hasNonce_singleTree : ∀ node ∈ singleTree.nodes, ((answerFor nodeName someNonce).find? node.txid).isSome := by
  refine List.forall_mem_singleton.mpr ?_
  have hname : singleTree.txid = nodeName := Spend.txid_moving.1
  show ((answerFor nodeName someNonce).find? singleTree.txid).isSome
  rw [hname, find?_answerFor, if_pos rfl]
  rfl

theorem collectPartials_singleTree (name : Txid) :
    collectPartials singleTree (answerFor nodeName someNonce) false (.ok (answerFor name somePartial)) =
      .ok (answerFor name somePartial) := by
  rw [collectPartials_eq hasNonce_singleTree]
  exact collect_not_cancelled.mpr rfl

theorem collected_covers_iff_singleTree :
    Covers singleTree (answerFor nodeName someNonce) ∧ Covers singleTree (answerFor nodeName somePartial) ∧
      ¬ OnlyNodes singleTree (answerFor foreignName someNonce) ∧
      ¬ OnlyNodes singleTree (answerFor foreignName somePartial) ∧ singleTree.names.Nodup := by
  obtain ⟨hnonces, hpartials, hnodup, _⟩ := collected_covers_iff singleTree treeKey (answerFor nodeName someNonce)
  have hcovers : Covers singleTree (answerFor nodeName someNonce) := (covers_singleTree_iff _ _).mpr rfl
  refine ⟨hcovers, (covers_singleTree_iff _ _).mpr rfl, ?_, ?_, ?_⟩
  · rw [← hnonces _ _ _ (collectNonces_singleTree foreignName), covers_singleTree_iff]
    exact foreignName_ne
  · rw [← hpartials _ _ _ (collectPartials_singleTree foreignName), covers_singleTree_iff]
    exact foreignName_ne
  · exact (hnodup checkCosigner_singleTree _ hcovers).mp (collectNonces_singleTree nodeName)

/-- Nonces and partial signatures are accepted that do not cover the tree. -/
theorem not_forall_collected_covers :
    (¬ ∀ (tree : Tree) (key : PublicKey) (cancelled : Bool) (answer : Except Error Nonces) (items : Nonces),
      collectNonces tree key cancelled answer = .ok items → Covers tree items) ∧
    ¬ ∀ (tree : Tree) (aggregated : Nonces) (cancelled : Bool) (answer : Except Error Partials) (items : Partials),
      collectPartials tree aggregated cancelled answer = .ok items → Covers tree items := by
  constructor
  · intro h
    have hcovers := h _ _ _ _ _ (collectNonces_singleTree foreignName)
    exact foreignName_ne ((covers_singleTree_iff _ _).mp hcovers)
  · intro h
    have hcovers := h _ _ _ _ _ (collectPartials_singleTree foreignName)
    exact foreignName_ne ((covers_singleTree_iff _ _).mp hcovers)

end Settlement

end Vtxo
