import Vtxo.Proofs.Script.Timelocks

/-!
# Keys and hash locks of leaves

A leaf knows whose signatures it checks and which digests it asks the preimages of. The keys are also read from its
script, where a key is what is pushed directly before a signature check. Both give the same keys, in the same order,
unless the leaf has operations that are taken as they are. No other part of a leaf begins with such a check, so nothing
is taken for a key where two parts meet.

  1. `Leaf.keys`, `Leaf.locks`: what a leaf checks, in script order.
  2. `ChecksKeys.append`: the keys of operations one after the other.
  3. `Leaf.checksKeys`, `Leaf.signingKeys_script`: the keys of a leaf are those read from its script.
-/

set_option autoImplicit false

namespace Vtxo

namespace Leaf

/-! ## What a leaf checks -/

mutual

/-- The keys of which a leaf checks signatures, in script order. -/
def keys : Leaf → List XOnlyKey
  | multisig owners => owners
  | hashLock _ => []
  | lockTime _ => []
  | verify inner => inner.keys
  | composite parts => partsKeys parts
  | generic ops => ScriptOp.checkedKeys ops
  | collaborative server condition => guardKeys condition ++ [server]
  | unilateral terms condition => guardKeys condition ++ terms.owners

def partsKeys : List Leaf → List XOnlyKey
  | [] => []
  | part :: rest => part.keys ++ partsKeys rest

def guardKeys : Option Leaf → List XOnlyKey
  | none => []
  | some inner => inner.keys

end

mutual

/-- The hash locks of a leaf, in script order. -/
def locks : Leaf → List HashLock
  | multisig _ => []
  | hashLock lock => [lock]
  | lockTime _ => []
  | verify inner => inner.locks
  | composite parts => partsLocks parts
  | generic _ => []
  | collaborative _ condition => guardLocks condition
  | unilateral _ condition => guardLocks condition

def partsLocks : List Leaf → List HashLock
  | [] => []
  | part :: rest => part.locks ++ partsLocks rest

def guardLocks : Option Leaf → List HashLock
  | none => []
  | some inner => inner.locks

end

mutual

/-- Whether no operations are taken as they are anywhere in a leaf. -/
def Plain : Leaf → Prop
  | multisig _ => True
  | hashLock _ => True
  | lockTime _ => True
  | verify inner => inner.Plain
  | composite parts => PlainParts parts
  | generic _ => False
  | collaborative _ condition => PlainGuard condition
  | unilateral _ condition => PlainGuard condition

def PlainParts : List Leaf → Prop
  | [] => True
  | part :: rest => part.Plain ∧ PlainParts rest

def PlainGuard : Option Leaf → Prop
  | none => True
  | some inner => inner.Plain

end

end Leaf

namespace ScriptOp

/-! ## Keys before checks -/

/-- The operations do not begin with a signature check. -/
def StartsUnchecked (ops : List ScriptOp) : Prop :=
  ∀ o, ops.head? = some o → checksSignature o = false

theorem checksSignature_asRead (o : ScriptOp) : checksSignature o.asRead = checksSignature o := by
  rw [checksSignature, isCode_asRead (by decide), isCode_asRead (by decide), checksSignature]

/-- The operations can be written, and they are read as checks of the keys. -/
structure ChecksKeys (ops : List ScriptOp) (keys : List XOnlyKey) : Prop where
  readable : ∀ o ∈ ops, o.Readable
  starts : StartsUnchecked ops
  checked : checkedKeys (ops.map asRead) = keys

theorem checkedKeys_append {others : List ScriptOp} (h : StartsUnchecked others) : (ops : List ScriptOp) →
    checkedKeys (ops ++ others) = checkedKeys ops ++ checkedKeys others
  | [] => rfl
  | [a] => by
    cases others with
    | nil => rfl
    | cons b rest =>
      rw [List.singleton_append, checkedKeys, h b rfl]
      rfl
  | a :: b :: rest => by
    have ih := checkedKeys_append h (b :: rest)
    rw [List.cons_append] at ih
    rw [List.cons_append, List.cons_append, checkedKeys, ih, checkedKeys, List.append_assoc]

theorem checkedKeys_eq_nil : (ops : List ScriptOp) → (∀ o ∈ ops, checksSignature o = false) → checkedKeys ops = []
  | [], _ => rfl
  | [_], _ => rfl
  | a :: b :: rest, h => by
    obtain ⟨_, hrest⟩ := List.forall_mem_cons.mp h
    rw [checkedKeys, hrest b List.mem_cons_self, checkedKeys_eq_nil (b :: rest) hrest]
    rfl

theorem StartsUnchecked.map_asRead {ops : List ScriptOp} (h : StartsUnchecked ops) :
    StartsUnchecked (ops.map asRead) := by
  intro _ hhead
  rw [List.head?_map] at hhead
  obtain ⟨o, ho, rfl⟩ := Option.map_eq_some_iff.mp hhead
  rw [checksSignature_asRead, h o ho]

theorem ChecksKeys.append {ops others : List ScriptOp} {keys keys' : List XOnlyKey} (h : ChecksKeys ops keys)
    (h' : ChecksKeys others keys') : ChecksKeys (ops ++ others) (keys ++ keys') where
  readable := List.forall_mem_append.mpr ⟨h.readable, h'.readable⟩
  starts := by
    intro o hhead
    cases ops with
    | nil => exact h'.starts o hhead
    | cons first rest => exact h.starts o hhead
  checked := by
    rw [List.map_append, checkedKeys_append h'.starts.map_asRead, h.checked, h'.checked]

/-- Operations that check no signature check no keys. -/
theorem checksKeys_nil {ops : List ScriptOp} (hreadable : ∀ o ∈ ops, o.Readable)
    (h : ∀ o ∈ ops, checksSignature o = false) : ChecksKeys ops [] where
  readable := hreadable
  starts := fun o hhead => h o (List.mem_of_mem_head? hhead)
  checked := by
    refine checkedKeys_eq_nil _ fun o hmem => ?_
    obtain ⟨written, hwritten, rfl⟩ := List.mem_map.mp hmem
    rw [checksSignature_asRead, h written hwritten]

theorem ChecksKeys.signingKeys_build {ops : List ScriptOp} {keys : List XOnlyKey} (h : ChecksKeys ops keys) :
    signingKeys (build ops) = .ok keys := by
  rw [signingKeys, read_build h.readable, Except.map, h.checked]

/-! ## Operations of the parts of leaves -/

/-- A key and its check. -/
theorem checksKeys_check (k : XOnlyKey) {code : UInt8} (hcode : Opcode.pushData4 < code)
    (hcheck : checksSignature (op code).asRead = true) : ChecksKeys [key k, op code] [k] where
  readable := List.forall_mem_cons.mpr ⟨trivial, List.forall_mem_cons.mpr ⟨hcode, List.forall_mem_nil _⟩⟩
  starts := by
    rintro o hhead
    cases hhead
    rfl
  checked := by
    have hkey : (key k).asRead.key? = some k := k.ofBytes?_bytes
    rw [List.map_cons, List.map_cons, checkedKeys, if_pos hcheck, hkey]
    rfl

theorem checksKeys_verifyOps (owners : List XOnlyKey) : ChecksKeys (verifyOps owners) owners := by
  induction owners with
  | nil => exact checksKeys_nil (List.forall_mem_nil _) (List.forall_mem_nil _)
  | cons owner rest ih => exact (checksKeys_check owner (by decide) (by decide)).append ih

theorem checksKeys_checkOps (owners : List XOnlyKey) : ChecksKeys (checkOps owners) owners := by
  fun_induction checkOps owners with
  | case1 => exact checksKeys_nil (List.forall_mem_nil _) (List.forall_mem_nil _)
  | case2 owner => exact checksKeys_check owner (by decide) (by decide)
  | case3 owner _ _ ih =>
    have hfirst : ChecksKeys [key owner, op Opcode.checkSigVerify] [owner] :=
      checksKeys_check owner (by decide) (by decide)
    exact hfirst.append ih

theorem checksKeys_hashLock (lock : HashLock) : ChecksKeys lock.ops [] := by
  refine checksKeys_nil (readable_hashLock lock) ?_
  cases lock <;> simp [HashLock.ops, checksSignature, isCode] <;> decide

theorem checksKeys_verify : ChecksKeys [op Opcode.verify] [] :=
  checksKeys_nil (List.forall_mem_singleton.mpr (by decide)) (List.forall_mem_singleton.mpr (by decide))

/-- A number, its check and its removal. -/
theorem checksKeys_time (word : UInt32) {code : UInt8} (hcode : Opcode.pushData4 < code)
    (hcheck : checksSignature (op code) = false) :
    ChecksKeys [int word.toNat, op code, op Opcode.drop] [] := by
  refine checksKeys_nil ?_ ?_
  · exact List.forall_mem_cons.mpr ⟨readable_word word,
      List.forall_mem_cons.mpr ⟨hcode, List.forall_mem_singleton.mpr (by decide)⟩⟩
  · exact List.forall_mem_cons.mpr ⟨rfl,
      List.forall_mem_cons.mpr ⟨hcheck, List.forall_mem_singleton.mpr (by decide)⟩⟩

end ScriptOp

namespace Leaf

open ScriptOp

mutual

/-- The keys of a leaf are those that its script is found to check. -/
theorem checksKeys : (leaf : Leaf) → leaf.Plain → ChecksKeys leaf.ops leaf.keys
  | multisig owners, _ => by
    rw [ops, keys]
    exact checksKeys_verifyOps owners
  | hashLock lock, _ => by
    rw [ops, keys]
    exact checksKeys_hashLock lock
  | lockTime time, _ => by
    rw [ops, keys]
    exact checksKeys_time time (by decide) (by decide)
  | verify inner, h => by
    rw [ops, keys, ← List.append_nil inner.keys]
    exact (checksKeys inner h).append checksKeys_verify
  | composite parts, h => by
    rw [ops, keys]
    exact checksKeys_parts parts h
  | generic _, h => False.elim h
  | collaborative server condition, h => by
    rw [ops, keys]
    exact (checksKeys_guard condition h).append (checksKeys_checkOps [server])
  | unilateral terms none, _ => by
    rw [ops, keys]
    exact (checksKeys_time terms.delay.sequence (by decide) (by decide)).append (checksKeys_checkOps terms.owners)
  | unilateral terms (some inner), h => by
    rw [ops, keys, guardKeys]
    have hguard := (checksKeys inner h).append checksKeys_verify
    rw [List.append_nil] at hguard
    exact hguard.append
      ((checksKeys_time terms.delay.sequence (by decide) (by decide)).append (checksKeys_checkOps terms.owners))

theorem checksKeys_parts : (parts : List Leaf) → PlainParts parts → ChecksKeys (partsOps parts) (partsKeys parts)
  | [], _ => checksKeys_nil (List.forall_mem_nil _) (List.forall_mem_nil _)
  | part :: rest, ⟨hpart, hrest⟩ => by
    rw [partsOps, partsKeys]
    exact (checksKeys part hpart).append (checksKeys_parts rest hrest)

theorem checksKeys_guard : (condition : Option Leaf) → PlainGuard condition →
    ChecksKeys (guardOps condition) (guardKeys condition)
  | none, _ => checksKeys_nil (List.forall_mem_nil _) (List.forall_mem_nil _)
  | some inner, h => by
    rw [guardOps, guardKeys]
    exact checksKeys inner h

end

/-! ## What is read from the script of a leaf -/

/-- From the script of a leaf its keys are read, each as often as it is checked. -/
theorem signingKeys_script {leaf : Leaf} (h : leaf.Plain) : signingKeys leaf.script = .ok leaf.keys :=
  (checksKeys leaf h).signingKeys_build

def onesKey : XOnlyKey := ⟨List.replicate 32 1, by decide +kernel⟩

def twosKey : XOnlyKey := ⟨List.replicate 32 2, by decide +kernel⟩

/-- An exit with a condition of several parts, of which the first asks for the preimage of a digest that is also a
key, and the last is a path with a condition of its own. -/
def nestedExit : Leaf :=
  unilateral (.pair (.ofBlocks 5) onesKey twosKey) (some (composite
    [verify (hashLock (.sha256 ⟨twosKey.bytes, twosKey.length_bytes⟩)), multisig [twosKey],
      collaborative onesKey (some (lockTime 500))]))

theorem signingKeys_script_nestedExit :
    nestedExit.Plain ∧ signingKeys nestedExit.script = .ok [twosKey, onesKey, onesKey, twosKey] := by
  have hplain : nestedExit.Plain := by
    simp [nestedExit, Plain, PlainGuard, PlainParts]
  exact ⟨hplain, signingKeys_script hplain⟩

-- Where operations are taken as they are, a key and its check can come from two parts.
example : signingKeys (composite [generic [.key onesKey], generic [.op Opcode.checkSig]]).script = .ok [onesKey] := by
  decide +kernel

end Leaf

end Vtxo
