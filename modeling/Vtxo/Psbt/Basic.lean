import Vtxo.Psbt.SortedMap
import Vtxo.Taproot.Commitment
import Vtxo.Transaction.Sighash

/-!
# Partially signed transactions

A transaction that still has to be signed travels with one set of maps per input: what the input spends, the scripts
it may be spent through, the signatures made so far, and records of other kinds that are kept as they are.

  1. `InputMaps.empty`: an input about which nothing is known.
  2. `Psbt.modifyInput`: changing the maps of one input leaves the transaction and the other inputs alone.
-/

set_option autoImplicit false

namespace Vtxo

/-! ## Keys -/

/-- A record of another kind: its type byte and what follows it. -/
structure RecordKey where
  type : UInt8
  name : Bytes
deriving DecidableEq

instance : ByteKey RecordKey where
  keyBytes k := k.type :: k.name
  keyBytes_inj a b h := by
    obtain ⟨htype, hname⟩ := List.cons.inj h
    cases a
    cases b
    simp only at htype hname
    rw [htype, hname]

/-- Who signed, and for which leaf. -/
structure SignerKey where
  key : XOnlyKey
  leaf : Sized 32
deriving DecidableEq

instance : ByteKey SignerKey where
  keyBytes k := k.key.bytes ++ k.leaf.val
  keyBytes_inj a b h := by
    obtain ⟨hkey, hleaf⟩ := List.append_inj h (by rw [a.key.length_bytes, b.key.length_bytes])
    cases a
    cases b
    congr
    · exact XOnlyKey.bytes_inj hkey
    · exact Subtype.ext hleaf

/-- Digests one after the other are told apart by their bytes. -/
theorem flatMap_val_inj {n : Nat} (hn : 0 < n) {a b : List (Sized n)}
    (h : a.flatMap Subtype.val = b.flatMap Subtype.val) : a = b := by
  induction a generalizing b with
  | nil =>
    cases b with
    | nil => rfl
    | cons d rest =>
      have := congrArg List.length h
      simp only [List.flatMap_nil, List.length_nil, List.flatMap_cons, List.length_append,
        d.property] at this
      omega
  | cons d rest ih =>
    cases b with
    | nil =>
      have := congrArg List.length h
      simp only [List.flatMap_nil, List.length_nil, List.flatMap_cons, List.length_append,
        d.property] at this
      omega
    | cons d' rest' =>
      simp only [List.flatMap_cons] at h
      obtain ⟨hd, hrest⟩ := List.append_inj h (by rw [d.property, d'.property])
      rw [Subtype.ext hd, ih hrest]

theorem ControlBlock.bytes_inj {a b : ControlBlock} (h : a.bytes = b.bytes) : a = b := by
  obtain ⟨av, ao, ai, ap⟩ := a
  obtain ⟨bv, bo, bi, bp⟩ := b
  simp only [ControlBlock.bytes, List.cons.injEq] at h
  obtain ⟨hfirst, hrest⟩ := h
  obtain ⟨hversion, hodd⟩ := versionByte_inj hfirst
  obtain ⟨hint, hpath⟩ := List.append_inj hrest (by rw [ai.length_bytes, bi.length_bytes])
  rw [hversion, hodd, XOnlyKey.bytes_inj hint, flatMap_val_inj (by decide) hpath]

/-- The version that every leaf is written for comes before all others. -/
instance : ByteKey ControlBlock where
  keyBytes block := (if block.version = .tapscript then 0 else 1) :: block.bytes
  keyBytes_inj _ _ h := ControlBlock.bytes_inj (List.cons.inj h).2

/-! ## Inputs -/

/-- What is known about one input. -/
structure InputMaps where
  /-- The output that the input spends. -/
  utxo : Option TxOut
  /-- The scripts it may be spent through, with their versions. -/
  leafScripts : SortedMap ControlBlock (Bytes × LeafVersion)
  signatures : SortedMap SignerKey TapSignature
  /-- Records of other kinds. -/
  records : SortedMap RecordKey Bytes
deriving DecidableEq

namespace InputMaps

def empty : InputMaps := ⟨none, .empty, .empty, .empty⟩

/-- Record a script under its control block. -/
def addLeafScript (maps : InputMaps) (block : ControlBlock) (script : Bytes) : InputMaps :=
  { maps with leafScripts := maps.leafScripts.insert block (script, .tapscript) }

/-- Record a signature under its key and leaf. -/
def addSignature (maps : InputMaps) (key : XOnlyKey) (leaf : Sized 32) (signature : TapSignature) :
    InputMaps :=
  { maps with signatures := maps.signatures.insert ⟨key, leaf⟩ signature }

end InputMaps

/-! ## Transactions -/

/-- A transaction without input scripts, and the maps of its inputs. -/
structure Psbt where
  tx : Transaction
  inputs : List InputMaps
  sized : inputs.length = tx.inputs.length
deriving DecidableEq

namespace Psbt

/-- Nothing is known yet about the inputs of `tx`, whose scripts must be empty. -/
def ofTransaction (tx : Transaction) : Except Error Psbt :=
  if tx.inputs.all fun input => input.script.isEmpty then
    .ok ⟨tx, List.replicate tx.inputs.length .empty, by simp⟩
  else .error .inputScripts

def txid (psbt : Psbt) : Txid := psbt.tx.txid

/-- The maps of one input changed. -/
def modifyInput (psbt : Psbt) (index : Nat) (change : InputMaps → InputMaps) : Psbt :=
  ⟨psbt.tx, psbt.inputs.modify index change, by simp [psbt.sized]⟩

theorem inputs_modifyInput_of_ne (psbt : Psbt) (change : InputMaps → InputMaps) {index other : Nat}
    (h : index ≠ other) : (psbt.modifyInput index change).inputs[other]? = psbt.inputs[other]? := by
  simp [modifyInput, h]

end Psbt

end Vtxo
