import Vtxo.Hex
import Vtxo.Text.Decimal

/-!
# Transaction names and outpoints

A transaction is named by a digest, shown with its bytes reversed. An outpoint names one output of a
transaction by that output's position.

  1. `OutPoint.bytes_inj`: the signed form tells outpoints apart.
-/

set_option autoImplicit false

namespace Vtxo

/-- The name of a transaction. -/
structure Txid where
  digest : Sized 32
deriving DecidableEq

namespace Txid

/-- The digits of the reversed digest. -/
def render (txid : Txid) : String :=
  Hex.encode txid.digest.val.reverse

/-- The name with the given digits. -/
def ofHex? (text : String) : Option Txid :=
  (Hex.decodeSized? 32 text).map fun digest =>
    ⟨⟨digest.val.reverse, by simp [digest.property]⟩⟩

/-- The name of no transaction. -/
def zero : Txid := ⟨⟨List.replicate 32 0, rfl⟩⟩

end Txid

/-- One output of a transaction. -/
structure OutPoint where
  txid : Txid
  vout : UInt32
deriving DecidableEq

namespace OutPoint

/-- The name of the transaction, a colon, and the position. -/
def render (outpoint : OutPoint) : String :=
  outpoint.txid.render ++ ":" ++ toString outpoint.vout.toNat

/-- Whether a position is written without a sign and without leading zeros. -/
def isCanonical (position : String) : Bool :=
  match position.toList with
  | '0' :: _ :: _ | '+' :: _ => false
  | _ => true

/-- The outpoint that a text names. -/
def ofText? (text : String) : Option OutPoint :=
  match text.splitOn ":" with
  | [name, position] => do
    let txid ← Txid.ofHex? name
    let vout ← Decimal.unsigned? 4294967295 position
    if isCanonical position then some ⟨txid, UInt32.ofNat vout⟩ else none
  | _ => none

/-- The outpoint as it is hashed and signed: the digest, then the position. -/
def bytes (outpoint : OutPoint) : Bytes :=
  outpoint.txid.digest.val ++ Bytes.natLE 4 outpoint.vout.toNat

theorem bytes_inj {a b : OutPoint} (h : a.bytes = b.bytes) : a = b := by
  obtain ⟨⟨ad, ha⟩, av⟩ := a
  obtain ⟨⟨bd, hb⟩, bv⟩ := b
  obtain ⟨hd, hv⟩ := List.append_inj h (by rw [ha, hb])
  have hvout : av.toNat = bv.toNat := by
    have hbytes := congrArg Bytes.toNatLE hv
    have ha := av.toNat_lt
    have hb := bv.toNat_lt
    simp only [Bytes.natLE, Bytes.toNatLE, UInt8.toNat_ofNat'] at hbytes
    omega
  have : av = bv := UInt32.toNat_inj.mp hvout
  simp only at hd
  subst hd this
  rfl

end OutPoint

end Vtxo
