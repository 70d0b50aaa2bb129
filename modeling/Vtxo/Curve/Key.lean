import Vtxo.Curve.Secp256k1
import Vtxo.Hex

/-!
# Public keys

An x-only key is the first coordinate of a curve point; the point meant is the one with the even second
coordinate. A full key adds the parity of the second coordinate. A byte string that is no coordinate is
refused, never reduced.

  1. `XOnlyKey.ofBytes?_bytes`: a key is read back from its bytes.
  2. `PublicKey.ofBytes?_compressed`: a full key is read back from its 33-byte form.
-/

set_option autoImplicit false

namespace Vtxo

/-- The first coordinate of a curve point. -/
structure XOnlyKey where
  bytes : Bytes
  valid : Secp256k1.isCoordinate bytes = true
deriving DecidableEq

namespace XOnlyKey

/-- The key with the given bytes. -/
def ofBytes? (bytes : Bytes) : Option XOnlyKey :=
  if h : Secp256k1.isCoordinate bytes = true then some ⟨bytes, h⟩ else none

/-- The key with the given digits, in either case. -/
def ofHex? (text : String) : Option XOnlyKey :=
  (Hex.decode text).toOption.bind ofBytes?

/-- The key of a coordinate. -/
def ofNat? (x : Nat) : Option XOnlyKey :=
  ofBytes? (Bytes.natBE 32 x)

def hex (key : XOnlyKey) : String :=
  Hex.encode key.bytes

theorem ofBytes?_bytes (key : XOnlyKey) : ofBytes? key.bytes = some key := by
  simp [ofBytes?, key.valid]

theorem ofBytes?_eq_some {bytes : Bytes} {key : XOnlyKey} :
    ofBytes? bytes = some key ↔ key.bytes = bytes := by
  constructor
  · intro h
    unfold ofBytes? at h
    split at h
    · rw [← Option.some.inj h]
    · simp at h
  · rintro rfl
    exact ofBytes?_bytes key

theorem length_bytes (key : XOnlyKey) : key.bytes.length = 32 := by
  have h := key.valid
  simp only [Secp256k1.isCoordinate, Bool.and_eq_true, beq_iff_eq] at h
  exact h.1

theorem bytes_inj {a b : XOnlyKey} (h : a.bytes = b.bytes) : a = b := by
  cases a
  cases b
  congr

/-- The curve point with the even second coordinate. -/
def point? (key : XOnlyKey) : Option Secp256k1.Point :=
  let x := key.bytes.toNatBE
  (Secp256k1.evenRoot? x).map (.affine x)

end XOnlyKey

/-- A curve point, by its first coordinate and the parity of the second. -/
structure PublicKey where
  odd : Bool
  x : XOnlyKey
deriving DecidableEq

namespace PublicKey

/-- The 33-byte form: a parity byte and the first coordinate. -/
def bytes (key : PublicKey) : Bytes :=
  (if key.odd then 3 else 2) :: key.x.bytes

def hex (key : PublicKey) : String :=
  Hex.encode key.bytes

/-- Read both coordinates of a point. -/
def ofCoordinates? (coordinates : Bytes) : Option PublicKey := do
  let (xs, ys) ← Bytes.splitExact? 32 coordinates
  let x ← XOnlyKey.ofBytes? xs
  let y := Bytes.toNatBE ys
  let even ← Secp256k1.evenRoot? (Bytes.toNatBE xs)
  if ys.length ≠ 32 then none
  else if y = even then some ⟨false, x⟩
  else if y = Secp256k1.field - even then some ⟨true, x⟩
  else none

/-- Read a key in 33-byte form, or in a 65-byte form with both coordinates; the hybrid 65-byte form also
states the parity, which must be right. -/
def ofBytes? : Bytes → Option PublicKey
  | 2 :: xs => (XOnlyKey.ofBytes? xs).map (⟨false, ·⟩)
  | 3 :: xs => (XOnlyKey.ofBytes? xs).map (⟨true, ·⟩)
  | 4 :: coordinates => ofCoordinates? coordinates
  | 6 :: coordinates => (ofCoordinates? coordinates).filter (!·.odd)
  | 7 :: coordinates => (ofCoordinates? coordinates).filter (·.odd)
  | _ => none

/-- The key with the given digits in 33-byte form. -/
def ofHex? (text : String) : Option PublicKey :=
  (Hex.decode text).toOption.bind fun bytes => if bytes.length = 33 then ofBytes? bytes else none

theorem ofBytes?_compressed (key : PublicKey) : ofBytes? key.bytes = some key := by
  obtain ⟨odd, x⟩ := key
  cases odd <;> simp [bytes, ofBytes?, XOnlyKey.ofBytes?_bytes]

end PublicKey

end Vtxo
