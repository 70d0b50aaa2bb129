import Vtxo.Curve.Key
import Vtxo.Hash.Tagged

/-!
# Schnorr signatures

Signatures of 32-byte messages under x-only keys, with 32 zero bytes as auxiliary randomness when signing, and
the tweak that turns an internal key into the key of a taproot output.
-/

set_option autoImplicit false

namespace Vtxo

/-- The first coordinate of a nonce point and a number modulo the group's order. -/
abbrev Signature := Sized 64

namespace Schnorr

open Secp256k1

/-- The number that binds nonce, key and message together. -/
def challenge (nonce key message : Bytes) : Nat :=
  (Tagged.hashIn Tagged.challengeDomain (nonce ++ key ++ message)).val.toNatBE % order

/-- Whether a signature is one of `message` under `key`. -/
def verify (key : XOnlyKey) (message : Sized 32) (signature : Signature) : Bool :=
  let nonce := signature.val.take 32
  let r := Bytes.toNatBE nonce
  let s := Bytes.toNatBE (signature.val.drop 32)
  match key.point? with
  | none => false
  | some point =>
    if r ≥ field ∨ s ≥ order then false
    else
      let e := challenge nonce key.bytes message.val
      -- The multiple by `order - e` is the opposite of the one by `e`.
      let sum := (Point.times s generator).add (Point.times (order - e) point)
      match sum.toAffine? with
      | none => false
      | some (x, y) => y % 2 = 0 && x = r

/-- The secret number behind an x-only key, and that key: the number is negated if its point is odd. -/
def keyPair? (secret : Sized 32) : Option (Nat × XOnlyKey) := do
  let d := secret.val.toNatBE
  if d = 0 ∨ d ≥ order then none
  let (x, y) ← (Point.times d generator).toAffine?
  let key ← XOnlyKey.ofNat? x
  return (if y % 2 = 0 then d else order - d, key)

/-- The nonce for a message: derived from the secret, so that it needs no randomness. -/
def nonceFor (d : Nat) (key : XOnlyKey) (message : Sized 32) : Nat :=
  let aux := (Tagged.hashIn Tagged.auxDomain (List.replicate 32 0)).val
  let masked := Bytes.xor (Bytes.natBE 32 d) aux
  (Tagged.hashIn Tagged.nonceDomain (masked ++ key.bytes ++ message.val)).val.toNatBE % order

/-- Sign a message with a secret; `none` if the bytes are no secret. -/
def sign? (secret : Sized 32) (message : Sized 32) : Option (XOnlyKey × Signature) := do
  let (d, key) ← keyPair? secret
  let k := nonceFor d key message
  if k = 0 then none
  let (x, y) ← (Point.times k generator).toAffine?
  let nonce := Bytes.natBE 32 x
  let e := challenge nonce key.bytes message.val
  -- Only the first coordinate of the nonce point is sent, so it must be the point with the even second one.
  let k := if y % 2 = 0 then k else order - k
  return (key, ⟨nonce ++ Bytes.natBE 32 ((k + e * d) % order), by simp [nonce]⟩)

end Schnorr

/-- The key `internal` moved by `tweak` times the generator, with the parity of its second coordinate; `none` if
the tweak is out of range or leads to the neutral point. -/
def XOnlyKey.tweak? (internal : XOnlyKey) (tweak : Sized 32) : Option (XOnlyKey × Bool) := do
  let t := tweak.val.toNatBE
  if t ≥ Secp256k1.order then none
  let point ← internal.point?
  let (x, y) ← (point.add (Secp256k1.Point.times t Secp256k1.generator)).toAffine?
  let key ← XOnlyKey.ofNat? x
  return (key, y % 2 == 1)

end Vtxo
