import Vtxo.Bytes

/-!
# The curve secp256k1

Arithmetic on `y^2 = x^3 + 7` over the integers modulo the prime `field`, whose points form a group of prime
size `order`. Points are kept in Jacobian coordinates, where `(x, y, z)` stands for `(x / z^2, y / z^3)`
and `z = 0` for the neutral point, so that only one inversion is needed, at the end.

  1. `evenRoot?`: the second coordinate of a point, by one exponentiation, because `field` is 3 modulo 4.
  2. `Point.times`: multiples of a point.
-/

set_option autoImplicit false

namespace Vtxo.Secp256k1

/-- The prime the coordinates are taken modulo. -/
def field : Nat := 0xfffffffffffffffffffffffffffffffffffffffffffffffffffffffefffffc2f

/-- The number of points. -/
def order : Nat := 0xfffffffffffffffffffffffffffffffebaaedce6af48a03bbfd25e8cd0364141

/-! ## The field -/

/-- `base` to the power of the low `bits` bits of `exponent`, modulo `field`. -/
def powBits : Nat → Nat → Nat → Nat
  | 0, _, _ => 1
  | bits + 1, base, exponent =>
    let half := powBits bits base (exponent / 2)
    let square := half * half % field
    if exponent % 2 = 1 then square * base % field else square

/-- The inverse modulo `field`; zero has the inverse zero. -/
def inverse (a : Nat) : Nat :=
  powBits 256 a (field - 2)

/-- The difference modulo `field` of two numbers below it. -/
def sub (a b : Nat) : Nat :=
  (a + field - b) % field

/-- The right-hand side of the curve's equation. -/
def curveAt (x : Nat) : Nat :=
  (x * x % field * x + 7) % field

/-- The even root of the curve's equation at `x`, if `x` is the first coordinate of a point. -/
def evenRoot? (x : Nat) : Option Nat :=
  if x < field then
    let square := curveAt x
    let root := powBits 256 square ((field + 1) / 4)
    if root * root % field = square then
      some (if root % 2 = 0 then root else field - root)
    else none
  else none

/-! ## Points -/

/-- A point in Jacobian coordinates. -/
structure Point where
  x : Nat
  y : Nat
  z : Nat
deriving DecidableEq

namespace Point

/-- The neutral point. -/
def neutral : Point := ⟨1, 1, 0⟩

/-- The point with the given affine coordinates. -/
def affine (x y : Nat) : Point := ⟨x, y, 1⟩

/-- The affine coordinates of a point other than the neutral one. -/
def toAffine? (p : Point) : Option (Nat × Nat) :=
  if p.z = 0 then none
  else
    let i := inverse p.z
    let i2 := i * i % field
    some (p.x * i2 % field, p.y * (i2 * i % field) % field)

/-- A point added to itself. -/
def double (p : Point) : Point :=
  if p.z = 0 ∨ p.y = 0 then neutral
  else
    let yy := p.y * p.y % field
    let s := 4 * p.x * yy % field
    let m := 3 * p.x * p.x % field
    let x := sub (m * m % field) (2 * s % field)
    ⟨x, sub (m * sub s x % field) (8 * (yy * yy) % field), 2 * p.y * p.z % field⟩

/-- The sum of two points. -/
def add (p q : Point) : Point :=
  if p.z = 0 then q
  else if q.z = 0 then p
  else
    let pz2 := p.z * p.z % field
    let qz2 := q.z * q.z % field
    let u1 := p.x * qz2 % field
    let u2 := q.x * pz2 % field
    let s1 := p.y * (qz2 * q.z % field) % field
    let s2 := q.y * (pz2 * p.z % field) % field
    -- With the same first coordinate the points are equal or opposite, and the chord has no slope.
    if u1 = u2 then (if s1 = s2 then double p else neutral)
    else
      let h := sub u2 u1
      let r := sub s2 s1
      let h2 := h * h % field
      let h3 := h2 * h % field
      let v := u1 * h2 % field
      let x := sub (sub (r * r % field) h3) (2 * v % field)
      ⟨x, sub (r * sub v x % field) (s1 * h3 % field), h * (p.z * q.z % field) % field⟩

/-- The point added to itself as often as the low `bits` bits of `factor` say. -/
def timesBits : Nat → Nat → Point → Point
  | 0, _, _ => neutral
  | bits + 1, factor, p =>
    let half := double (timesBits bits (factor / 2) p)
    if factor % 2 = 1 then add half p else half

/-- The multiple of a point by a number below 2^256. -/
def times (factor : Nat) (p : Point) : Point :=
  timesBits 256 factor p

end Point

/-- The agreed generator of the group. -/
def generator : Point :=
  .affine 0x79be667ef9dcbbac55a06295ce870b07029bfcdb2dce28d959f2815b16f81798
    0x483ada7726a3c4655da4fbfc0e1108a8fd17b448a68554199c47d08ffb10d4b8

/-- Whether a byte string is the first coordinate of a point, in 32 bytes. -/
def isCoordinate (bytes : Bytes) : Bool :=
  bytes.length == 32 && (evenRoot? bytes.toNatBE).isSome

end Vtxo.Secp256k1
