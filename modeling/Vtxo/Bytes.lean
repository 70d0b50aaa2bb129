/-!
# Byte strings

Everything that is hashed, signed or sent is a list of bytes. This file fixes that type, the byte strings
of a given length, and the two ways a natural number is written in a given number of bytes.

  1. `natLE_toNatLE`: what was read is written back.
  2. `splitExact?_eq_some`: cutting a prefix of exact length loses nothing.
-/

set_option autoImplicit false

namespace Vtxo

/-- A string of bytes. -/
abbrev Bytes := List UInt8

/-- A byte string of exactly `n` bytes. -/
abbrev Sized (n : Nat) := { bytes : Bytes // bytes.length = n }

/-- The byte string, if it has exactly `n` bytes. -/
def Sized.ofBytes? (n : Nat) (bytes : Bytes) : Option (Sized n) :=
  if h : bytes.length = n then some ⟨bytes, h⟩ else none

theorem Sized.ofBytes?_val {n : Nat} (b : Sized n) : Sized.ofBytes? n b.val = some b := by
  simp [Sized.ofBytes?, b.property]

namespace Bytes

/-! ## Numbers as bytes -/

/-- The low `width` bytes of `value`, least significant first. -/
def natLE : Nat → Nat → Bytes
  | 0, _ => []
  | width + 1, value => UInt8.ofNat value :: natLE width (value / 256)

/-- The low `width` bytes of `value`, most significant first. -/
def natBE (width value : Nat) : Bytes :=
  (natLE width value).reverse

/-- The number whose bytes are given least significant first. -/
def toNatLE : Bytes → Nat
  | [] => 0
  | b :: rest => b.toNat + 256 * toNatLE rest

/-- The number whose bytes are given most significant first. -/
def toNatBE (bytes : Bytes) : Nat :=
  bytes.foldl (fun value b => value * 256 + b.toNat) 0

@[simp] theorem length_natLE (width value : Nat) : (natLE width value).length = width := by
  induction width generalizing value with
  | zero => rfl
  | succ width ih => simp [natLE, ih]

@[simp] theorem length_natBE (width value : Nat) : (natBE width value).length = width := by
  simp [natBE]

/-- Writing what was read, in as many bytes, gives the bytes back. -/
theorem natLE_toNatLE (bytes : Bytes) : natLE bytes.length (toNatLE bytes) = bytes := by
  induction bytes with
  | nil => rfl
  | cons b rest ih =>
    have hb : b.toNat < 256 := b.toNat_lt
    have hdiv : (b.toNat + 256 * toNatLE rest) / 256 = toNatLE rest := by omega
    have hval : UInt8.ofNat (b.toNat + 256 * toNatLE rest) = b := by
      apply UInt8.toNat_inj.mp
      rw [UInt8.toNat_ofNat']
      omega
    rw [List.length_cons, natLE, toNatLE, hdiv, ih, hval]

/-! ## Cutting -/

/-- The first `n` bytes and the rest, if there are that many. -/
def splitExact? (n : Nat) (bytes : Bytes) : Option (Bytes × Bytes) :=
  if n ≤ bytes.length then some (bytes.take n, bytes.drop n) else none

theorem splitExact?_eq_some {n : Nat} {bytes front rest : Bytes} :
    splitExact? n bytes = some (front, rest) ↔ bytes = front ++ rest ∧ front.length = n := by
  unfold splitExact?
  constructor
  · intro h
    split at h
    · simp only [Option.some.injEq, Prod.mk.injEq] at h
      obtain ⟨rfl, rfl⟩ := h
      simp only [List.take_append_drop, List.length_take, true_and]
      omega
    · simp at h
  · rintro ⟨rfl, rfl⟩
    simp

/-- Two byte strings combined position by position with exclusive or. -/
def xor (a b : Bytes) : Bytes :=
  List.zipWith (· ^^^ ·) a b

end Bytes

end Vtxo
