import Vtxo.Bytes

/-!
# Variable-length sizes

Sizes and counts inside transactions take one, three, five or nine bytes: small ones stand for themselves, the
others follow a marker that says how many bytes they have. Each size has one accepted form, the shortest.

  1. `length_encode`: how long the form of a size is.
  2. `length_decode`: reading a size consumes bytes from the front.
-/

set_option autoImplicit false

namespace Vtxo.CompactSize

/-- Why no size can be read. -/
inductive Fault where
  | endOfInput
  | notShortest
deriving DecidableEq

/-- The shortest form of a size below 2^64. -/
def encode (n : Nat) : Bytes :=
  if n < 0xfd then [UInt8.ofNat n]
  else if n < 0x10000 then 0xfd :: Bytes.natLE 2 n
  else if n < 0x100000000 then 0xfe :: Bytes.natLE 4 n
  else 0xff :: Bytes.natLE 8 n

/-- How many bytes the shortest form of a size takes. -/
def length (n : Nat) : Nat :=
  if n < 0xfd then 1 else if n < 0x10000 then 3 else if n < 0x100000000 then 5 else 9

theorem length_encode (n : Nat) : (encode n).length = length n := by
  unfold encode length
  split
  · rfl
  · split
    · simp
    · split <;> simp

/-- A size of `width` bytes that must be at least `least`. -/
def wide (width least : Nat) (bytes : Bytes) : Except Fault (Nat × Bytes) :=
  match bytes.splitExact? width with
  | none => .error .endOfInput
  | some (field, rest) =>
    let n := field.toNatLE
    if n < least then .error .notShortest else .ok (n, rest)

/-- Read a size and return what follows it. -/
def decode : Bytes → Except Fault (Nat × Bytes)
  | [] => .error .endOfInput
  | marker :: rest =>
    if marker = 0xff then wide 8 0x100000000 rest
    else if marker = 0xfe then wide 4 0x10000 rest
    else if marker = 0xfd then wide 2 0xfd rest
    else .ok (marker.toNat, rest)

theorem length_wide {width least n : Nat} {bytes rest : Bytes} (h : wide width least bytes = .ok (n, rest)) :
    rest.length ≤ bytes.length := by
  unfold wide at h
  split at h
  · cases h
  · next field others hsplit =>
    obtain ⟨rfl, _⟩ := Bytes.splitExact?_eq_some.mp hsplit
    simp only at h
    split at h
    · cases h
    · cases h
      simp

/-- A size is read off the front. -/
theorem length_decode {bytes rest : Bytes} {n : Nat} (h : decode bytes = .ok (n, rest)) :
    rest.length ≤ bytes.length := by
  cases bytes with
  | nil => cases h
  | cons marker tail =>
    rw [List.length_cons]
    refine Nat.le_succ_of_le ?_
    rw [decode] at h
    split at h
    · exact length_wide h
    · split at h
      · exact length_wide h
      · split at h
        · exact length_wide h
        · cases h
          exact Nat.le_refl _

end Vtxo.CompactSize
