import Mathlib.Algebra.Ring.Nat
import Vtxo.Bytes

/-!
# Numbers as bytes, written and read

Both ways of writing a number keep what fits the width, and bytes stand for a number that does.

  1. `toNatLE_natLE`, `toNatBE_natBE`: reading what was written.
  2. `toNatLE_lt`, `toNatBE_lt`: how large a number bytes stand for.
  3. `natBE_toNatBE`: writing what was read.
-/

set_option autoImplicit false

namespace Vtxo

theorem Sized.val_of_ofBytes? {n : Nat} {bytes : Bytes} {b : Sized n} (h : Sized.ofBytes? n bytes = some b) :
    b.val = bytes := by
  rw [Sized.ofBytes?] at h
  split at h
  · cases h
    rfl
  · cases h

namespace Bytes

/-- Reading what was written gives the value modulo the width. -/
theorem toNatLE_natLE (width value : Nat) : toNatLE (natLE width value) = value % 256 ^ width := by
  induction width generalizing value with
  | zero => simp [natLE, toNatLE, Nat.mod_one]
  | succ width ih =>
    have hb : (UInt8.ofNat value).toNat = value % 256 := by simp
    rw [natLE, toNatLE, ih, hb, Nat.pow_succ, Nat.mul_comm (256 ^ width) 256, Nat.mod_mul]

theorem toNatLE_lt (bytes : Bytes) : toNatLE bytes < 256 ^ bytes.length := by
  induction bytes with
  | nil => simp [toNatLE]
  | cons b rest ih =>
    have hb : b.toNat < 256 := b.toNat_lt
    rw [toNatLE, List.length_cons, Nat.pow_succ]
    omega

theorem toNatLE_append (low high : Bytes) :
    toNatLE (low ++ high) = toNatLE low + 256 ^ low.length * toNatLE high := by
  induction low with
  | nil => simp [toNatLE]
  | cons b rest ih =>
    rw [List.cons_append, toNatLE, toNatLE, ih, List.length_cons, Nat.pow_succ, Nat.mul_add, Nat.mul_comm _ 256,
      Nat.mul_assoc, Nat.add_assoc]

/-- The most significant byte comes last. -/
theorem natLE_succ_eq_append (width value : Nat) :
    natLE (width + 1) value = natLE width value ++ [UInt8.ofNat (value / 256 ^ width)] := by
  induction width generalizing value with
  | zero => simp [natLE]
  | succ width ih =>
    rw [natLE, ih, natLE, Nat.div_div_eq_div_mul, Nat.pow_succ, Nat.mul_comm 256]
    rfl

/-- The same with the most significant byte first. -/
theorem toNatBE_natBE (width value : Nat) :
    toNatBE (natBE width value) = value % 256 ^ width := by
  rw [← toNatLE_natLE, natBE, toNatBE]
  generalize natLE width value = bytes
  induction bytes with
  | nil => rfl
  | cons b rest ih =>
    rw [List.reverse_cons, List.foldl_append, ih, toNatLE]
    simp only [List.foldl_cons, List.foldl_nil]
    omega

theorem toNatBE_eq_toNatLE_reverse (bytes : Bytes) : toNatBE bytes = toNatLE bytes.reverse := by
  have hwritten := toNatBE_natBE bytes.length (toNatLE bytes.reverse)
  have hreversed := natLE_toNatLE bytes.reverse
  rw [List.length_reverse] at hreversed
  have hlt := toNatLE_lt bytes.reverse
  rw [List.length_reverse] at hlt
  rwa [natBE, hreversed, List.reverse_reverse, Nat.mod_eq_of_lt hlt] at hwritten

theorem toNatBE_lt (bytes : Bytes) : toNatBE bytes < 256 ^ bytes.length := by
  rw [toNatBE_eq_toNatLE_reverse, ← List.length_reverse]
  exact toNatLE_lt bytes.reverse

theorem natBE_toNatBE (bytes : Bytes) : natBE bytes.length (toNatBE bytes) = bytes := by
  rw [toNatBE_eq_toNatLE_reverse, natBE, ← List.length_reverse, natLE_toNatLE, List.reverse_reverse]

end Bytes

end Vtxo
