import Vtxo.Bytes
import Vtxo.Encoding.Radix

/-!
# Base58

Bytes are written in base 58 with an alphabet that leaves out look-alike letters; each leading zero byte is a
leading `1`. A text with a character outside the alphabet is refused at the first such character.

  1. `digits_lt`: what is read is a string of base-58 digits.
-/

set_option autoImplicit false

namespace Vtxo.Base58

/-- Why a text is not Base58; positions count UTF-8 bytes. -/
inductive Fault where
  | badCharacter (code : UInt8) (position : Nat)
  | notAscii (position : Nat)
deriving DecidableEq

/-- The digits in order of their value. -/
def alphabet : List Char :=
  "123456789ABCDEFGHJKLMNPQRSTUVWXYZabcdefghijkmnopqrstuvwxyz".toList

/-- The value of a digit. -/
def digitValue? (c : Char) : Option Nat :=
  alphabet.findIdx? (· == c)

/-- The digit values of a text that starts at `position`. -/
def readDigits (position : Nat) : List Char → Except Fault (List Nat)
  | [] => .ok []
  | c :: rest =>
    if c.toNat < 128 then
      match digitValue? c with
      | some d => (readDigits (position + 1) rest).map (d :: ·)
      | none => .error (.badCharacter c.toNat.toUInt8 position)
    else .error (.notAscii position)

/-- The Base58 text of a byte string. -/
def encode (bytes : Bytes) : String :=
  String.ofList ((Radix.rebase 256 58 (bytes.map UInt8.toNat)).map fun d => alphabet.getD d '1')

/-- Read a Base58 text. -/
def decode (text : List Char) : Except Fault Bytes :=
  (readDigits 0 text).map fun digits => (Radix.rebase 58 256 digits).map UInt8.ofNat

/-! ## Digits -/

theorem digitValue?_lt {c : Char} {d : Nat} (h : digitValue? c = some d) : d < 58 := by
  have hlen : alphabet.length = 58 := by decide
  obtain ⟨hlt, _⟩ := List.findIdx?_eq_some_iff_getElem.mp h
  omega

theorem digits_lt {position : Nat} {text : List Char} {digits : List Nat}
    (h : readDigits position text = .ok digits) : ∀ d ∈ digits, d < 58 := by
  induction text generalizing position digits with
  | nil =>
    rw [readDigits] at h
    cases h
    simp
  | cons c rest ih =>
    rw [readDigits] at h
    split at h
    · split at h
      · next d hd =>
        cases hr : readDigits (position + 1) rest with
        | error e => simp [hr, Except.map] at h
        | ok tail =>
          simp only [hr, Except.map, Except.ok.injEq] at h
          subst h
          intro x hx
          rcases List.mem_cons.mp hx with rfl | hx
          · exact digitValue?_lt hd
          · exact ih hr x hx
      · simp at h
    · simp at h

end Vtxo.Base58
