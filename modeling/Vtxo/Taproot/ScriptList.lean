import Vtxo.Leaf.Basic

/-!
# Script lists

The ordered scripts of an output are sent as records one after the other: a depth, which says nothing and is always
written as one, the leaf version, and the script after its length. Contracts and partially signed transactions
share this form.

  1. `length_decodeRecord`: each record makes the input shorter, so reading ends.
-/

set_option autoImplicit false

namespace Vtxo.ScriptList

/-- The depth written in every record. -/
def recordDepth : UInt8 := 1

/-- The most bytes that a script and its length may take when read. -/
def maxScriptBytes : Nat := 4000000

def encodeRecord (script : Bytes) : Bytes :=
  recordDepth :: leafVersion :: (CompactSize.encode script.length ++ script)

def encode (scripts : List Bytes) : Bytes :=
  scripts.flatMap encodeRecord

/-- The bytes of a script after its length, and what follows. -/
def decodeScript (bytes : Bytes) : Except CompactSize.Fault (Bytes × Bytes) :=
  match CompactSize.decode bytes with
  | .error fault => .error fault
  | .ok (n, rest) =>
    -- The limit counts the bytes of the length too.
    if CompactSize.length n + n > maxScriptBytes then .error .endOfInput
    else
      match Bytes.splitExact? n rest with
      | some split => .ok split
      | none => .error .endOfInput

/-- The script of the first record, and what follows. -/
def decodeRecord : Bytes → Except Error (Bytes × Bytes)
  | _ :: version :: rest =>
    if version ≠ leafVersion then .error (.record (.leafVersion version))
    else
      match decodeScript rest with
      | .ok split => .ok split
      | .error fault => .error (.record (.leafSize fault))
  | _ => .error (.record (.leafSize .endOfInput))

theorem length_decodeScript {bytes script rest : Bytes}
    (h : decodeScript bytes = .ok (script, rest)) : rest.length ≤ bytes.length := by
  unfold decodeScript at h
  split at h
  · cases h
  · next n tail hsize =>
    have htail : tail.length ≤ bytes.length := CompactSize.length_decode hsize
    split at h
    · cases h
    · split at h
      · next split hsplit =>
        cases h
        obtain ⟨rfl, _⟩ := Bytes.splitExact?_eq_some.mp hsplit
        simp only [List.length_append] at htail
        omega
      · cases h

theorem length_decodeRecord {bytes script rest : Bytes}
    (h : decodeRecord bytes = .ok (script, rest)) : rest.length < bytes.length := by
  unfold decodeRecord at h
  split at h
  · next depth version tail =>
    split at h
    · cases h
    · split at h
      · next split hsplit =>
        cases h
        have := length_decodeScript hsplit
        simp only [List.length_cons]
        omega
      · cases h
  · cases h

/-- Read records until nothing is left. -/
def decode (bytes : Bytes) : Except Error (List Bytes) :=
  if bytes.isEmpty then .ok []
  else
    match h : decodeRecord bytes with
    | .error e => .error e
    | .ok (script, rest) =>
      have : rest.length < bytes.length := length_decodeRecord h
      (decode rest).map (script :: ·)
termination_by bytes.length

end Vtxo.ScriptList
