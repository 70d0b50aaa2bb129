import Vtxo.Script.Op

/-!
# Reading scripts

A script is cut into operations from the front. Every push is read as data, the single-opcode numbers as
numbers, and every other byte as a bare opcode. A push that the script is too short for is the only failure.

  1. `length_splitPush`: a push leaves less to read.
  2. `signingKeys`: the keys a script checks signatures of, in script order.
-/

set_option autoImplicit false

namespace Vtxo.ScriptOp

/-- Data of which the length is given in the first `width` bytes. -/
def splitCounted (width : Nat) (bytes : Bytes) : Option (Bytes × Bytes) :=
  (Bytes.splitExact? width bytes).bind fun (size, rest) => Bytes.splitExact? size.toNatLE rest

/-- The data pushed by an opcode up to `pushData4`, and what follows it. -/
def splitPush (code : UInt8) (rest : Bytes) : Option (Bytes × Bytes) :=
  if code = Opcode.pushData1 then splitCounted 1 rest
  else if code = Opcode.pushData2 then splitCounted 2 rest
  else if code = Opcode.pushData4 then splitCounted 4 rest
  else Bytes.splitExact? code.toNat rest

theorem length_splitExact? {n : Nat} {bytes front rest : Bytes}
    (h : Bytes.splitExact? n bytes = some (front, rest)) : rest.length ≤ bytes.length := by
  obtain ⟨rfl, _⟩ := Bytes.splitExact?_eq_some.mp h
  simp

theorem length_splitCounted {width : Nat} {bytes front rest : Bytes}
    (h : splitCounted width bytes = some (front, rest)) : rest.length ≤ bytes.length := by
  unfold splitCounted at h
  obtain ⟨⟨size, tail⟩, hsize, htail⟩ := Option.bind_eq_some_iff.mp h
  exact Nat.le_trans (length_splitExact? htail) (length_splitExact? hsize)

theorem length_splitPush {code : UInt8} {bytes front rest : Bytes}
    (h : splitPush code bytes = some (front, rest)) : rest.length ≤ bytes.length := by
  unfold splitPush at h
  split at h
  · exact length_splitCounted h
  · split at h
    · exact length_splitCounted h
    · split at h
      · exact length_splitCounted h
      · exact length_splitExact? h

/-- The number an opcode stands for. -/
def smallInt? (code : UInt8) : Option Int :=
  if code = Opcode.minusOne then some (-1)
  else if Opcode.one ≤ code ∧ code ≤ Opcode.sixteen then some (code.toNat - 0x50)
  else none

/-- The operation of an opcode that pushes no data. -/
def ofCode (code : UInt8) : ScriptOp :=
  match smallInt? code with
  | some value => int value
  | none => op code

/-- The operations of a script. -/
def read (script : Bytes) : Except Error (List ScriptOp) :=
  match script with
  | [] => .ok []
  | code :: rest =>
    if code ≤ Opcode.pushData4 then
      match h : splitPush code rest with
      | none => .error (.script .truncated)
      | some (bytes, after) =>
        have : after.length ≤ rest.length := length_splitPush h
        (read after).map (data bytes :: ·)
    else (read rest).map (ofCode code :: ·)
termination_by script.length
decreasing_by all_goals (simp only [List.length_cons]; omega)

/-- Whether an operation checks a signature. -/
def checksSignature (o : ScriptOp) : Bool :=
  o.isCode Opcode.checkSig || o.isCode Opcode.checkSigVerify

/-- The keys pushed directly before a signature check. -/
def checkedKeys : List ScriptOp → List XOnlyKey
  | a :: b :: rest =>
    (if checksSignature b then a.key?.toList else []) ++ checkedKeys (b :: rest)
  | _ => []

/-- The keys a script checks signatures of, in script order. -/
def signingKeys (script : Bytes) : Except Error (List XOnlyKey) :=
  (read script).map checkedKeys

end Vtxo.ScriptOp
