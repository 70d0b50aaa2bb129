import Mathlib.Data.List.Forall2
import Vtxo.Leaf.Basic

/-!
# Running scripts

A script works on a stack of byte strings. This is the part of the machine that leaves use: pushes, hashes, comparisons
and signature checks. Time checks leave the stack alone, as whether they succeed depends on the transaction and not on
its witness.

The parts of a leaf each take from the top of the stack what they need. What they need are preimages and signatures; as
all preimages lie above all signatures, one part can follow another unless it asks for a preimage after a signature
was taken.

  1. `run_append`: scripts run one after the other.
  2. `Takes.append`: a part of a script in front of the rest.
  3. `takes_hashLock`, `takes_verifyOps`, `takes_checkOps`: what the parts of leaves take.
-/

set_option autoImplicit false

namespace Vtxo.ScriptOp

/-! ## The machine -/

/-- Whether an element is true: it is not zero, whatever the sign of the zero is. -/
def isTrue (element : Bytes) : Bool :=
  match element.reverse with
  | [] => false
  | last :: others => others.any (· != 0) || (last != 0 && last != 0x80)

/-- The element that a comparison or a check leaves. -/
def ofBool (b : Bool) : Bytes :=
  if b then [1] else []

theorem isTrue_ofBool (b : Bool) : isTrue (ofBool b) = b := by
  cases b <;> rfl

/-- The stack after one operation, its top first, or nothing if the script fails. A key and a signature are checked
by `signed`. -/
def step (signed : Bytes → Bytes → Bool) : ScriptOp → List Bytes → Option (List Bytes)
  | .int value, stack => some (ScriptNumber.encode value :: stack)
  | .key k, stack => some (k.bytes :: stack)
  | .data bytes, stack => some (bytes :: stack)
  | .op code, stack =>
    if code = Opcode.checkLockTime ∨ code = Opcode.checkSequence then some stack
    else match stack with
    | [] => none
    | top :: rest =>
      if code = Opcode.drop then some rest
      else if code = Opcode.verify then if isTrue top then some rest else none
      else if code = Opcode.sha256 then some ((Sha256.hash top).val :: rest)
      else if code = Opcode.hash160 then some ((Ripemd160.hash160 top).val :: rest)
      else match rest with
      | [] => none
      | next :: rest =>
        if code = Opcode.equal then some (ofBool (top == next) :: rest)
        else if code = Opcode.checkSig then some (ofBool (signed top next) :: rest)
        else if code = Opcode.checkSigVerify then if signed top next then some rest else none
        else none

/-- The stack after all operations. -/
def run (signed : Bytes → Bytes → Bool) (ops : List ScriptOp) (stack : List Bytes) : Option (List Bytes) :=
  ops.foldlM (fun stack o => step signed o stack) stack

variable {signed : Bytes → Bytes → Bool}

theorem run_nil (stack : List Bytes) : run signed [] stack = some stack := rfl

theorem run_cons (o : ScriptOp) (ops : List ScriptOp) (stack : List Bytes) :
    run signed (o :: ops) stack = (step signed o stack).bind (run signed ops) := rfl

theorem run_append (ops others : List ScriptOp) (stack : List Bytes) :
    run signed (ops ++ others) stack = (run signed ops stack).bind (run signed others) := by
  rw [run, List.foldlM_append]
  rfl

/-! ## What operations take from the stack -/

/-- The preimages open the locks, one each. -/
def Opened (locks : List HashLock) (preimages : List Bytes) : Prop :=
  List.Forall₂ (fun lock preimage => lock.opens preimage = true) locks preimages

/-- The signatures are those of the keys, one each. -/
def Signed (signed : Bytes → Bytes → Bool) (keys : List XOnlyKey) (signatures : List Bytes) : Prop :=
  List.Forall₂ (fun key signature => signed key.bytes signature = true) keys signatures

/-- The operations take preimages and then signatures from the stack, and put the elements of `left` in their place.
Everything below stays. -/
def Takes (signed : Bytes → Bytes → Bool) (ops : List ScriptOp) (locks : List HashLock) (keys : List XOnlyKey)
    (left : List Bytes) : Prop :=
  ∀ preimages signatures rest, Opened locks preimages → Signed signed keys signatures →
    run signed ops (preimages ++ (signatures ++ rest)) = some (left ++ rest)

theorem takes_nil : Takes signed [] [] [] [] := by
  intro preimages signatures rest hopened hsigned
  cases hopened
  cases hsigned
  exact run_nil rest

/-- What belongs to two lists one after the other is in two parts. -/
theorem exists_append_of_forall₂ {α β : Type} {R : α → β → Prop} {first second : List α} {items : List β}
    (h : List.Forall₂ R (first ++ second) items) :
    ∃ front back, items = front ++ back ∧ List.Forall₂ R first front ∧ List.Forall₂ R second back :=
  ⟨items.take first.length, items.drop first.length, (List.take_append_drop _ _).symm,
    (List.forall₂_take_append items first second h.flip).flip,
    (List.forall₂_drop_append items first second h.flip).flip⟩

/-- Before a part that asks for preimages no signature may be taken, as these lie below. -/
theorem Takes.append {ops others : List ScriptOp} {locks locks' : List HashLock} {keys keys' : List XOnlyKey}
    {left : List Bytes} (h : Takes signed ops locks keys []) (h' : Takes signed others locks' keys' left)
    (horder : keys = [] ∨ locks' = []) :
    Takes signed (ops ++ others) (locks ++ locks') (keys ++ keys') left := by
  intro preimages signatures rest hopened hsigned
  obtain ⟨above, above', rfl, hopened, hopened'⟩ := exists_append_of_forall₂ hopened
  obtain ⟨below, below', rfl, hsigned, hsigned'⟩ := exists_append_of_forall₂ hsigned
  have hstack : above ++ above' ++ (below ++ below' ++ rest) = above ++ (below ++ (above' ++ (below' ++ rest))) := by
    rcases horder with rfl | rfl
    · cases hsigned
      simp
    · cases hopened'
      simp
  rw [hstack, run_append, h above below _ hopened hsigned]
  exact h' above' below' rest hopened' hsigned'

/-! ## Parts of leaves -/

/-- The digest of the preimage is compared with that of the lock. -/
theorem takes_hashLock (lock : HashLock) : Takes signed lock.ops [lock] [] [ofBool true] := by
  intro preimages signatures rest hopened hsigned
  obtain ⟨preimage, others, hopens, hothers, rfl⟩ := List.forall₂_cons_left_iff.mp hopened
  cases hothers
  cases hsigned
  cases lock with
  | sha256 digest =>
    have hdigest : Sha256.hash preimage = digest := eq_of_beq hopens
    subst hdigest
    change some (ofBool (_ == _) :: rest) = _
    rw [beq_self_eq_true]
    rfl
  | hash160 digest =>
    have hdigest : Ripemd160.hash160 preimage = digest := eq_of_beq hopens
    subst hdigest
    change some (ofBool (_ == _) :: rest) = _
    rw [beq_self_eq_true]
    rfl

/-- A part that leaves true can be verified, and then leaves nothing. -/
theorem Takes.verify {ops : List ScriptOp} {locks : List HashLock} {keys : List XOnlyKey}
    (h : Takes signed ops locks keys [ofBool true]) : Takes signed (ops ++ [op Opcode.verify]) locks keys [] := by
  intro preimages signatures rest hopened hsigned
  rw [run_append, h preimages signatures rest hopened hsigned]
  rfl

/-- A time is checked and removed again. -/
theorem takes_time (value : Int) {code : UInt8} (h : code = Opcode.checkLockTime ∨ code = Opcode.checkSequence) :
    Takes signed [int value, op code, op Opcode.drop] [] [] [] := by
  intro preimages signatures rest hopened hsigned
  cases hopened
  cases hsigned
  have hcheck : ∀ stack, step signed (op code) stack = some stack := fun stack => if_pos h
  rw [run_cons, step, Option.bind_some, run_cons, hcheck, Option.bind_some]
  rfl

/-- A key whose check fails on a wrong signature. -/
theorem takes_checkSigVerify (k : XOnlyKey) : Takes signed [key k, op Opcode.checkSigVerify] [] [k] [] := by
  intro preimages signatures rest hopened hsigned
  obtain ⟨signature, others, hsignature, hothers, rfl⟩ := List.forall₂_cons_left_iff.mp hsigned
  cases hothers
  cases hopened
  change (if signed k.bytes signature = true then some rest else none).bind some = _
  rw [if_pos hsignature]
  rfl

/-- A key whose check leaves its result. -/
theorem takes_checkSig (k : XOnlyKey) : Takes signed [key k, op Opcode.checkSig] [] [k] [ofBool true] := by
  intro preimages signatures rest hopened hsigned
  obtain ⟨signature, others, hsignature, hothers, rfl⟩ := List.forall₂_cons_left_iff.mp hsigned
  cases hothers
  cases hopened
  change some (ofBool (signed k.bytes signature) :: rest) = _
  rw [hsignature]
  rfl

theorem takes_verifyOps (owners : List XOnlyKey) : Takes signed (verifyOps owners) [] owners [] := by
  induction owners with
  | nil => exact takes_nil
  | cons owner rest ih => exact (takes_checkSigVerify owner).append ih (.inr rfl)

theorem takes_checkOps : (owners : List XOnlyKey) → owners ≠ [] →
    Takes signed (checkOps owners) [] owners [ofBool true]
  | [], h => absurd rfl h
  | [owner], _ => takes_checkSig owner
  | owner :: next :: rest, _ =>
    (takes_checkSigVerify owner).append (takes_checkOps (next :: rest) (List.cons_ne_nil _ _)) (.inr rfl)

end Vtxo.ScriptOp
