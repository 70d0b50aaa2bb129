import Vtxo.Address
import Vtxo.Contract.Fields
import Vtxo.Contract.Note
import Vtxo.Leaf.Recognise
import Vtxo.Taproot.Commitment
import Vtxo.Taproot.ScriptList

/-!
# Contracts

A contract is the spending policy of one output: an ordered list of leaves and the parameters they are made from.
Everything else about the output, its script, its address and its control blocks, is a function of that list.

  * `Payment`: the owner and the operator together, or the owner alone after a delay.
  * `HashLockedPayment`: the same, and the first way also reveals a preimage.
  * `Vhtlc`: a hashed timelock contract between a sender and a receiver, with six ways to spend.
  * `Note`: whoever knows the preimage.
  * `Explicit`: scripts as they are.
  * `AddressOnly`: nothing but the address is known.

A delay that no sequence can enforce is refused when a contract is made, so a contract's leaves always exist.

  1. `Contract.leaves` and `Contract.commitment`: what an output of a contract commits to.
-/

set_option autoImplicit false

namespace Vtxo

/-! ## Kinds -/

/-- The kinds of contract, in the order a registry lists them. -/
inductive ContractKind where
  | payment
  | hashLockedPayment
  | vhtlc
  | note
  | explicit
  | addressOnly
deriving DecidableEq

namespace ContractKind

def all : List ContractKind := [payment, hashLockedPayment, vhtlc, note, explicit, addressOnly]

/-- The name of a kind in contract texts. -/
def tag : ContractKind → String
  | payment => "payment"
  | hashLockedPayment => "hashlockedpayment"
  | vhtlc => "vhtlc"
  | note => "arknote"
  | explicit => "generic"
  | addressOnly => "unknown"

def ofTag? (text : String) : Option ContractKind :=
  all.find? fun kind => kind.tag == text

theorem ofTag?_tag (kind : ContractKind) : ofTag? kind.tag = some kind := by
  cases kind <;> decide

end ContractKind

/-! ## Payments -/

/-- The owner and the operator together, or the owner alone after a delay. -/
structure Payment where
  server : XOnlyKey
  user : XOnlyKey
  exitDelay : Delay
deriving DecidableEq

namespace Payment

def make (server user : XOnlyKey) (exitDelay : RelativeLock) : Except Error Payment :=
  (Delay.ofLock exitDelay).map (⟨server, user, ·⟩)

def collaborativeLeaf (c : Payment) : Leaf :=
  .collaborative c.server (some (.multisig [c.user]))

def exitLeaf (c : Payment) : Leaf :=
  .unilateral (.single c.exitDelay c.user) none

def leaves (c : Payment) : List Leaf :=
  [c.collaborativeLeaf, c.exitLeaf]

end Payment

/-- A preimage and a signature, each of which must hold. -/
def preimageAndKey (lock : HashLock) (key : XOnlyKey) : Leaf :=
  .composite [.verify (.hashLock lock), .multisig [key]]

theorem ops_preimageAndKey (lock : HashLock) (key : XOnlyKey) :
    (preimageAndKey lock key).ops = lock.ops ++ [.op Opcode.verify] ++ verifyOps [key] := by
  simp [preimageAndKey, Leaf.ops, Leaf.partsOps]

/-- A payment of which the collaborative claim also reveals a preimage. -/
structure HashLockedPayment where
  server : XOnlyKey
  user : XOnlyKey
  lock : HashLock
  exitDelay : Delay
deriving DecidableEq

namespace HashLockedPayment

def make (server user : XOnlyKey) (lock : HashLock) (exitDelay : RelativeLock) :
    Except Error HashLockedPayment :=
  (Delay.ofLock exitDelay).map (⟨server, user, lock, ·⟩)

def claimLeaf (c : HashLockedPayment) : Leaf :=
  .collaborative c.server (some (preimageAndKey c.lock c.user))

/-- Leaving needs no preimage. -/
def exitLeaf (c : HashLockedPayment) : Leaf :=
  .unilateral (.single c.exitDelay c.user) none

def leaves (c : HashLockedPayment) : List Leaf :=
  [c.claimLeaf, c.exitLeaf]

end HashLockedPayment

/-! ## Hashed timelock contracts -/

/-- The six ways to spend a hashed timelock contract, in leaf order. -/
inductive VhtlcPath where
  | claim
  | refund
  | refundWithoutReceiver
  | unilateralClaim
  | unilateralRefund
  | unilateralRefundWithoutReceiver
deriving DecidableEq

namespace VhtlcPath

def all : List VhtlcPath :=
  [claim, refund, refundWithoutReceiver, unilateralClaim, unilateralRefund,
    unilateralRefundWithoutReceiver]

/-- Whether the operator signs too. -/
def isCollaborative : VhtlcPath → Bool
  | claim | refund | refundWithoutReceiver => true
  | _ => false

end VhtlcPath

/-- A contract that pays the receiver for a preimage and else the sender, with times of its own for those who act
without the operator. -/
structure Vhtlc where
  server : XOnlyKey
  sender : XOnlyKey
  receiver : XOnlyKey
  lock : HashLock
  refundTime : UInt32
  claimDelay : Delay
  refundDelay : Delay
  refundAloneDelay : Delay
  refundTime_ne_zero : refundTime ≠ 0
deriving DecidableEq

namespace Vhtlc

/-- The contract, if its refund time is not zero and sequences can enforce its delays. -/
def make (server sender receiver : XOnlyKey) (lock : HashLock) (refundTime : UInt32)
    (claimDelay refundDelay refundAloneDelay : RelativeLock) : Except Error Vhtlc :=
  if h : refundTime = 0 then .error (.contract .zeroRefundTime)
  else do
    let claim ← Delay.ofLock claimDelay
    let refund ← Delay.ofLock refundDelay
    let alone ← Delay.ofLock refundAloneDelay
    return ⟨server, sender, receiver, lock, refundTime, claim, refund, alone, h⟩

def leaf (c : Vhtlc) : VhtlcPath → Leaf
  | .claim => .collaborative c.server (some (preimageAndKey c.lock c.receiver))
  | .refund => .collaborative c.server (some (.multisig [c.sender, c.receiver]))
  | .refundWithoutReceiver =>
    .collaborative c.server (some (.composite [.lockTime c.refundTime, .multisig [c.sender]]))
  | .unilateralClaim => .unilateral (.single c.claimDelay c.receiver) (some (.hashLock c.lock))
  | .unilateralRefund => .unilateral (.pair c.refundDelay c.sender c.receiver) none
  | .unilateralRefundWithoutReceiver => .unilateral (.single c.refundAloneDelay c.sender) none

def leaves (c : Vhtlc) : List Leaf :=
  VhtlcPath.all.map c.leaf

end Vhtlc

/-! ## Notes, scripts and addresses -/

namespace Note

def claimLeaf (note : Note) : Leaf :=
  .hashLock note.lock

/-- What must be revealed to claim the note. -/
def extraWitness (note : Note) : List Bytes :=
  [note.preimage.val]

end Note

/-- Scripts as they are, with the operator's key if it is known. -/
structure Explicit where
  server : Option XOnlyKey
  scripts : List Bytes
  nonempty : scripts ≠ []
deriving DecidableEq

namespace Explicit

def make (server : Option XOnlyKey) (scripts : List Bytes) : Except Error Explicit :=
  if h : scripts = [] then .error (.contract .noLeaves) else .ok ⟨server, scripts, h⟩

/-- The contract of two scripts. -/
def pair (server : Option XOnlyKey) (first second : Bytes) : Explicit :=
  ⟨server, [first, second], List.cons_ne_nil _ _⟩

end Explicit

/-- A contract of which only the address is known. -/
structure AddressOnly where
  address : Address
  mainnet : Bool
deriving DecidableEq

/-- The contract of an address in text form. -/
def AddressOnly.ofText (text : String) : Except Error AddressOnly :=
  (Address.parse text).map fun (address, mainnet) => ⟨address, mainnet⟩

/-! ## All contracts -/

/-- A spending policy. -/
inductive Contract where
  | payment (c : Payment)
  | hashLockedPayment (c : HashLockedPayment)
  | vhtlc (c : Vhtlc)
  | note (c : Note)
  | explicit (c : Explicit)
  | addressOnly (c : AddressOnly)
deriving DecidableEq

namespace Contract

def kind : Contract → ContractKind
  | payment _ => .payment
  | hashLockedPayment _ => .hashLockedPayment
  | vhtlc _ => .vhtlc
  | note _ => .note
  | explicit _ => .explicit
  | addressOnly _ => .addressOnly

/-- The operator's key, where the contract has one. -/
def server? : Contract → Option XOnlyKey
  | payment c => some c.server
  | hashLockedPayment c => some c.server
  | vhtlc c => some c.server
  | note _ => none
  | explicit c => c.server
  | addressOnly c => some c.address.server

/-- The leaves in order. -/
def leaves : Contract → Except Error (List Leaf)
  | payment c => .ok c.leaves
  | hashLockedPayment c => .ok c.leaves
  | vhtlc c => .ok c.leaves
  | note c => .ok [c.claimLeaf]
  | explicit c => c.scripts.mapM Leaf.ofScript
  | addressOnly _ => .error (.contract .noScripts)

/-- The scripts of the leaves in order. -/
def scripts : Contract → Except Error (List Bytes)
  | explicit c => .ok c.scripts
  | c => c.leaves.map (·.map Leaf.script)

/-- What an output of the contract commits to. -/
def commitment (c : Contract) : Except Error Commitment := do
  Commitment.make (← c.scripts)

/-- The address of the contract's output, with the default key where the contract has no operator's key. -/
def address (c : Contract) (default : Option XOnlyKey) : Except Error Address :=
  match c with
  | addressOnly c => .ok c.address
  | c =>
    match c.server? <|> default with
    | none => .error (.contract .noServer)
    | some server => c.commitment.map fun commitment => .ofKeys server commitment.outputKey

/-- The script of the contract's output. -/
def outputScript : Contract → Except Error Bytes
  | addressOnly c => .ok c.address.outputScript
  | c => c.commitment.map Commitment.outputScript

end Contract

end Vtxo
