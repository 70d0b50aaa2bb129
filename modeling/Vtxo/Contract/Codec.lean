import Vtxo.Contract.Basic

/-!
# Contracts as text

Each kind of contract has its fields; reading them back, in any order, gives the contract. A registry says which
kinds a reader accepts. Where a text cannot be read, a contract that keeps only the address may take its place.

  1. `Contract.encode`, `Registry.parse`: writing and reading.
-/

set_option autoImplicit false

namespace Vtxo

/-! ## Fields of each kind -/

namespace HashLock

/-- The name of the digest's function. -/
def name : HashLock → String
  | sha256 _ => "sha256"
  | hash160 _ => "hash160"

def pushTo (lock : HashLock) (fields : Fields) : Fields :=
  (fields.push "hash_type" lock.name).push "hash" (Hex.encode lock.digest)

/-- Read a lock; without a name the digest is one of SHA-256. -/
def ofFields (fields : Fields) : Except Error HashLock := do
  let bytes ← fields.bytes "hash"
  let name := (fields.get? "hash_type").getD "sha256"
  if name = "sha256" then
    match Sized.ofBytes? 32 bytes with
    | some digest => return sha256 digest
    | none => throw (.contract (.hashLength bytes.length))
  else if name = "hash160" then
    match Sized.ofBytes? 20 bytes with
    | some digest => return hash160 digest
    | none => throw (.contract (.hashLength bytes.length))
  else throw (.contract (.unknownHash name))

end HashLock

namespace Payment

def fields (c : Payment) : Fields :=
  Fields.empty
    |>.pushKey "server" c.server
    |>.pushKey "user" c.user
    |>.pushDelay "exit_delay" c.exitDelay

def ofFields (fields : Fields) : Except Error Payment := do
  let server ← fields.key "server"
  let user ← fields.key "user"
  -- The fields are read in the order they are written in, so the first bad one is reported.
  let delay ← fields.lock "exit_delay"
  make server user delay

end Payment

namespace HashLockedPayment

def fields (c : HashLockedPayment) : Fields :=
  c.lock.pushTo (Fields.empty |>.pushKey "server" c.server |>.pushKey "user" c.user)
    |>.pushDelay "exit_delay" c.exitDelay

def ofFields (fields : Fields) : Except Error HashLockedPayment := do
  let server ← fields.key "server"
  let user ← fields.key "user"
  let lock ← HashLock.ofFields fields
  let delay ← fields.lock "exit_delay"
  make server user lock delay

end HashLockedPayment

namespace Vhtlc

def fields (c : Vhtlc) : Fields :=
  c.lock.pushTo
      (Fields.empty
        |>.pushKey "server" c.server
        |>.pushKey "sender" c.sender
        |>.pushKey "receiver" c.receiver)
    |>.push "refund_locktime" (toString c.refundTime.toNat)
    |>.pushDelay "unilateral_claim_delay" c.claimDelay
    |>.pushDelay "unilateral_refund_delay" c.refundDelay
    |>.pushDelay "unilateral_refund_without_receiver_delay" c.refundAloneDelay

def ofFields (fields : Fields) : Except Error Vhtlc := do
  let server ← fields.key "server"
  let sender ← fields.key "sender"
  let receiver ← fields.key "receiver"
  let lock ← HashLock.ofFields fields
  let refundTime ← fields.word "refund_locktime"
  let claim ← fields.lock "unilateral_claim_delay"
  let refund ← fields.lock "unilateral_refund_delay"
  let alone ← fields.lock "unilateral_refund_without_receiver_delay"
  make server sender receiver lock refundTime claim refund alone

end Vhtlc

namespace Note

def fields (note : Note) : Fields :=
  Fields.empty.push "note" note.render

def ofFields (fields : Fields) : Except Error Note := do
  parse (← fields.required "note")

end Note

namespace Explicit

def fields (c : Explicit) : Fields :=
  let start := match c.server with
    | some server => Fields.empty.pushKey "server" server
    | none => Fields.empty
  start.push "tapscripts" (Hex.encode (ScriptList.encode c.scripts))

def ofFields (fields : Fields) : Except Error Explicit := do
  let scripts ← ScriptList.decode (← fields.bytes "tapscripts")
  let server ← fields.optionalKey "server"
  make server scripts

end Explicit

namespace AddressOnly

def fields (c : AddressOnly) : Fields :=
  Fields.empty.push "address" (c.address.render c.mainnet)

/-- Read the address; a field that names the chain must be a truth value, but the address's own label counts. -/
def ofFields (fields : Fields) : Except Error AddressOnly := do
  if let some text := fields.get? "mainnet" then
    if text ≠ "true" ∧ text ≠ "false" then throw (.contract (.badBoolean text))
  ofText (← fields.required "address")

end AddressOnly

/-! ## Texts -/

namespace Contract

def fields : Contract → Fields
  | payment c => c.fields
  | hashLockedPayment c => c.fields
  | vhtlc c => c.fields
  | note c => c.fields
  | explicit c => c.fields
  | addressOnly c => c.fields

/-- The text of a contract. -/
def encode (c : Contract) : String :=
  c.fields.encode c.kind.tag

/-- The contract of a kind with the given fields. -/
def ofFields (kind : ContractKind) (fields : Fields) : Except Error Contract :=
  match kind with
  | .payment => (Payment.ofFields fields).map payment
  | .hashLockedPayment => (HashLockedPayment.ofFields fields).map hashLockedPayment
  | .vhtlc => (Vhtlc.ofFields fields).map vhtlc
  | .note => (Note.ofFields fields).map note
  | .explicit => (Explicit.ofFields fields).map explicit
  | .addressOnly => (AddressOnly.ofFields fields).map addressOnly

end Contract

/-- The kinds of contract a reader accepts. -/
structure Registry where
  kinds : List ContractKind

namespace Registry

/-- Every kind. -/
def builtin : Registry := ⟨ContractKind.all⟩

def find? (registry : Registry) (tag : String) : Option ContractKind :=
  (ContractKind.ofTag? tag).filter fun kind => registry.kinds.contains kind

def supports (registry : Registry) (tag : String) : Bool :=
  (registry.find? tag).isSome

/-- Read a contract. -/
def parse (registry : Registry) (text : String) : Except Error Contract := do
  let (tag, fields) ← Fields.decode text
  match registry.find? tag with
  | some kind => Contract.ofFields kind fields
  | none => throw (.contract (.unsupportedType tag))

/-- Read a contract, or keep its address if it cannot be read. -/
def parseOr (registry : Registry) (fallback : AddressOnly) (text : String) : Contract :=
  match registry.parse text with
  | .ok contract => contract
  | .error _ => .addressOnly fallback

end Registry

end Vtxo
