import Vtxo.Encoding.Bech32m
import Vtxo.Error
import Vtxo.Network
import Vtxo.Transaction.Basic

/-!
# Addresses

An address names the output of a contract: the operator's key and the output's key, after a version byte. It
is written in Bech32m with one label for the main chain and another for all others. Letters may be all upper
case or all lower case.

  1. `ofPayload_payload`: an address is read back from its payload.
-/

set_option autoImplicit false

namespace Vtxo

/-- The name of a contract's output. -/
structure Address where
  version : UInt8
  server : XOnlyKey
  outputKey : XOnlyKey
deriving DecidableEq

namespace Address

/-- The address of an output, in the only version defined. -/
def ofKeys (server outputKey : XOnlyKey) : Address :=
  ⟨0, server, outputKey⟩

/-- The label of addresses on the main chain or on another one. -/
def label (mainnet : Bool) : String :=
  if mainnet then "ark" else "tark"

/-- The version and both keys. -/
def payload (address : Address) : Bytes :=
  address.version :: (address.server.bytes ++ address.outputKey.bytes)

/-- The text of an address on the main chain or on another one. -/
def render (address : Address) (mainnet : Bool) : String :=
  Bech32m.encode (label mainnet) address.payload

/-- The text of an address on a network. -/
def encode (address : Address) (network : Network) : String :=
  address.render network.isMain

/-- Read a payload. -/
def ofPayload (payload : Bytes) : Except Error Address :=
  if payload.length ≠ 65 then .error (.address (.length payload.length))
  else
    match payload with
    | [] => .error (.address (.length 0))
    | version :: keys =>
      match XOnlyKey.ofBytes? (keys.take 32), XOnlyKey.ofBytes? (keys.drop 32) with
      | none, _ => .error (.address .serverKey)
      | some _, none => .error (.address .outputKey)
      | some server, some outputKey => .ok ⟨version, server, outputKey⟩

theorem ofPayload_payload (address : Address) : ofPayload address.payload = .ok address := by
  obtain ⟨version, server, outputKey⟩ := address
  have hs := server.length_bytes
  have ho := outputKey.length_bytes
  have htake : (server.bytes ++ outputKey.bytes).take 32 = server.bytes := by
    rw [← hs, List.take_left]
  have hdrop : (server.bytes ++ outputKey.bytes).drop 32 = outputKey.bytes := by
    rw [← hs, List.drop_left]
  simp [ofPayload, payload, hs, ho, htake, hdrop, XOnlyKey.ofBytes?_bytes]

/-- Whether the label is that of the main chain. -/
def mainnetOfLabel? (text : String) : Option Bool :=
  if text = label true then some true
  else if text = label false then some false
  else none

/-- An ASCII letter in lower case, any other character as it is. -/
def lowerChar (c : Char) : Char :=
  if 'A' ≤ c ∧ c ≤ 'Z' then Char.ofNat (c.toNat + 32) else c

/-- Whether a text has both upper-case and lower-case ASCII letters. -/
def isMixedCase (text : List Char) : Bool :=
  (text.any fun c => 'a' ≤ c && c ≤ 'z') && (text.any fun c => 'A' ≤ c && c ≤ 'Z')

/-- Read an address and whether it belongs to the main chain. -/
def parse (text : String) : Except Error (Address × Bool) :=
  if isMixedCase text.toList then .error (.address .mixedCase)
  else
    match Bech32m.decode (String.ofList (text.toList.map lowerChar)) with
    | .error .shape => .error (.address .shape)
    | .error .checksum => .error (.address .checksum)
    | .ok (prefixLabel, payload) =>
      match mainnetOfLabel? prefixLabel with
      | none => .error (.address (.unknownLabel prefixLabel))
      | some mainnet => (ofPayload payload).map fun address => (address, mainnet)

/-- The script that pays to the address. -/
def outputScript (address : Address) : Bytes :=
  taprootScript address.outputKey

/-- The script that commits to the output key without being spendable, for values too small to spend. -/
def subDustScript (address : Address) : Bytes :=
  dataScript address.outputKey.bytes

end Address

end Vtxo
