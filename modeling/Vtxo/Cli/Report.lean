import Vtxo.Cli.Arguments
import Vtxo.Cli.Json
import Vtxo.Config
import Vtxo.Contract.Codec

/-!
# Command line reports

Each command reads or makes one address, contract or note and reports what it holds. Nothing is asked of a wallet or
an operator. What cannot be read ends the command with the reason.

  1. `run`: the outcome of a command line in an environment.
-/

set_option autoImplicit false

namespace Vtxo.Cli

/-- Why a command failed, and what it was about to do. -/
structure Failure where
  context : Option String
  cause : Error

/-- The failure of an operation that has a name of its own. -/
def within {α : Type} (context : String) (value : Except Error α) : Except Failure α :=
  value.mapError fun cause => ⟨some context, cause⟩

/-! ## Reports -/

def hexText (bytes : Bytes) : Json :=
  .string (Hex.encode bytes)

/-- The report on an address. -/
def addressReport (text : String) : Except Failure Json := do
  let (address, mainnet) ← within "Failed to decode address" (Address.parse text)
  return .ofPairs
    [("version", .number address.version.toNat),
     ("server", .string address.server.hex),
     ("output_key", .string address.outputKey.hex),
     ("mainnet", .bool mainnet),
     ("script_pubkey", hexText address.outputScript)]

/-- The scripts of a contract, of which none are known if only its address is. -/
def knownScripts : Contract → Except Error (List Bytes)
  | .addressOnly _ => .ok []
  | contract => contract.scripts

/-- The address of a contract, if it has one. -/
def addressText (contract : Contract) (server : Option XOnlyKey) (network : Network) : Json :=
  match contract.address server with
  | .ok address => .string (address.encode network)
  | .error _ => .null

/-- What every report on a contract holds. -/
def contractMembers (contract : Contract) (server : Option XOnlyKey) (network : Network) :
    Except Failure (List (String × Json)) := do
  let scripts ← (knownScripts contract).mapError fun cause => ⟨none, cause⟩
  return [
    ("type", .string contract.kind.tag),
    ("fields", .ofPairs (contract.fields.pairs.map fun (key, value) => (key, .string value))),
    ("leaves", .array (scripts.map hexText)),
    ("address", addressText contract server network)]

/-- The report on a contract. -/
def contractReport (text : String) (server : Option XOnlyKey) (network : Network) :
    Except Failure Json := do
  let contract ← within "Failed to parse contract" (Registry.builtin.parse text)
  return .ofPairs (← contractMembers contract server network)

/-- The report on a note and the contract that it can be claimed through. -/
def noteReport (text : String) (server : Option XOnlyKey) (network : Network) :
    Except Failure Json := do
  let note ← within "Failed to decode note" (Note.parse text)
  let contract := Contract.note note
  return .ofPairs ((← contractMembers contract server network) ++
    [("value", .number note.amount.toNat),
     ("hash", hexText note.lock.digest),
     ("contract", .string contract.encode)])

/-- The report on the payment contract of two keys. -/
def paymentReport (server user : XOnlyKey) (exitDelay : UInt16) (network : Network) :
    Except Failure Json := do
  let contract := Contract.payment ⟨server, user, Delay.ofBlocks exitDelay⟩
  return .ofPairs ((← contractMembers contract none network) ++
    [("contract", .string contract.encode)])

/-- The report that a command asks for. -/
def report (network : Network) : Command → Except Failure Json
  | .decodeAddress text => addressReport text
  | .parseContract text server => contractReport text server network
  | .decodeNote text server => noteReport text server network
  | .paymentAddress server user exitDelay => paymentReport server user exitDelay network

/-! ## Outcomes -/

/-- How a command line ends. -/
inductive Outcome where
  | printed (json : Json)
  | failed (failure : Failure)
  | refused (refusal : Refusal)

/-- The outcome of a command line in an environment. -/
def run (arguments : List String) (lookup : String → Option String) : Outcome :=
  match Invocation.ofArguments arguments with
  | .error refusal => .refused refusal
  | .ok invocation =>
    let network := invocation.network.getD (Settings.ofEnvironment lookup).network
    match report network invocation.command with
    | .ok json => .printed json
    | .error failure => .failed failure

/-- What a failed command writes. A cause stands under its heading, every line of it indented. -/
def Failure.message (failure : Failure) : String :=
  match failure.context with
  | some context =>
    let cause := failure.cause.message.replace "\n" "\n    "
    "Error: " ++ context ++ "\n\nCaused by:\n    " ++ cause ++ "\n"
  | none => "Error: " ++ failure.cause.message ++ "\n"

/-- How the command line is used. -/
def usage : String :=
  "Inspect addresses, contracts and notes\n\n" ++
  "Usage: [--network NETWORK] COMMAND\n\n" ++
  "Commands:\n" ++
  "  decode-address ADDRESS\n" ++
  "  parse-contract CONTRACT [--server KEY]\n" ++
  "  decode-note NOTE [--server KEY]\n" ++
  "  payment-address --server KEY --user KEY [--exit-delay BLOCKS]\n"

namespace Outcome

/-- The exit status: one for a failure, two for a command line that has no meaning. -/
def status : Outcome → UInt8
  | printed _ | refused .help => 0
  | failed _ => 1
  | refused .usage => 2

/-- What goes to the standard output. -/
def output : Outcome → String
  | printed json => json.pretty ++ "\n"
  | refused .help => usage
  | failed _ | refused .usage => ""

/-- What goes to the standard error output. -/
def errors : Outcome → String
  | failed failure => failure.message
  | refused .usage => usage
  | printed _ | refused .help => ""

end Outcome

end Vtxo.Cli
