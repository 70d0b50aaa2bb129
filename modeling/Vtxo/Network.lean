/-!
# Networks

The chains that addresses and contracts are made for. Only the main chain has a prefix of its own.
-/

set_option autoImplicit false

namespace Vtxo

/-- A chain. -/
inductive Network where
  | bitcoin
  | testnet
  | testnet4
  | signet
  | regtest
deriving DecidableEq

namespace Network

def all : List Network := [bitcoin, testnet, testnet4, signet, regtest]

/-- The name of a chain in settings and on the command line. -/
def name : Network → String
  | bitcoin => "bitcoin"
  | testnet => "testnet"
  | testnet4 => "testnet4"
  | signet => "signet"
  | regtest => "regtest"

/-- The chain with the given name. -/
def ofName? (text : String) : Option Network :=
  all.find? fun network => network.name == text

/-- Whether this is the main chain. -/
def isMain (network : Network) : Bool :=
  network == bitcoin

end Network

end Vtxo
