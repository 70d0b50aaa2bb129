import Vtxo.Coin.Selection
import Vtxo.Network
import Vtxo.Text.Decimal

/-!
# Settings

How addresses are encoded, how long coins stay locked, and how many outputs below the dust limit a payment may have.
The environment may change the first two; a value that makes no sense is ignored.

  1. `Settings.ofEnvironment`: the settings under an environment.
-/

set_option autoImplicit false

namespace Vtxo

/-- The settings of a wallet. -/
structure Settings where
  network : Network
  /-- How long a lock on a coin lasts unless it is released. -/
  lockSeconds : Nat
  maxSubDust : Nat
deriving DecidableEq

namespace Settings

def default : Settings := ⟨.signet, 30, Selection.defaultMaxSubDust⟩

/-- The variable that names the network. -/
def networkVariable : String := "ARK_NETWORK"

/-- The variable that holds how long locks last, in seconds. -/
def lockVariable : String := "ARK_LOCK_TTL_SECS"

/-- How long locks last under a setting: a positive 64-bit number of seconds, or the default. -/
def lockSecondsOf (text : Option String) : Nat :=
  ((text.bind (Decimal.unsigned? 18446744073709551615)).filter (0 < ·)).getD default.lockSeconds

/-- The settings under an environment. -/
def ofEnvironment (lookup : String → Option String) : Settings :=
  { default with
    network := ((lookup networkVariable).bind Network.ofName?).getD default.network
    lockSeconds := lockSecondsOf (lookup lockVariable) }

end Settings

end Vtxo
