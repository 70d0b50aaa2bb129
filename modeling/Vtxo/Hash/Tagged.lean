import Vtxo.Hash.Sha256
import Vtxo.Text.Utf8

/-!
# Tagged hashes

Each use of SHA-256 inside a signature or a taproot commitment has a tag of its own, so that a digest made for
one use never serves another: the digest of the tag is hashed twice before the message.
-/

set_option autoImplicit false

namespace Vtxo.Tagged

/-- The digest of a tag, twice. -/
def domain (tag : String) : Bytes :=
  let digest := (Sha256.hash (Utf8.encode tag)).val
  digest ++ digest

/-- The digest of a message after a domain. -/
def hashIn (domain message : Bytes) : Sized 32 :=
  Sha256.hash (domain ++ message)

def leafDomain : Bytes := domain "TapLeaf"
def branchDomain : Bytes := domain "TapBranch"
def tweakDomain : Bytes := domain "TapTweak"
def sighashDomain : Bytes := domain "TapSighash"
def auxDomain : Bytes := domain "BIP0340/aux"
def nonceDomain : Bytes := domain "BIP0340/nonce"
def challengeDomain : Bytes := domain "BIP0340/challenge"

end Vtxo.Tagged
