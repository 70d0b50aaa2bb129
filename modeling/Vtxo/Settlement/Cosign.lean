import Vtxo.Settlement.Tree

/-!
# Co-signing a settlement tree

Each of the keys that a settlement tree is bound to contributes a nonce and then a partial signature for every
transaction of the tree. What a cosigner answers is checked only for its size.

  1. `collect_eq_ok`: an answer that is accepted has as many entries as the tree has nodes.
-/

set_option autoImplicit false

namespace Vtxo.Settlement

instance : ByteKey Txid where
  keyBytes txid := txid.digest.val
  keyBytes_inj a b h := by
    cases a
    cases b
    exact congrArg Txid.mk (Subtype.ext h)

/-- What a cosigner answers: one item for each of some transactions. -/
abbrev PerTransaction (α : Type) := SortedMap Txid α

/-- Public nonces. -/
abbrev Nonces := PerTransaction (Sized 66)

/-- Partial signatures. -/
abbrev Partials := PerTransaction (Sized 32)

/-- The answer of a cosigner, if nothing was cancelled before it was asked and its size is right. -/
def collect {α : Type} (tree : Tree) (cancelled : Bool) (answer : Except Error (PerTransaction α))
    (fault : Nat → Nat → SigningFault) : Except Error (PerTransaction α) :=
  if cancelled then .error .cancelled
  else
    match answer with
    | .error e => .error e
    | .ok items =>
      -- The names are not compared, only how many there are.
      if items.entries.length = tree.count then .ok items
      else .error (.signing (fault items.entries.length tree.count))

theorem collect_eq_ok {α : Type} {tree : Tree} {cancelled : Bool}
    {answer : Except Error (PerTransaction α)} {fault : Nat → Nat → SigningFault}
    {items : PerTransaction α} (h : collect tree cancelled answer fault = .ok items) :
    items.entries.length = tree.count := by
  unfold collect at h
  split at h
  · cases h
  · split at h
    · cases h
    · split at h
      · next hlen =>
        cases h
        exact hlen
      · cases h

/-- The first node that a key does not co-sign. -/
def checkCosigner (key : PublicKey) : List Tree → Except Error Unit
  | [] => .ok ()
  | node :: rest => do
    let keys ← node.cosignerKeys
    if !keys.contains key then throw (.operator (.cosignerMissing key node.txid))
    checkCosigner key rest

/-- The nonces of a cosigner, whose key must be registered on every node. -/
def collectNonces (tree : Tree) (key : PublicKey) (cancelled : Bool) (answer : Except Error Nonces) :
    Except Error Nonces := do
  checkCosigner key tree.nodes
  collect tree cancelled answer .nonceCount

/-- The partial signatures of a cosigner, once every node has an aggregated nonce. -/
def collectPartials (tree : Tree) (nonces : Nonces) (cancelled : Bool)
    (answer : Except Error Partials) : Except Error Partials :=
  match tree.nodes.find? fun node => (nonces.find? node.txid).isNone with
  | some node => .error (.operator (.noNonce node.txid))
  | none => collect tree cancelled answer .partialCount

end Vtxo.Settlement
