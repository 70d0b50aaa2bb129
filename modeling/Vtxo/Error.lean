import Vtxo.Amount
import Vtxo.Curve.Key
import Vtxo.Encoding.Base58
import Vtxo.Encoding.CompactSize
import Vtxo.Encoding.ScriptNumber
import Vtxo.Outpoint
import Vtxo.Text.Quoted

/-!
# Errors

Every failure is a value that says what went wrong, grouped by the part of the protocol it concerns. Three
readings are defined on it: the kind a caller branches on (`Error.kind`), the subject and wording
(`Error.message`), and whether trying again later may help (`Error.retryable`).
-/

set_option autoImplicit false

namespace Vtxo

/-! ## What can go wrong -/

/-- Relative timelocks. -/
inductive TimelockFault where
  | notMultiple (seconds : UInt32)
  | tooLong (seconds : UInt32)
  | disabled (sequence : UInt32)
  | undefinedBits (sequence : UInt32)
deriving DecidableEq

/-- Scripts and the leaves recognised in them. -/
inductive ScriptFault where
  | truncated
  | notExitPath
  | notCollaborativePath
  | negativeDelay (value : Int)
  | noOwners
deriving DecidableEq

/-- Addresses. -/
inductive AddressFault where
  | mixedCase
  | shape
  | checksum
  | unknownLabel (label : String)
  | length (actual : Nat)
  | serverKey
  | outputKey
deriving DecidableEq

/-- Contract texts and their fields. -/
inductive ContractFault where
  | malformedPair (pair : String)
  | notUtf8 (raw : String) (fault : Utf8.Fault)
  | noTag
  | unsupportedType (tag : String)
  | missingField (key : String)
  | badKey (key : String)
  | badDecimal (key : String)
  | badHex (key : String) (fault : Hex.Fault)
  | hashLength (actual : Nat)
  | unknownHash (name : String)
  | badBoolean (text : String)
  | zeroRefundTime
  | noLeaves
  | noScripts
  | noServer
deriving DecidableEq

/-- Bearer notes. -/
inductive NoteFault where
  | noTag
  | base58 (fault : Base58.Fault)
  | length (actual : Nat)
deriving DecidableEq

/-- Commitment trees. -/
inductive TaprootFault where
  | empty
  | noSuchLeaf (index : Nat)
  | foreignScript
  | tooDeep (depth : Nat)
  | notDepthFirst
  | overComplete
  | incomplete
  | rootMismatch
  | noOutputKey
deriving DecidableEq

/-- Records on the inputs of a partially signed transaction. -/
inductive RecordFault where
  | leafVersion (version : UInt8)
  | leafSize (fault : CompactSize.Fault)
  | expiryNumber (fault : ScriptNumber.Fault)
  | expiryRange (value : Int)
  | cosignerIndex
  | cosignerKey
  | witnessSize (fault : CompactSize.Fault)
  | witnessOversized (requested : Nat)
  | witnessLeftOver
deriving DecidableEq

/-- Settlement trees. -/
inductive SettlementFault where
  | chunkMismatch (txid : Txid)
  | duplicateChunks
  | noRoot
  | severalRoots
  | missingChild (txid : Txid)
  | nodeCount (nodes chunks : Nat)
  | inputCount (txid : Txid) (count : Nat)
  | tooManyChildren (txid : Txid)
  | noOutput (txid : Txid) (vout : UInt32)
  | wrongParent (child : Txid) (expected : OutPoint)
  | childOverflow
  | childAmount (child : Txid) (outputs spent : Amount)
  | notInTree (txid : Txid)
deriving DecidableEq

/-- Coins and transactions that cannot be built as asked. -/
inductive SpendFault where
  | wrongOutput (outpoint : OutPoint) (contract : String)
  | foreignLeaf (contract : String)
  | amountOverflow
  | noCoins
  | noOutputs
  | mixedLockTimes
  | tooManySubDust (requested allowed : Nat)
  | subDustBudget (value dust : Amount) (allowed : Nat)
  | unmatchedInput
  | noInput (index : Nat)
  | noLeafScript (index : Nat)
  | coinCount (coins inputs : Nat)
  | swept (outpoint : OutPoint)
  | forfeitOverflow (amount topUp : Amount)
  | expired (outpoint : OutPoint)
deriving DecidableEq

/-- What the operator says or does against the protocol. -/
inductive OperatorFault where
  | exitDelay (advertised script : String)
  | wrongArkTx (accepted submitted : Txid)
  | checkpointCount (returned submitted : Nat)
  | unknownCheckpoint (txid : Txid)
  | cosignerMissing (key : PublicKey) (txid : Txid)
  | noNonce (txid : Txid)
deriving DecidableEq

/-- Signatures that are missing or wrong. -/
inductive SigningFault where
  | badSignature (index : Nat)
  | missingSignature (index : Nat) (key : XOnlyKey)
  | nonceCount (actual nodes : Nat)
  | partialCount (actual nodes : Nat)
deriving DecidableEq

/-- Digests that cannot be computed for signing. -/
inductive SighashFault where
  | prevoutCount
  | noSingleOutput
deriving DecidableEq

/-- A failure. -/
inductive Error where
  | timelock (fault : TimelockFault)
  | script (fault : ScriptFault)
  | address (fault : AddressFault)
  | contract (fault : ContractFault)
  | note (fault : NoteFault)
  | taproot (fault : TaprootFault)
  | record (fault : RecordFault)
  | settlement (fault : SettlementFault)
  | spend (fault : SpendFault)
  | operator (fault : OperatorFault)
  /-- The operator's checkpoint script is no exit path, for the reason given. -/
  | checkpointScript (reason : Error)
  | signing (fault : SigningFault)
  | sighash (fault : SighashFault)
  | insufficientFunds (required available : Amount)
  | alreadyLocked (outpoint : OutPoint)
  | alreadySpent (outpoint : OutPoint)
  | cancelled
  /-- The transaction to be signed already holds input scripts. -/
  | inputScripts
  /-- A malformed input, in a collaborator's words. -/
  | malformed (subject message : String)
  /-- A bad argument, in a collaborator's words. -/
  | badArgument (message : String)
  /-- An inconsistency, in a collaborator's words. -/
  | inconsistent (message : String)
  /-- A signature refused, in the signer's words. -/
  | refused (message : String)
  /-- A failure to reach a collaborator, in its words. -/
  | transport (message : String)
deriving DecidableEq

/-- What a caller branches on. -/
inductive ErrorKind where
  | invalidFormat
  | invalidArgument
  | insufficientFunds
  | alreadyLocked
  | alreadySpent
  | protocolInconsistency
  | signing
  | transport
  | cancelled
  | psbt
  | sighash
  | taprootBuilder
deriving DecidableEq

/-- The name that a kind is reported under. -/
def ErrorKind.name : ErrorKind → String
  | invalidFormat => "InvalidFormat"
  | invalidArgument => "InvalidArgument"
  | insufficientFunds => "InsufficientFunds"
  | alreadyLocked => "AlreadyLocked"
  | alreadySpent => "AlreadySpent"
  | protocolInconsistency => "ProtocolInconsistency"
  | signing => "Signing"
  | transport => "Transport"
  | cancelled => "Cancelled"
  | psbt => "Psbt"
  | sighash => "Sighash"
  | taprootBuilder => "TaprootBuilder"

/-! ## Wording -/

/-- Two-digit-pair form of a 32-bit number. -/
def hexWord (n : UInt32) : String :=
  "0x" ++ Hex.encode (Bytes.natBE 4 n.toNat)

namespace TimelockFault

def kind : TimelockFault → ErrorKind
  | notMultiple _ | tooLong _ => .invalidArgument
  | disabled _ | undefinedBits _ => .invalidFormat

def detail : TimelockFault → String
  | notMultiple seconds =>
    "relative timelock of " ++ toString seconds.toNat ++ " seconds is not a positive multiple of 512"
  | tooLong seconds => "relative timelock of " ++ toString seconds.toNat ++ " seconds is too large"
  | disabled sequence => "sequence " ++ hexWord sequence ++ " has the disable flag set"
  | undefinedBits sequence => "sequence " ++ hexWord sequence ++ " carries undefined bits"

end TimelockFault

namespace ScriptFault

def kind : ScriptFault → ErrorKind
  | noOwners => .invalidArgument
  | _ => .invalidFormat

def detail : ScriptFault → String
  | truncated => "unexpected end of script"
  | notExitPath => "not a unilateral exit path"
  | notCollaborativePath => "not a collaborative spend path"
  | negativeDelay value => "negative CSV value " ++ toString value
  | noOwners => "unilateral path requires at least one owner"

end ScriptFault

/-- The one wording for every way a key can be malformed. -/
def malformedKey : String := "malformed public key"

def AddressFault.detail : AddressFault → String
  | mixedCase => "mixed-case encoding"
  | shape => "parse failed"
  | checksum => "invalid checksum"
  | unknownLabel label => "unknown prefix '" ++ label ++ "'"
  | length actual => "expected 65 payload bytes, got " ++ toString actual
  | serverKey => "server key: " ++ malformedKey
  | outputKey => "output key: " ++ malformedKey

def Utf8.Fault.detail : Utf8.Fault → String
  | invalid length start =>
    "invalid utf-8 sequence of " ++ toString length ++ " bytes from index " ++ toString start
  | incomplete start => "incomplete utf-8 byte sequence from index " ++ toString start

def Hex.Fault.detail : Hex.Fault → String
  | oddLength => "Odd number of digits"
  | badDigit byte position =>
    "Invalid character " ++ Quoted.latin1 byte ++ " at position " ++ toString position

def Base58.Fault.detail : Base58.Fault → String
  | badCharacter code position =>
    "provided string contained invalid character " ++ Quoted.latin1 code ++ " at byte " ++ toString position
  | notAscii position =>
    "provided string contained non-ascii character starting at byte " ++ toString position

def CompactSize.Fault.detail : CompactSize.Fault → String
  | endOfInput => "IO error"
  | notShortest => "non-minimal varint"

def ScriptNumber.Fault.detail : ScriptNumber.Fault → String
  | tooLong => "numeric overflow (number on stack larger than 4 bytes)"
  | notShortest => "non-minimal datapush"

namespace ContractFault

def kind : ContractFault → ErrorKind
  | zeroRefundTime | noLeaves | noScripts | noServer => .invalidArgument
  | _ => .invalidFormat

def detail : ContractFault → String
  | malformedPair pair => "malformed pair '" ++ pair ++ "'"
  | notUtf8 raw fault => "'" ++ raw ++ "' is not UTF-8: " ++ fault.detail
  | noTag => "must start with 'arkcontract='"
  | unsupportedType tag => "unsupported type '" ++ tag ++ "'"
  | missingField key => "missing field '" ++ key ++ "'"
  | badKey key => "field '" ++ key ++ "': " ++ malformedKey
  | badDecimal key => "field '" ++ key ++ "' is not a decimal"
  | badHex key fault => "field '" ++ key ++ "': " ++ fault.detail
  | hashLength actual => "hash of " ++ toString actual ++ " bytes"
  | unknownHash name => "unknown hash type '" ++ name ++ "'"
  | badBoolean text => "field 'mainnet' is not a boolean: " ++ text
  | zeroRefundTime => "VHTLC refund locktime must be non-zero"
  | noLeaves => "generic contract needs at least one leaf"
  | noScripts => "unknown contract carries no script content"
  | noServer => "no operator key available for address"

end ContractFault

def NoteFault.detail : NoteFault → String
  | noTag => "missing 'arknote' prefix"
  | base58 fault => fault.detail
  | length actual => "expected 36 bytes, got " ++ toString actual

namespace TaprootFault

def kind : TaprootFault → ErrorKind
  | tooDeep _ | notDepthFirst | overComplete => .taprootBuilder
  | _ => .invalidArgument

def detail : TaprootFault → String
  | empty => "a taproot tree needs at least one leaf"
  | noSuchLeaf index => "leaf index " ++ toString index ++ " out of range"
  | foreignScript => "script is not a leaf of this contract"
  | tooDeep depth => "leaf at depth " ++ toString depth ++ " exceeds the depth limit"
  | notDepthFirst => "leaves are not in depth-first order"
  | overComplete => "leaf added to a complete tree"
  | incomplete => "taproot tree is incomplete"
  | rootMismatch => "taproot merkle root does not match leaf pairing"
  | noOutputKey => "the tree's commitment has no output key"

end TaprootFault

namespace RecordFault

/-- The record a fault was found in. -/
def subject : RecordFault → String
  | leafVersion _ | leafSize _ => "taptree"
  | expiryNumber _ | expiryRange _ => "expiry"
  | cosignerIndex | cosignerKey => "cosigner"
  | witnessSize _ | witnessOversized _ | witnessLeftOver => "condition"

def detail : RecordFault → String
  | leafVersion version => "unsupported leaf version 0x" ++ Hex.encode [version]
  | leafSize fault => fault.detail
  | expiryNumber fault => fault.detail
  | expiryRange value => "out of range: " ++ toString value
  | cosignerIndex => "missing index byte"
  | cosignerKey => malformedKey
  | witnessSize fault => fault.detail
  | witnessOversized requested =>
    "allocation of oversized vector: requested " ++ toString requested ++ ", maximum 4000000"
  | witnessLeftOver => "parse failed: data not consumed entirely when explicitly deserializing"

end RecordFault

namespace SettlementFault

def kind : SettlementFault → ErrorKind
  | notInTree _ => .invalidArgument
  | _ => .invalidFormat

def detail : SettlementFault → String
  | chunkMismatch txid => "chunk " ++ txid.render ++ " does not match its transaction"
  | duplicateChunks => "duplicate chunks"
  | noRoot => "no root chunk"
  | severalRoots => "multiple root chunks"
  | missingChild txid => "missing or repeated child chunk " ++ txid.render
  | nodeCount nodes chunks =>
    "rebuilt " ++ toString nodes ++ " nodes from " ++ toString chunks ++ " chunks"
  | inputCount txid count =>
    "node " ++ txid.render ++ " has " ++ toString count ++ " inputs, expected 1"
  | tooManyChildren txid => "node " ++ txid.render ++ " declares more children than spendable outputs"
  | noOutput txid vout => "node " ++ txid.render ++ " has no output " ++ toString vout.toNat
  | wrongParent child expected => "child " ++ child.render ++ " does not spend " ++ expected.render
  | childOverflow => "child output amounts overflow"
  | childAmount child outputs spent =>
    "child " ++ child.render ++ " outputs " ++ outputs.render ++ " but spends " ++ spent.render
  | notInTree txid => "transaction " ++ txid.render ++ " not in tree"

end SettlementFault

def SpendFault.detail : SpendFault → String
  | wrongOutput outpoint contract =>
    "output " ++ outpoint.render ++ " does not pay to the " ++ contract ++ " contract"
  | foreignLeaf contract => "spending leaf is not part of the " ++ contract ++ " contract"
  | amountOverflow => "coin amounts overflow"
  | noCoins => "no coins to spend"
  | noOutputs => "no outputs requested"
  | mixedLockTimes => "coins mix height-based and time-based lock times"
  | tooManySubDust requested allowed =>
    toString requested ++ " sub-dust outputs requested, at most " ++ toString allowed ++ " allowed"
  | subDustBudget value dust allowed =>
    "output of " ++ value.render ++ " is below dust " ++ dust.render ++
      " and the sub-dust budget of " ++ toString allowed ++ " is used"
  | unmatchedInput => "Ark input does not spend a checkpoint"
  | noInput index => "psbt has no input " ++ toString index
  | noLeafScript index => "input " ++ toString index ++ " has no leaf script"
  | coinCount coins inputs => toString coins ++ " coins for " ++ toString inputs ++ " inputs"
  | swept outpoint => "coin " ++ outpoint.render ++ " was swept and cannot be forfeited"
  | forfeitOverflow amount topUp =>
    "forfeit output " ++ amount.render ++ " + " ++ topUp.render ++ " overflows"
  | expired outpoint => "coin " ++ outpoint.render ++ " has expired and must be renewed in a batch"

def OperatorFault.detail : OperatorFault → String
  | exitDelay advertised script =>
    "checkpoint exit delay " ++ script ++ " disagrees with advertised unilateral exit delay " ++ advertised
  | wrongArkTx accepted submitted =>
    "operator accepted " ++ accepted.render ++ " but " ++ submitted.render ++ " was submitted"
  | checkpointCount returned submitted =>
    "operator returned " ++ toString returned ++ " checkpoints for " ++ toString submitted ++ " submitted"
  | unknownCheckpoint txid => "operator returned unknown checkpoint " ++ txid.render
  | cosignerMissing key txid =>
    "cosigner " ++ key.hex ++ " missing from settlement transaction " ++ txid.render
  | noNonce txid => "no aggregated nonce for settlement transaction " ++ txid.render

def SigningFault.detail : SigningFault → String
  | badSignature index => "input " ++ toString index ++ ": signature failed verification"
  | missingSignature index key =>
    "input " ++ toString index ++ " is missing a signature from " ++ key.hex
  | nonceCount actual nodes =>
    "got " ++ toString actual ++ " nonces for " ++ toString nodes ++ " settlement transactions"
  | partialCount actual nodes =>
    "got " ++ toString actual ++ " partial signatures for " ++ toString nodes ++ " settlement transactions"

def SighashFault.detail : SighashFault → String
  | prevoutCount => "prevouts size"
  | noSingleOutput => "sighash single"

namespace Error

/-- The kind of a failure. -/
def kind : Error → ErrorKind
  | timelock fault => fault.kind
  | script fault => fault.kind
  | address _ => .invalidFormat
  | contract fault => fault.kind
  | note _ => .invalidFormat
  | taproot fault => fault.kind
  | record _ => .invalidFormat
  | settlement fault => fault.kind
  | spend _ => .invalidArgument
  | operator _ => .protocolInconsistency
  | checkpointScript _ => .protocolInconsistency
  | signing _ => .signing
  | sighash _ => .sighash
  | insufficientFunds _ _ => .insufficientFunds
  | alreadyLocked _ => .alreadyLocked
  | alreadySpent _ => .alreadySpent
  | cancelled => .cancelled
  | inputScripts => .psbt
  | malformed _ _ => .invalidFormat
  | badArgument _ => .invalidArgument
  | inconsistent _ => .protocolInconsistency
  | refused _ => .signing
  | transport _ => .transport

/-- What was malformed, for failures that concern a format. -/
def subject : Error → String
  | timelock _ => "relative timelock"
  | script _ => "script"
  | address _ => "address"
  | contract _ => "contract"
  | note _ => "note"
  | record fault => fault.subject
  | settlement _ => "tx tree"
  | malformed subject _ => subject
  | _ => ""

/-- How much is missing, if funds are. -/
def shortfall? : Error → Option Amount
  | insufficientFunds required available => some ((required.sub? available).getD .zero)
  | _ => none

/-- The opening words of a message of each kind. -/
def heading (e : Error) : String :=
  match e.kind with
  | .invalidFormat => "Invalid " ++ e.subject ++ ": "
  | .invalidArgument => "Invalid argument: "
  | .insufficientFunds => "Insufficient funds: "
  | .alreadyLocked => "Outpoint already locked by a concurrent spend: "
  | .alreadySpent => "Outpoint already spent: "
  | .protocolInconsistency => "Operator protocol inconsistency: "
  | .signing => "Signing failed: "
  | .transport => "Transport failure: "
  | .cancelled => "Operation cancelled"
  | .psbt => "PSBT error: "
  | .sighash => "Sighash computation failed: "
  | .taprootBuilder => "Taproot tree construction failed: "

/-- The words that follow the heading. -/
def detail : Error → String
  | timelock fault => fault.detail
  | script fault => fault.detail
  | address fault => fault.detail
  | contract fault => fault.detail
  | note fault => fault.detail
  | taproot fault => fault.detail
  | record fault => fault.detail
  | settlement fault => fault.detail
  | spend fault => fault.detail
  | operator fault => fault.detail
  | checkpointScript reason =>
    "checkpoint tapscript is not an exit path: " ++ reason.heading ++ reason.detail
  | signing fault => fault.detail
  | sighash fault => fault.detail
  | insufficientFunds required available =>
    "required " ++ required.render ++ ", available " ++ available.render ++
      " (short by " ++ ((required.sub? available).getD .zero).render ++ ")"
  | alreadyLocked outpoint => outpoint.render
  | alreadySpent outpoint => outpoint.render
  | cancelled => ""
  | inputScripts => "the unsigned transaction has script sigs"
  | malformed _ message => message
  | badArgument message => message
  | inconsistent message => message
  | refused message => message
  | transport message => message

/-- The text of a failure. -/
def message (e : Error) : String :=
  e.heading ++ e.detail

/-- Whether the same operation may succeed later. -/
def retryable (e : Error) : Bool :=
  match e.kind with
  | .alreadyLocked | .alreadySpent | .transport => true
  | _ => false

/-- Whether the operator is misconfigured or malicious. -/
def fatalProtocol (e : Error) : Bool :=
  e.kind == .protocolInconsistency

end Error

end Vtxo
