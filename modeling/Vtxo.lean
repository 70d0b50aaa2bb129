import Vtxo.Address
import Vtxo.Amount
import Vtxo.Bytes
import Vtxo.Cli.Arguments
import Vtxo.Cli.Json
import Vtxo.Cli.Report
import Vtxo.Coin.Basic
import Vtxo.Coin.Selection
import Vtxo.Config
import Vtxo.Contract.Basic
import Vtxo.Contract.Codec
import Vtxo.Contract.Fields
import Vtxo.Contract.Note
import Vtxo.Curve.Key
import Vtxo.Curve.Schnorr
import Vtxo.Curve.Secp256k1
import Vtxo.Dialogue
import Vtxo.Encoding.Base58
import Vtxo.Encoding.Bech32m
import Vtxo.Encoding.CompactSize
import Vtxo.Encoding.Radix
import Vtxo.Encoding.ScriptNumber
import Vtxo.Error
import Vtxo.Hash.Ripemd160
import Vtxo.Hash.Sha256
import Vtxo.Hash.Tagged
import Vtxo.Hex
import Vtxo.Leaf.Basic
import Vtxo.Leaf.Recognise
import Vtxo.Main
import Vtxo.Network
import Vtxo.Operator
import Vtxo.Outpoint
import Vtxo.Proofs.Address
import Vtxo.Proofs.Amount
import Vtxo.Proofs.Bytes
import Vtxo.Proofs.Coin.Committed
import Vtxo.Proofs.Coin.Selection
import Vtxo.Proofs.Coin.Sequences
import Vtxo.Proofs.Coin.Timelocks
import Vtxo.Proofs.Contract.Fields
import Vtxo.Proofs.Contract.Identity
import Vtxo.Proofs.Contract.Leaves
import Vtxo.Proofs.Contract.Note
import Vtxo.Proofs.Contract.Paths
import Vtxo.Proofs.Contract.Text
import Vtxo.Proofs.Encoding.Base58
import Vtxo.Proofs.Encoding.Bech32m
import Vtxo.Proofs.Encoding.Bech32mText
import Vtxo.Proofs.Encoding.CompactSize
import Vtxo.Proofs.Encoding.Radix
import Vtxo.Proofs.Encoding.ScriptNumber
import Vtxo.Proofs.Leaf.ExitGrammar
import Vtxo.Proofs.Leaf.NormalForm
import Vtxo.Proofs.Psbt.Changes
import Vtxo.Proofs.Psbt.Expiry
import Vtxo.Proofs.Psbt.Independence
import Vtxo.Proofs.Psbt.Records
import Vtxo.Proofs.Script.ReadBack
import Vtxo.Proofs.Script.Timelocks
import Vtxo.Proofs.Settlement.Attach
import Vtxo.Proofs.Settlement.Conservation
import Vtxo.Proofs.Settlement.Coverage
import Vtxo.Proofs.Settlement.Flattening
import Vtxo.Proofs.Settlement.Replacement
import Vtxo.Proofs.Settlement.RootedTree
import Vtxo.Proofs.Settlement.Traversal
import Vtxo.Proofs.Spend.Alignment
import Vtxo.Proofs.Spend.Cancellation
import Vtxo.Proofs.Spend.CheckpointContract
import Vtxo.Proofs.Spend.Collaborators
import Vtxo.Proofs.Spend.Conservation
import Vtxo.Proofs.Spend.DustPolicy
import Vtxo.Proofs.Spend.Failures
import Vtxo.Proofs.Spend.Finalization
import Vtxo.Proofs.Spend.Forfeits
import Vtxo.Proofs.Spend.LockHistory
import Vtxo.Proofs.Spend.LockTimes
import Vtxo.Proofs.Spend.Protocol
import Vtxo.Proofs.Spend.Pruning
import Vtxo.Proofs.Spend.Recording
import Vtxo.Proofs.Spend.ReturnedCheckpoints
import Vtxo.Proofs.Spend.Runs
import Vtxo.Proofs.Spend.SendRun
import Vtxo.Proofs.Spend.ServedLocks
import Vtxo.Proofs.Spend.Signatures
import Vtxo.Proofs.Spend.SigningRuns
import Vtxo.Proofs.Spend.SubDustChange
import Vtxo.Proofs.Spend.Witness
import Vtxo.Proofs.Taproot.Assembly
import Vtxo.Proofs.Taproot.Balance
import Vtxo.Proofs.Taproot.Opening
import Vtxo.Proofs.Taproot.ScriptList
import Vtxo.Proofs.Text.Ascii
import Vtxo.Proofs.Timelock
import Vtxo.Psbt.Basic
import Vtxo.Psbt.Records
import Vtxo.Psbt.SortedMap
import Vtxo.Script.Op
import Vtxo.Script.Read
import Vtxo.Settlement.Chunk
import Vtxo.Settlement.Cosign
import Vtxo.Settlement.Tree
import Vtxo.Spend.Checkpoint
import Vtxo.Spend.Cosign
import Vtxo.Spend.Dust
import Vtxo.Spend.Forfeit
import Vtxo.Spend.LockTable
import Vtxo.Spend.Offchain
import Vtxo.Spend.Request
import Vtxo.Spend.Send
import Vtxo.Spend.Signing
import Vtxo.Taproot.Builder
import Vtxo.Taproot.Commitment
import Vtxo.Taproot.ScriptList
import Vtxo.Taproot.Tree
import Vtxo.Text.Decimal
import Vtxo.Text.Percent
import Vtxo.Text.Quoted
import Vtxo.Text.Utf8
import Vtxo.Timelock
import Vtxo.Transaction.Basic
import Vtxo.Transaction.Sighash
