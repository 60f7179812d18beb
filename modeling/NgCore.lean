import NgCore.Lib.Bucket
import NgCore.Lib.Rlp
import NgCore.Lib.MerkleTree
import NgCore.Lib.Sequences
import NgCore.Lib.SparseMerkle
import NgCore.Lib.Txn
import NgCore.Lib.Versioned
import NgCore.Types.Basic
import NgCore.Types.Keys
import NgCore.Types.Consensus
import NgCore.Types.Tx
import NgCore.Types.Block
import NgCore.Types.BlockBinding
import NgCore.Types.Contract
import NgCore.Statetrie
import NgCore.State.Store
import NgCore.State.Txn
import NgCore.VM.Engine
import NgCore.VM.Journal
import NgCore.VM.HostCalls
import NgCore.VM.Exec
import NgCore.VM.Rules
import NgCore.VM.Invariants
import NgCore.State.Contracts
import NgCore.State.Handle
import NgCore.State.Check
import NgCore.State.Rebuild
import NgCore.State.Genesis
import NgCore.State.Discipline
import NgCore.State.LockStep
import NgCore.State.Handmade
import NgCore.State.Undo
import NgCore.State.Trail
import NgCore.State.Attribution
import NgCore.Statetrie.Proofs
import NgCore.LightClient
import NgCore.Chain.BlockStore
import NgCore.Chain.Fork
import NgCore.Chain.Node
import NgCore.Chain.WellFormed
import NgCore.Chain.Finality
import NgCore.Chain.Work
import NgCore.Chain.Paths
import NgCore.Chain.Bodies
import NgCore.Chain.Handmade
import NgCore.Chain.ForkChoice
import NgCore.Chain.Adopted
import NgCore.Chain.Binding
import NgCore.Chain.Authorized
import NgCore.Lib.SingleUse
import NgCore.State.Commits
import NgCore.Chain.Replay
import NgCore.Chain.Index
import NgCore.Chain.Beacon
import NgCore.Chain.Window
import NgCore.Chain.Registry
import NgCore.Chain.Uncles
import NgCore.Chain.Preimage
import NgCore.State.Snapshot
import NgCore.Chain.Snapshot
import NgCore.Chain.SnapSync
import NgCore.Lib.Traced
import NgCore.State.Returns
import NgCore.Chain.Robust
import NgCore.Pool
import NgCore.Chain.Relay
import NgCore.Chain.CommitGate
import NgCore.Mining
import NgCore.Lib.AsOf
import NgCore.State.Archive
import NgCore.State.Hooks
import NgCore.Lib.RefCount
import NgCore.State.Ledger
import NgCore.State.Linkable
import NgCore.VM.Reentry
import NgCore.State.Flush
import NgCore.State.InPlace
import NgCore.State.Immutable
import NgCore.Chain.Import
import NgCore.Chain.Memo
import NgCore.Chain.Converge
import NgCore.Chain.Collect
import NgCore.Pool.Runs
import NgCore.Types.Context
import NgCore.Chain.Sync
import NgCore.Dandelion
import NgCore.Chain.Serve
import NgCore.Lib.Text
import NgCore.Types.Json
import NgCore.State.Restore
import NgCore.Chain.Audit
