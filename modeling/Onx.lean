import Onx.Lib.OrdMap
import Onx.Lib.Runs
import Onx.Lib.Quorum
import Onx.Lib.BigEndian
import Onx.Primitives
import Onx.DataStructures.Shard
import Onx.Consensus.Engine
import Onx.Consensus.Stake
import Onx.Consensus.Evidence
import Onx.Consensus.Agreement
import Onx.Channels.Arbiter
import Onx.Channels.Daemon
import Onx.Channels.History
import Onx.Blocks.Masterchain
import Onx.Blocks.Sync
import Onx.Lib.Dfs
import Onx.Lib.RefCount
import Onx.State.Account
import Onx.State.Boc
import Onx.State.Tree
import Onx.Storage.Names
import Onx.Storage.Journal
import Onx.Storage.Torn
import Onx.Storage.Store
import Onx.Storage.Counts
import Onx.Storage.Block
import Onx.Storage.Clients
import Onx.Storage.Retain
import Onx.Storage.Leak
import Onx.Storage.Accounts
import Onx.Storage.Durable
import Onx.DataStructures.Message
import Onx.Lib.Machine
import Onx.Vm.Types
import Onx.Vm.Interpreter
import Onx.Vm.Instructions
import Onx.Vm.Safety
import Onx.Vm.Panic
import Onx.Blocks.Index
import Onx.Blocks.Commit
import Onx.Sharding.Tree
import Onx.Blocks.Lineage
import Onx.Sharding.Triggers
import Onx.Sharding.Pipeline
import Onx.Sharding.Partition
import Onx.Sharding.Inverse
import Onx.Lib.ArgMin
import Onx.Transactions.OutputQueue
import Onx.Transactions.Delivery
import Onx.State.Binding
import Onx.State.Decode
import Onx.State.Proofs
import Onx.State.Soundness
import Onx.Lib.Patricia
import Onx.Lib.ByteBits
import Onx.Vm.Dictionary
import Onx.Vm.DictionaryNodes
import Onx.Vm.DictionaryMap
import Onx.Vm.DictionaryRoot
import Onx.Vm.Logic
import Onx.Vm.Steps
import Onx.Vm.Gas
import Onx.Vm.Handler
import Onx.Vm.Returns
import Onx.Vm.Operations
import Onx.Vm.Faults
import Onx.Lib.Pieces
import Onx.Networking.Identity
import Onx.Networking.Rldp
import Onx.Networking.Chunks
import Onx.Networking.Transfer
import Onx.Lib.StreamCipher
import Onx.Networking.Transport
import Onx.Networking.Attribution
import Onx.Networking.Tamper
import Onx.Channels.Mirror
import Onx.Channels.Window
import Onx.State.Balance
import Onx.Lib.Slices
import Onx.State.Codec
import Onx.State.Addressed
import Onx.Vm.OutOfGas
import Onx.Storage.Replay
import Onx.Storage.ReadBack
import Onx.Networking.Link
import Onx.Lib.TwosComplement
import Onx.Vm.Supplied
import Onx.Vm.Arithmetic
import Onx.Vm.Extended
import Onx.Vm.Repeat
import Onx.Vm.Conditions
import Onx.Vm.Bits
import Onx.Vm.CellSteps
import Onx.Vm.Builders
import Onx.Vm.Stored
import Onx.Vm.References
import Onx.Vm.GasTable
import Onx.Lib.KeySort
import Onx.Consensus.Election
import Onx.State.Lifecycle
import Onx.State.Cycles
import Onx.State.CellCodec
import Onx.State.Canonical
import Onx.DataStructures.MessageCodec
import Onx.Lib.Shares
import Onx.Economics.Rewards
import Onx.Consensus.Ranking
import Onx.Consensus.Intersection
import Onx.Consensus.Timeouts
import Onx.DataStructures.BlockCodec
import Onx.Blocks.MasterchainCodec
import Onx.Lib.Hypercube
import Onx.Transactions.Router
import Onx.Lib.RoundRobin
import Onx.Networking.Fairness
import Onx.Networking.Hostile
import Onx.Networking.Frames
import Onx.Lib.Recent
import Onx.Networking.Dht
import Onx.Networking.RoutingTable
import Onx.Networking.Lookup
import Onx.Networking.Values
import Onx.Lib.PrefixFree
import Onx.State.AccountCodec
import Onx.Channels.Signatures
import Onx.Consensus.Replay
import Onx.Lib.Coupling
import Onx.Vm.Likeness
import Onx.Vm.GasLimit
import Onx.Vm.Frame
import Onx.Vm.Calls
import Onx.Channels.MerkleProof
import Onx.Consensus.Accountability
import Onx.Consensus.Rounds
import Onx.Consensus.Liveness
import Onx.Consensus.QuorumTracker
import Onx.Consensus.TaskGroup
import Onx.Sharding.Commitment
import Onx.Transactions.Admission
import Onx.Transactions.Processed
import Onx.Networking.Records
import Onx.Networking.SendReceive
import Onx.Blocks.Ancestry
import Onx.Economics.Fees
import Onx.Economics.Slashing
import Onx.DataStructures.ByteStrings
import Onx.Lib.Triples
import Onx.Vm.Confined
import Onx.Vm.Embedding
import Onx.Vm.Blocks
import Onx.Storage.Headers
import Onx.Sharding.History
import Onx.Sharding.Endpoints
