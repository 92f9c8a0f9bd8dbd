import AptosCore.Text.Utf8
import AptosCore.Mutator.Ast
import AptosCore.Mutator.Operators
import AptosCore.Mutator.Mutate
import AptosCore.Mutator.ForLoop
import AptosCore.Mutator.Distinct
import AptosCore.Parsing.Precedence
import AptosCore.Mutator.Reparse
import AptosCore.Rust.Result
import AptosCore.Rust.BTreeMap
import AptosCore.Aggregator.BoundedMath
import AptosCore.Aggregator.Types
import AptosCore.Aggregator.DeltaMath
import AptosCore.Aggregator.DeltaChangeSet
import AptosCore.Aggregator.DeltaMerge
import AptosCore.Merkle.SparseTree
import AptosCore.Proof.SparseMerkle
import AptosCore.Bits.Bytes
import AptosCore.Crypto.MultiEd25519
import AptosCore.Consensus.Types
import AptosCore.Transition.Reachable
import AptosCore.Package.Toml
import AptosCore.Package.ManifestParser
import AptosCore.Mutator.Manifest
import AptosCore.Collections.ModifyFirst
import AptosCore.SpecTest.Report
import AptosCore.Aggregator.AggregatorV1
import AptosCore.Collections.Chunks
import AptosCore.Move.BigVector
import AptosCore.Move.BigVector.Refinement
import AptosCore.Move.SmartVector
import AptosCore.Move.SmartVector.Refinement
import AptosCore.BlockExecutor.View
import AptosCore.Transition.Measure
import AptosCore.BlockExecutor.Scheduler
import AptosCore.BlockExecutor.Scheduler.Invariant
import AptosCore.Move.Integer
import AptosCore.Move.Math
import AptosCore.Text.Replace
import AptosCore.Move.Vector
import AptosCore.Numeric.NewtonSqrt
import AptosCore.Consensus.PendingVotes
import AptosCore.BinaryFormat.FileFormat
import AptosCore.BinaryFormat.ControlFlowGraph
import AptosCore.BytecodeVerifier.StackUsage
import AptosCore.Move.SmartTable
import AptosCore.Move.SmartTable.Invariant
import AptosCore.Move.SmartTable.Pagination
import AptosCore.Move.SmartTable.Refinement
import AptosCore.Rust.BinarySearch
import AptosCore.Consensus.ProposerElection
import AptosCore.Rust.U64
import AptosCore.Rust.Iterator
import AptosCore.Merkle.Frontier
import AptosCore.Proof.Position
import AptosCore.Proof.FrozenSubtree
import AptosCore.Proof.Accumulator
import AptosCore.Transition.Simulation
import AptosCore.Channel.MessageQueues
import AptosCore.Channel.RoundRobin
import AptosCore.Channel.Refinement
import AptosCore.Mutator.SpecBlocks
import AptosCore.Codec.Bytes
import AptosCore.Jellyfish.NodeType
import AptosCore.Jellyfish.Codec
import AptosCore.Jellyfish.NodeCodec
import AptosCore.BlockExecutor.Scheduler.Calls
