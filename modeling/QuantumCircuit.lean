import QuantumCircuit.Backpropagation
import QuantumCircuit.Backward.Diagonal
import QuantumCircuit.Backward.FinalMeasurement
import QuantumCircuit.Backward.Walk
import QuantumCircuit.Block.Collect
import QuantumCircuit.Block.Tracker
import QuantumCircuit.Circuit.Basic
import QuantumCircuit.Circuit.Builder
import QuantumCircuit.Circuit.Error
import QuantumCircuit.Config.Basic
import QuantumCircuit.Config.Load
import QuantumCircuit.Config.Override
import QuantumCircuit.Expand.Gates
import QuantumCircuit.Expand.Substitution
import QuantumCircuit.Json.Basic
import QuantumCircuit.Json.Decode
import QuantumCircuit.Json.Parse
import QuantumCircuit.Json.Scan
import QuantumCircuit.Kind
import QuantumCircuit.Lanes.Basic
import QuantumCircuit.Lanes.Build
import QuantumCircuit.Layout
import QuantumCircuit.Measurement.Deferral
import QuantumCircuit.Measurement.Dynamic
import QuantumCircuit.Measurement.Reset
import QuantumCircuit.Number.Binary64
import QuantumCircuit.Number.Digits
import QuantumCircuit.Number.Numeral
import QuantumCircuit.Number.Positional
import QuantumCircuit.Number.Shortest
import QuantumCircuit.Operation.Basic
import QuantumCircuit.Operation.Text
import QuantumCircuit.Operation.Validity
import QuantumCircuit.Ordered.Map
import QuantumCircuit.Ordered.Set
import QuantumCircuit.Pass.Basic
import QuantumCircuit.Pass.Catalog
import QuantumCircuit.Pass.Error
import QuantumCircuit.Pass.Outcome
import QuantumCircuit.Pass.Pipeline
import QuantumCircuit.Pass.Properties
import QuantumCircuit.Peephole.CnotCancellation
import QuantumCircuit.Peephole.Fusion
import QuantumCircuit.Peephole.Identity
import QuantumCircuit.Peephole.SwapReconstruction
import QuantumCircuit.Peephole.Sweep
import QuantumCircuit.Qubit
import QuantumCircuit.Schedule
import QuantumCircuit.Snapshot.Decode
import QuantumCircuit.Snapshot.Encode
import QuantumCircuit.Snapshot.Format
import QuantumCircuit.Yaml.Anchor
import QuantumCircuit.Yaml.Cursor
import QuantumCircuit.Yaml.Document
import QuantumCircuit.Yaml.Node
import QuantumCircuit.Yaml.Scalar
import QuantumCircuit.Yaml.Token
import QuantumCircuit.Proofs.Ordered
import QuantumCircuit.Proofs.Numeral
import QuantumCircuit.Proofs.Json.Scan
import QuantumCircuit.Proofs.Json.Parse
import QuantumCircuit.Proofs.Snapshot
import QuantumCircuit.Proofs.Block.Forest
import QuantumCircuit.Proofs.Block.Tracker
import QuantumCircuit.Proofs.Block.Merge
import QuantumCircuit.Proofs.Leaves
import QuantumCircuit.Proofs.Nodes
import QuantumCircuit.Proofs.Identity
import QuantumCircuit.Proofs.Validity
import QuantumCircuit.Proofs.Lanes
import QuantumCircuit.Proofs.WellFormed
import QuantumCircuit.Proofs.Words
import QuantumCircuit.Proofs.Dynamic
import QuantumCircuit.Proofs.Meaning
import QuantumCircuit.Proofs.Sweep
import QuantumCircuit.Proofs.PairGates
import QuantumCircuit.Proofs.Fusion
import QuantumCircuit.Proofs.GateModel
import QuantumCircuit.Proofs.Schedule.Queue
import QuantumCircuit.Proofs.Schedule.Progress
import QuantumCircuit.Proofs.Schedule.Extension
import QuantumCircuit.Proofs.Schedule.Canonical
import QuantumCircuit.Proofs.Block.Invariant
import QuantumCircuit.Proofs.Block.Join
import QuantumCircuit.Proofs.Block.Release
import QuantumCircuit.Proofs.Block.Gather
import QuantumCircuit.Proofs.Expand
import QuantumCircuit.Proofs.Placement
import QuantumCircuit.Proofs.Unitary
import QuantumCircuit.Proofs.Pipeline
import QuantumCircuit.Proofs.Deferral.Run
import QuantumCircuit.Proofs.Deferral.Sound
import QuantumCircuit.Proofs.Deferral.Moves
import QuantumCircuit.Proofs.Deferral.Order
import QuantumCircuit.Proofs.Deferral.Straight
import QuantumCircuit.Proofs.Deferral.Sources
import QuantumCircuit.Proofs.Deferral.Controls
import QuantumCircuit.Proofs.Deferral.Measured
import QuantumCircuit.Proofs.Deferral.Positions
import QuantumCircuit.Proofs.Renamed
import QuantumCircuit.Proofs.Action
import QuantumCircuit.Proofs.Peephole
import QuantumCircuit.Proofs.Reset.Relabel
import QuantumCircuit.Proofs.Nesting
import QuantumCircuit.Proofs.Reset.Sound
import QuantumCircuit.Proofs.Static
import QuantumCircuit.Proofs.Failure.Sweep
import QuantumCircuit.Proofs.Failure.Deferral
import QuantumCircuit.Proofs.Failure.Pipeline
import QuantumCircuit.Proofs.FinalMeasurement.Erasure
import QuantumCircuit.Proofs.FinalMeasurement.Removal
import QuantumCircuit.Proofs.Valid.Basic
import QuantumCircuit.Proofs.Valid.Passes
import QuantumCircuit.Proofs.Construction
import QuantumCircuit.Proofs.Walk.Calls
import QuantumCircuit.Proofs.Walk.Halting
import QuantumCircuit.Proofs.Walk.Invariant
import QuantumCircuit.Proofs.Walk.Machine
import QuantumCircuit.Proofs.FinalMeasurement.Exact
import QuantumCircuit.Proofs.FinalMeasurement.Compounds
import QuantumCircuit.Proofs.Diagonal.Invariant
import QuantumCircuit.Proofs.Diagonal.Steps
import QuantumCircuit.Proofs.Diagonal.Removal
import QuantumCircuit.Proofs.Diagonal.InFront
import QuantumCircuit.Proofs.GateSet
import QuantumCircuit.Proofs.GateSet.Conditional
import QuantumCircuit.Proofs.Backpropagation
import QuantumCircuit.Proofs.Block.Room
import QuantumCircuit.Proofs.Block.Limit
import QuantumCircuit.Proofs.Block.Representation
import QuantumCircuit.Proofs.PairReduction.Complete
import QuantumCircuit.Proofs.PairReduction.Settled
import QuantumCircuit.Proofs.RunReduction
