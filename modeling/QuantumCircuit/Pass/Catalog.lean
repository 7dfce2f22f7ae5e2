import QuantumCircuit.Backpropagation
import QuantumCircuit.Backward.Diagonal
import QuantumCircuit.Backward.FinalMeasurement
import QuantumCircuit.Block.Collect
import QuantumCircuit.Expand.Gates
import QuantumCircuit.Measurement.Deferral
import QuantumCircuit.Measurement.Dynamic
import QuantumCircuit.Measurement.Reset
import QuantumCircuit.Pass.Basic
import QuantumCircuit.Peephole.CnotCancellation
import QuantumCircuit.Peephole.Fusion
import QuantumCircuit.Peephole.Identity
import QuantumCircuit.Peephole.SwapReconstruction
import QuantumCircuit.Schedule

/-! The passes of the library under their names. -/
namespace QuantumCircuit
namespace Pass

def dynamicAnalysis : Pass := ofAnalysis Dynamic.passName .dynamic Circuit.isDynamic

/-! ## Peephole rules -/

def removeIdentities : Pass := ofEdit "remove_identities" (.done ·.removeIdentities)

def reconstructSwaps : Pass := ofEdit SwapReconstruction.passName Circuit.reconstructSwaps

def cancelCnots : Pass := ofEdit CnotCancellation.passName Circuit.cancelCnots

def fuseSingleQubitGates : Pass := ofEdit Fusion.passName Circuit.fuseSingleQubitGates

/-! ## From the end of the circuit -/

def removeDiagonalGates : Pass := ofEdit Diagonal.passName Circuit.removeDiagonalGates

def removeFinalMeasurements : Pass :=
  ofEdit FinalMeasurement.passName Circuit.removeFinalMeasurements

def backpropagateOutput : Pass :=
  ofEdit "backpropagate_output_permutation" Circuit.backpropagateOutput

/-! ## Other gate sets -/

def decomposeSwaps (directed : Bool) : Pass :=
  ofEdit "decompose_swap" (.done <| ·.decomposeSwaps directed)

def replaceControlledX : Pass := ofEdit "replace_mcx_with_mcz" (.done ·.replaceControlledX)

/-! ## Dynamic circuits -/

def eliminateResets : Pass := ofEdit "eliminate_resets" Circuit.eliminateResets

def deferMeasurements : Pass := ofEdit "defer_measurements" Circuit.deferMeasurements

/-! ## Order and nesting -/

def reorder : Pass := ofEdit Schedule.passName Circuit.reorder

def flatten : Pass := ofEdit "flatten_operations" (.done ·.flatten)

def collectBlocks (limit : Nat) : Pass := ofEdit "collect_blocks" (Circuit.collectBlocks limit)

end Pass
end QuantumCircuit
