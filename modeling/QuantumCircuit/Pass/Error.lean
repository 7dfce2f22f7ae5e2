import QuantumCircuit.Circuit.Error

/-! Why a pass gives up, and the wording of each reason. -/
namespace QuantumCircuit

inductive PassError where
  /-- An edit of the circuit was refused. -/
  | circuit (cause : CircuitError)
  /-- An operation whose kind does not fit its shape. -/
  | unexpectedKind (kind : Kind) (pass : String)
  /-- Only a measurement of one qubit into one bit can be deferred. -/
  | measureShape (qubits clbits : Nat)
  /-- Only a condition on one bit can become a control. -/
  | wideRegister (size : Nat)
  | resetAfterMeasure
  /-- A condition on something that is not a gate. -/
  | conditionOn (body : Kind)
  /-- A condition on the result of measuring the qubit that the gate changes. -/
  | implicitReset (qubit : Qubit)
  /-- No logical qubit is left to place on a physical one. -/
  | noLogicalQubit (physical : Qubit)
  | zeroBlockSize
  /-- A reason that the pass words itself. -/
  | failed (pass reason : String)
deriving DecidableEq, Repr

namespace PassError

def message : PassError → String
  | circuit cause => "IR error: " ++ cause.message
  | unexpectedKind k pass => "Unexpected operation '" ++ k.name ++ "' in pass '" ++ pass ++ "'"
  | measureShape qubits clbits =>
    "Cannot defer a measurement of " ++ toString qubits ++ " qubits into " ++ toString clbits ++
      " bits"
  | wideRegister size =>
    "Classical control on a " ++ toString size ++ "-bit register is not supported"
  | resetAfterMeasure => "Reset after a deferred measurement; eliminate resets first"
  | conditionOn k => "Classically controlled '" ++ k.name ++ "' does not wrap a standard gate"
  | implicitReset q =>
    "Classically controlled gate targets measured qubit " ++ q.text ++
      "; this is an implicit reset"
  | noLogicalQubit q =>
    "Invalid permutation: no unplaced logical qubit left for physical qubit " ++ q.text
  | zeroBlockSize => "Invalid pass configuration: max_block_size must be at least 1"
  | failed pass reason => "Pass '" ++ pass ++ "' failed: " ++ reason

end PassError
end QuantumCircuit
