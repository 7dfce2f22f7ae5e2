import QuantumCircuit.Kind
import QuantumCircuit.Qubit

/-! Why an operation is refused, and the wording of each reason. -/
namespace QuantumCircuit

inductive CircuitError where
  | unknownQubit (qubit : Qubit) (user : Kind)
  | unknownClbit (clbit : Clbit) (user : Kind)
  | targetCount (kind : Kind) (expected got : Nat)
  | measureShape (qubits clbits : Nat)
  /-- A qubit used twice, by an operation or, without one, by the layout. -/
  | duplicateQubit (qubit : Qubit) (user : Option Kind)
  /-- A condition on something that is not a gate. -/
  | conditionOn (body : Kind)
  /-- A kind that does not fit the shape of its operation. -/
  | misplacedKind (kind : Kind)
deriving DecidableEq, Repr

namespace CircuitError

private def context : Option Kind → String
  | some k => " (gate: " ++ k.name ++ ")"
  | none => ""

private def qubitName (q : Qubit) : String := "QubitId(" ++ toString q.index ++ ")"

private def clbitName (c : Clbit) : String := "ClbitId(" ++ toString c.index ++ ")"

def message : CircuitError → String
  | unknownQubit q k => "Qubit " ++ qubitName q ++ " not found in circuit" ++ context (some k)
  | unknownClbit c k =>
    "Classical bit " ++ clbitName c ++ " not found in circuit" ++ context (some k)
  | targetCount k expected got =>
    "Gate '" ++ k.name ++ "' requires " ++ toString expected ++ " target qubits, got " ++
      toString got
  | measureShape qubits clbits =>
    "Measurement of " ++ toString qubits ++ " qubits into " ++ toString clbits ++
      " classical bits"
  | duplicateQubit q k => "Duplicate qubit " ++ qubitName q ++ " in operation" ++ context k
  | conditionOn k =>
    "Invalid operation: classically controlled '" ++ k.name ++ "' must wrap a standard gate"
  | misplacedKind k =>
    "Invalid operation: '" ++ k.name ++ "' is not valid for this operation kind"

end CircuitError
end QuantumCircuit
