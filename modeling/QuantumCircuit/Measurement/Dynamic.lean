import QuantumCircuit.Lanes.Build

/-! Dynamic circuits: those with a reset, a conditional operation, or a gate
after the last measurement of its qubit. -/
namespace QuantumCircuit
namespace Dynamic

def passName : String := "dynamic_circuit_analysis"

/-- Whether an operation alone makes a circuit dynamic. -/
def isFeedback (op : Operation) : Bool := op.isConditional || op.isReset

/-- Looks for feedback among checked operations; stops at the first hit, so a
malformed operation after it does no harm. -/
def findFeedback : List Operation → Except PassError Bool
  | [] => .ok false
  | op :: rest =>
    match op.check passName with
    | .error e => .error e
    | .ok () => if op.leaves.any isFeedback then .ok true else findFeedback rest

/-- Whether a gate follows the last measurement among the operations on one
qubit. -/
def gateAfterMeasure (lane : List Operation) : Bool :=
  lane.any Operation.isMeasure &&
    (lane.reverse.takeWhile (!·.isMeasure)).any Operation.isGate

/-- The leaves that act on a qubit, in program order. -/
def leavesOn (q : Qubit) (ops : List Operation) : List Operation :=
  (Operation.leavesOfAll ops).filter (·.actsOn q)

end Dynamic

/-- Whether the circuit needs results of measurements while it runs. -/
def Circuit.isDynamic (c : Circuit) : Except PassError Bool :=
  match Dynamic.findFeedback c.ops with
  | .error e => .error e
  | .ok true => .ok true
  | .ok false =>
    .ok ((Operation.qubitsOfAll c.ops).toList.any fun q =>
      Dynamic.gateAfterMeasure (Dynamic.leavesOn q c.ops))

end QuantumCircuit
