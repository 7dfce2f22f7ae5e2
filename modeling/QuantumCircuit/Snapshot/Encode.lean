import QuantumCircuit.Circuit.Basic
import QuantumCircuit.Snapshot.Format

/-! Circuits as text: records with their fields in a fixed order, and a tag for its shape
on each operation. -/
namespace QuantumCircuit

namespace Format
variable (F : Format)

def qubit (q : Qubit) : F.Value := F.natural q.index

def clbit (b : Clbit) : F.Value := F.natural b.index

def control (c : Control) : F.Value :=
  F.record
    [("qubit", F.qubit c.qubit),
     ("kind", F.symbol (match c.polarity with | .negative => "Neg" | .positive => "Pos"))]

def gate (g : Gate) : F.Value :=
  F.record
    [("op_type", F.symbol g.kind.tag),
     ("controls", F.list (g.controls.toList.map F.control)),
     ("targets", F.list (g.targets.map F.qubit)),
     ("params", F.list (g.params.map F.double))]

def effect (e : Effect) : F.Value :=
  F.record
    [("op_type", F.symbol e.kind.tag),
     ("targets", F.list (e.targets.map F.qubit)),
     ("classics", F.list (e.clbits.map F.clbit))]

def register (r : Register) : F.Value :=
  F.record [("start", F.clbit r.start), ("size", F.natural r.size)]

mutual
def operation : Operation → F.Value
  | .gate g => F.tagged "Standard" (F.gate g)
  | .compound children =>
    F.tagged "Compound" (F.record [("ops", F.list (operations children))])
  | .effect e => F.tagged "NonUnitary" (F.effect e)
  | .conditional cond body =>
    F.tagged "ClassicControlled" (F.record
      [("op", operation body),
       ("register", F.register cond.register),
       ("expected_value", F.natural cond.value.toNat)])

def operations : List Operation → List F.Value
  | [] => []
  | op :: rest => operation op :: operations rest
end

def layout (l : Layout) : F.Value :=
  F.list (l.entries.map fun e => F.list [F.qubit e.1, F.qubit e.2])

def circuit (c : Circuit) : F.Value :=
  F.record
    [("name", F.text c.name),
     ("num_qubits", F.natural c.numQubits),
     ("num_clbits", F.natural c.numClbits),
     ("ops", F.list (F.operations c.ops)),
     ("initial_layout", F.layout c.initial),
     ("output_permutation", F.layout c.output)]

/-- The text of a circuit. -/
def encode (c : Circuit) : String := F.write (F.circuit c)

end Format
end QuantumCircuit
