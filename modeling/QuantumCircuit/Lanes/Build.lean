import QuantumCircuit.Circuit.Basic
import QuantumCircuit.Lanes.Basic
import QuantumCircuit.Pass.Error

/-! The lanes of a circuit. Operations are checked as they are placed: at every
depth the kind must fit the shape, and a condition must be put on a gate. -/
namespace QuantumCircuit
namespace Operation

mutual
/-- Refuses an operation that is not well formed, its children included. -/
def check (pass : String) : Operation → Except PassError Unit
  | .gate g => if g.kind.isGate then .ok () else .error (.unexpectedKind g.kind pass)
  | .effect e =>
    if (Operation.effect e).isWellFormed then .ok () else .error (.unexpectedKind e.kind pass)
  | .conditional _ body =>
    if !body.isGate then .error (.conditionOn body.kind)
    else if !body.isWellFormed then .error (.unexpectedKind .classicControlled pass)
    else .ok ()
  | .compound children => checkAll pass children

def checkAll (pass : String) : List Operation → Except PassError Unit
  | [] => .ok ()
  | op :: rest =>
    match op.check pass with
    | .ok () => checkAll pass rest
    | .error e => .error e
end

end Operation

namespace Lanes

/-- Places an operation on the lane of every qubit it touches. -/
def add (l : Lanes) (slot : Nat) (op : Operation) (pass : String) : Except PassError Lanes :=
  match op.check pass with
  | .ok () => .ok (l.pushAll op.qubits.toList slot)
  | .error e => .error e

/-- Empty lanes for every qubit of a circuit. -/
def forCircuit (c : Circuit) : Lanes :=
  .ofCount (match c.maxPhysical? with | some q => q.index + 1 | none => 0)

/-- Places operations that follow one another from a slot on. -/
def addFrom (pass : String) : Nat → List Operation → Lanes → Except PassError Lanes
  | _, [], l => .ok l
  | slot, op :: rest, l =>
    match l.add slot op pass with
    | .ok l => addFrom pass (slot + 1) rest l
    | .error e => .error e

/-- The lanes of all top-level operations. -/
def build (c : Circuit) (pass : String) : Except PassError Lanes :=
  addFrom pass 0 c.ops (forCircuit c)

/-- The lanes with the name of each operation beside its slot. -/
def describe (ops : List Operation) (l : Lanes) : String :=
  l.render fun s =>
    (match ops[s]? with | some op => op.name | none => "?") ++ "#" ++ toString s

end Lanes
end QuantumCircuit
