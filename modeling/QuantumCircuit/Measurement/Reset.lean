import QuantumCircuit.Circuit.Basic
import QuantumCircuit.Pass.Outcome

/-! Resets replaced by fresh qubits. A reset target gets a new qubit above all
that are in use, and later operations use it in place of the target. -/
namespace QuantumCircuit

/-- The circuit with the qubits added so far, and the qubit that now stands in
for each reset one. -/
structure Renaming where
  circuit : Circuit
  standIn : OrderedMap Qubit Qubit := ∅
  /-- The next fresh qubit. -/
  next : Nat
deriving Repr

namespace Renaming

def apply (r : Renaming) (q : Qubit) : Qubit := (r.standIn.get? q).getD q

/-- Lets a fresh qubit stand in for `q`. -/
def refresh (q : Qubit) (r : Renaming) : Except PassError Renaming :=
  let fresh : Qubit := ⟨r.next⟩
  match r.circuit.addQubit fresh fresh fresh with
  | .ok c => .ok { circuit := c, standIn := r.standIn.insert q fresh, next := wordAdd r.next 1 }
  | .error e => .error (.circuit e)

mutual
/-- What is left of an operation: nothing of a reset, nor of a compound all of
whose children go. -/
def relabel : Operation → Renaming → Outcome (Renaming × Option Operation)
  | .gate g, r => .done (r, some (.gate (g.mapQubits r.apply)))
  | .conditional cond body, r => .done (r, some (.conditional cond (body.mapQubits r.apply)))
  | .effect e, r =>
    if e.kind = .reset then (Outcome.forEach refresh e.targets r).map fun r => (r, none)
    else .done (r, some (.effect { e with targets := e.targets.map r.apply }))
  | .compound children, r =>
    match relabelAll children r with
    | .failed cause (r, _) => .failed cause (r, none)
    | .done (r, []) => .done (r, none)
    | .done (r, op :: ops) => .done (r, some (.compound (op :: ops)))

def relabelAll : List Operation → Renaming → Outcome (Renaming × List Operation)
  | [], r => .done (r, [])
  | op :: rest, r =>
    match relabel op r with
    | .failed cause (r, _) => .failed cause (r, [])
    | .done (r, op?) =>
      (relabelAll rest r).map fun (r, ops) => (r, op?.toList ++ ops)
end

end Renaming

namespace Circuit

/-- The first qubit above all that are in use, if the highest one is not the last word;
then it is the first one above the count. -/
def firstFree (c : Circuit) : Nat :=
  max (match c.maxPhysical? with | some q => wordAdd q.index 1 | none => 0) c.numQubits

def eliminateResets (c : Circuit) : Outcome Circuit :=
  let start : Renaming := { circuit := { c with ops := [] }, next := c.firstFree }
  match Renaming.relabelAll c.ops start with
  | .failed cause (r, _) => .failed cause r.circuit
  | .done (r, ops) => .done { r.circuit with ops }

end Circuit
end QuantumCircuit
