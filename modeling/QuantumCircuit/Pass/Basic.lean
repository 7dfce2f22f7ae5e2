import QuantumCircuit.Pass.Outcome
import QuantumCircuit.Pass.Properties
import QuantumCircuit.Circuit.Basic

/-! Passes: named steps on a circuit and the properties found out about it. -/
namespace QuantumCircuit

/-- Whether a pass only looks at the circuit or may change it. -/
inductive PassRole where
  | analysis
  | transformation
deriving DecidableEq, Repr

/-- What passes work on. -/
structure Workspace where
  circuit : Circuit
  properties : Properties := ∅

structure Pass where
  name : String
  role : PassRole := .transformation
  /-- Whether a pipeline runs the pass or leaves it out. -/
  shouldRun : Workspace → Bool := fun _ => true
  run : Workspace → Outcome Workspace

namespace Pass

/-- A pass that changes the circuit and keeps the properties. -/
def ofEdit (name : String) (edit : Circuit → Outcome Circuit) : Pass where
  name := name
  run w := (edit w.circuit).map fun c => { w with circuit := c }

/-- A pass that finds out the value of a property and keeps the circuit. -/
def ofAnalysis {α : Type} (name : String) (p : Property α)
    (analyse : Circuit → Except PassError α) : Pass where
  name := name
  role := .analysis
  run w := .ofExcept w ((analyse w.circuit).map fun a =>
    { w with properties := w.properties.insert p a })

end Pass
end QuantumCircuit
