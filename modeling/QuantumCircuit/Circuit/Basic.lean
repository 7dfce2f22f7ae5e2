import QuantumCircuit.Layout
import QuantumCircuit.Operation.Validity

/-! Circuits: operations in program order, with the layouts at their start and
end. -/
namespace QuantumCircuit

structure Circuit where
  name : String
  numQubits : Nat := 0
  numClbits : Nat := 0
  ops : List Operation := []
  /-- What each physical qubit holds at the start. -/
  initial : Layout := ∅
  /-- What each physical qubit holds at the end. -/
  output : Layout := ∅
deriving DecidableEq, Repr, Inhabited

namespace Circuit

/-- An empty circuit in which every qubit holds itself. -/
def withSize (name : String) (numQubits numClbits : Nat) : Circuit where
  name := name
  numQubits := numQubits
  numClbits := numClbits
  initial := .identity numQubits
  output := .identity numQubits

def countKind (c : Circuit) (k : Kind) : Nat := c.ops.countP (·.kind = k)

/-- Every compound is replaced by its children, down to operations that are not
compounds. -/
def flatten (c : Circuit) : Circuit := { c with ops := Operation.leavesOfAll c.ops }

/-- The greater of two optional qubits. -/
def maxQubit? (a b : Option Qubit) : Option Qubit :=
  match a, b with
  | some x, some y => if x.index ≤ y.index then some y else some x
  | some x, none => some x
  | none, y => y

/-- The highest qubit in the initial layout, the qubit count or an operation. -/
def maxPhysical? (c : Circuit) : Option Qubit :=
  let counted := if c.numQubits = 0 then none else some ⟨c.numQubits - 1⟩
  (c.ops.map (·.qubits.max?)).foldl maxQubit? (maxQubit? c.initial.maxKey? counted)

/-- Adds a qubit that is not yet in the initial layout. -/
def addQubit (c : Circuit) (physical logical outputLogical : Qubit) :
    Except CircuitError Circuit :=
  if c.initial.contains physical then .error (.duplicateQubit physical none)
  else
    .ok { c with
      initial := c.initial.insert physical logical
      output := c.output.insert physical outputLogical
      numQubits := wordAdd c.numQubits 1 }

/-- Adds classical bits and gives the first new one. -/
def addClbits (c : Circuit) (count : Nat) : Clbit × Circuit :=
  (⟨c.numClbits⟩, { c with numClbits := wordAdd c.numClbits count })

/-- Which qubit each top-level measurement sends to which bit; of several
measurements of one qubit the last counts. -/
def measuredLayout (ops : List Operation) : Layout :=
  .ofList <| (ops.filter (·.isMeasure)).flatMap fun op =>
    op.targets.zip (op.clbits.map fun b => ⟨b.index⟩)

/-- Fills in missing layouts. An empty initial layout becomes the identity; an
empty output layout follows the measurements, or without any the initial
layout. -/
def fillLayouts (c : Circuit) : Circuit :=
  let initial := if c.initial.isEmpty then .identity c.numQubits else c.initial
  let measured := measuredLayout c.ops
  let output :=
    if !c.output.isEmpty then c.output
    else if measured.isEmpty then initial
    else measured
  { c with initial, output }

end Circuit
end QuantumCircuit
