import QuantumCircuit.Yaml.Scalar

/-! Anchors: names for nodes, and what a reference to a name stands for. -/
namespace QuantumCircuit.Yaml

/-- The anchors of a document. `numbers` has each name once, with the number
that it was given last. `targets` has what was given each number, latest first:
a scalar, or none for a collection. -/
structure Anchors where
  numbers : List (String × Nat) := []
  targets : List (Nat × Option Scalar) := []
deriving DecidableEq, Repr

namespace Anchors

/-- Gives a node a name. Its number tells how many names are known. So a name
that is used again shares its new number with the next new name. -/
def define (a : Anchors) (name : String) (target : Option Scalar) : Anchors :=
  let number := a.numbers.length
  ⟨(name, number) :: a.numbers.filter (·.1 ≠ name), (number, target) :: a.targets⟩

/-- The number that a reference to a name gets. -/
def number? (a : Anchors) (name : String) : Option Nat := a.numbers.lookup name

/-- The scalar that a number stands for once the document is complete. That is
the last one with the number, which may come after the reference. -/
def scalar? (a : Anchors) (number : Nat) : Option Scalar := (a.targets.lookup number).join

end Anchors
end QuantumCircuit.Yaml
