import QuantumCircuit.Ordered.Map
import QuantumCircuit.Qubit

/-! Layouts: which logical qubit each physical qubit holds. -/
namespace QuantumCircuit

/-- A partial map from physical to logical qubits. -/
abbrev Layout := OrderedMap Qubit Qubit

namespace Layout

/-- Qubits 0 to `n - 1`, each holding itself. -/
def identity (n : Nat) : Layout where
  entries := (List.range n).map fun i => (⟨i⟩, ⟨i⟩)
  ascending := by
    rw [List.pairwise_map]
    exact List.pairwise_lt_range

/-- Exchanges what two physical qubits hold; an unassigned one passes that on. -/
def swap (l : Layout) (a b : Qubit) : Layout :=
  let la := l.get? a
  let l := OrderedMap.erase l a
  let lb := l.get? b
  let l := OrderedMap.erase l b
  let l := match lb with | some x => OrderedMap.insert l a x | none => l
  match la with | some x => OrderedMap.insert l b x | none => l

end Layout
end QuantumCircuit
