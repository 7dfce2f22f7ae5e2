import QuantumCircuit.Proofs.Expand
import QuantumCircuit.Proofs.Placement
import QuantumCircuit.Proofs.Reset.Relabel

/-! Compounds as mere grouping. The passes that work at every depth see the leaves
of a circuit in order and nothing else, so it makes no difference whether the compounds
are taken apart before or after them. -/
namespace QuantumCircuit
open Operation

namespace Operation

@[simp] theorem leavesOfAll_leavesOfAll (ops : List Operation) :
    leavesOfAll (leavesOfAll ops) = leavesOfAll ops :=
  leavesOfAll_eq_self fun _ hleaf => isCompound_of_mem_leavesOfAll hleaf

theorem substituteAll_eq_flatMap (f : Substitution) (ops : List Operation) :
    substituteAll f ops = ops.flatMap (substitute f) := by
  induction ops with
  | nil => rfl
  | cons op rest ih => rw [substituteAll, ih, List.flatMap_cons]

/-- A list of operations acts on the qubits of its leaves. -/
theorem exists_actsOn_leavesOfAll {ops : List Operation} {P : Qubit → Prop} :
    (∃ leaf ∈ leavesOfAll ops, ∃ q, leaf.actsOn q = true ∧ P q) ↔
      ∃ op ∈ ops, ∃ q, op.actsOn q = true ∧ P q := by
  constructor
  · rintro ⟨leaf, hleaf, q, hq, hP⟩
    obtain ⟨op, hop, hmem⟩ := mem_leavesOfAll.1 hleaf
    exact ⟨op, hop, q, actsOn_iff_leaf.2 ⟨leaf, hmem, hq⟩, hP⟩
  · rintro ⟨op, hop, q, hq, hP⟩
    obtain ⟨leaf, hmem, hleaf⟩ := actsOn_iff_leaf.1 hq
    exact ⟨leaf, mem_leavesOfAll.2 ⟨op, hop, hmem⟩, q, hleaf, hP⟩

end Operation

/-! ## Passes -/

namespace Circuit
variable (c : Circuit)

theorem substitute_flatten (f : Substitution) :
    c.flatten.substitute f = (c.substitute f).flatten := by
  rw [flatten, flatten, substitute, substitute]
  dsimp only
  rw [leavesOfAll_substituteAll, substituteAll_eq_flatMap]

theorem flatten_of_ops_nil {c : Circuit} (h : c.ops = []) : c.flatten = c := by
  rw [flatten, h]
  show { c with ops := [] } = c
  rw [← h]

theorem maxPhysical?_flatten : c.flatten.maxPhysical? = c.maxPhysical? := by
  refine eq_of_atLeast_iff fun q => ?_
  rw [atLeast_maxPhysical?, atLeast_maxPhysical?]
  exact or_congr_right (or_congr_right exists_actsOn_leavesOfAll)

theorem unrenamed_flatten : c.flatten.unrenamed = c.unrenamed := by
  rw [unrenamed, unrenamed, firstFree, firstFree, maxPhysical?_flatten]
  rfl

theorem resetTargets_flatten : c.flatten.resetTargets = c.resetTargets := by
  simp [resetTargets, flatten]

theorem freshened_flatten : c.flatten.freshened = c.freshened := by
  rw [freshened, freshened, unrenamed_flatten, resetTargets_flatten]

theorem eliminateResets_flatten :
    c.flatten.eliminateResets = c.eliminateResets.map flatten := by
  cases hfresh : c.freshened with
  | done r =>
    obtain ⟨ops, hrun, hleaves, -⟩ := eliminateResets_of_done hfresh
    rw [hrun, eliminateResets_of_flat (c.freshened_flatten.trans hfresh)
      (fun op hop => isCompound_of_mem_leavesOfAll hop), unrenamed_flatten]
    show Outcome.done { r.circuit with ops := c.unrenamed.relabelLeaves (leavesOfAll c.ops) } =
      .done { r.circuit with ops := leavesOfAll ops }
    rw [hleaves]
  | failed cause r =>
    rw [eliminateResets_of_failed hfresh,
      eliminateResets_of_failed (c.freshened_flatten.trans hfresh)]
    have hops : r.circuit.ops = [] := by
      have hnone := c.ops_freshened
      rwa [hfresh] at hnone
    rw [Outcome.map, flatten_of_ops_nil hops]

theorem startPlacement_flatten : c.flatten.startPlacement = c.startPlacement := by
  have hundo : Placement.undoAll c.flatten.ops (.ofOutput c.flatten) =
      Placement.undoAll c.ops (.ofOutput c) := Placement.undoAll_leavesOfAll c.ops (.ofOutput c)
  rw [startPlacement, startPlacement, hundo]
  rfl

theorem backpropagateOutput_flatten :
    c.flatten.backpropagateOutput = c.backpropagateOutput.map flatten := by
  rw [backpropagateOutput_eq, backpropagateOutput_eq, startPlacement_flatten]
  cases c.startPlacement <;> rfl

/-- Expanding SWAPs or controlled X gates, eliminating resets and deriving the initial
layout each lead to the same circuit whether the compounds are taken apart before or
after; a failure has the same cause either way. -/
theorem passes_flatten :
    (∀ directed, c.flatten.decomposeSwaps directed = (c.decomposeSwaps directed).flatten) ∧
      c.flatten.replaceControlledX = c.replaceControlledX.flatten ∧
      c.flatten.eliminateResets = c.eliminateResets.map flatten ∧
      c.flatten.backpropagateOutput = c.backpropagateOutput.map flatten :=
  ⟨fun directed => c.substitute_flatten (expandSwap directed),
    c.substitute_flatten expandControlledX, c.eliminateResets_flatten,
    c.backpropagateOutput_flatten⟩

end Circuit
end QuantumCircuit
