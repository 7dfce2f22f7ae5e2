import QuantumCircuit.Proofs.Backpropagation
import QuantumCircuit.Proofs.Block.Gather
import QuantumCircuit.Proofs.Expand
import QuantumCircuit.Proofs.Renamed
import QuantumCircuit.Proofs.Reset.Relabel
import QuantumCircuit.Proofs.Schedule.Extension
import QuantumCircuit.Proofs.Walk

/-! Circuits made of gates alone. On them every pass succeeds and keeps the product
over the leaves; the passes for measurements, resets and layouts have nothing to
do. -/
namespace QuantumCircuit
open Operation

/-- Every leaf is a gate that passes the check and acts on counted qubits, and at
the end each qubit holds itself. -/
structure Circuit.GatesOnly (c : Circuit) : Prop where
  leaf : ∀ leaf ∈ leavesOfAll c.ops, ∃ g, leaf = .gate g ∧ g.validate = .ok () ∧
    ∀ q, g.actsOn q = true → q.index < c.numQubits
  output : c.output = .identity c.numQubits

/-- On circuits of gates the edit succeeds and keeps the product over the leaves. -/
def KeepsProduct {M : Type*} [Monoid M] (model : GateModel M) (edit : Circuit → Outcome Circuit) :
    Prop :=
  ∀ c, c.GatesOnly → ∃ out, edit c = .done out ∧ out.GatesOnly ∧
    model.product out = model.product c

variable {M : Type*} [Monoid M] (model : GateModel M) {c : Circuit} {op : Operation}

namespace Circuit.GatesOnly

theorem validate (h : c.GatesOnly) (hop : op ∈ c.ops) : op.validate = .ok () := by
  rw [validate_iff_leaves]
  intro leaf hleaf
  obtain ⟨g, rfl, hg, -⟩ := h.leaf leaf (mem_leavesOfAll.2 ⟨op, hop, hleaf⟩)
  exact hg

theorem index_lt (h : c.GatesOnly) (hop : op ∈ c.ops) {q : Qubit} (hq : op.actsOn q = true) :
    q.index < c.numQubits := by
  obtain ⟨leaf, hleaf, hacts⟩ := actsOn_iff_leaf.1 hq
  obtain ⟨g, rfl, -, hlt⟩ := h.leaf leaf (mem_leavesOfAll.2 ⟨op, hop, hleaf⟩)
  exact hlt q hacts

theorem exists_actsOn (h : c.GatesOnly) {leaf : Operation} (hleaf : leaf ∈ leavesOfAll c.ops) :
    ∃ q, leaf.actsOn q = true := by
  obtain ⟨g, rfl, hg, -⟩ := h.leaf leaf hleaf
  exact Gate.exists_actsOn_of_valid hg

/-- Other operations whose leaves are among those of the circuit. -/
theorem of_leaves (h : c.GatesOnly) {ops : List Operation}
    (hops : ∀ leaf ∈ leavesOfAll ops, leaf ∈ leavesOfAll c.ops) :
    Circuit.GatesOnly { c with ops := ops } :=
  ⟨fun leaf hleaf => h.leaf leaf (hops leaf hleaf), h.output⟩

theorem removeIdentities (h : c.GatesOnly) : c.removeIdentities.GatesOnly := by
  refine h.of_leaves fun leaf hleaf => ?_
  rw [leavesOfAll_stripAll] at hleaf
  exact (List.mem_filter.1 hleaf).1

end Circuit.GatesOnly

/-! ## Gates rewritten -/

end QuantumCircuit
