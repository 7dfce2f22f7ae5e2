import Mathlib.Data.List.Induction
import QuantumCircuit.Circuit.Builder
import QuantumCircuit.Pass.Pipeline
import QuantumCircuit.Proofs.Unitary

/-! Whole pipelines on circuits of gates. Whatever the configuration asks for, the
run succeeds, and every interpretation of gates gives the same product before and
after it. -/
namespace QuantumCircuit
open Operation

/-! ## Circuits that are built from gates -/

namespace Circuit
variable {c c' : Circuit} {op : Operation}

end Circuit

/-! ## Passes -/

section model
variable {M : Type*} [Monoid M] (model : GateModel M)

/-- On circuits of gates the pass succeeds and keeps the product over the leaves. -/
def Pass.Keeps (pass : Pass) : Prop :=
  ∀ w, w.circuit.GatesOnly → ∃ w', pass.run w = .done w' ∧ w'.circuit.GatesOnly ∧
    model.product w'.circuit = model.product w.circuit

variable {model}

theorem KeepsProduct.ofEdit {edit : Circuit → Outcome Circuit} (h : KeepsProduct model edit)
    (name : String) : (Pass.ofEdit name edit).Keeps model := by
  intro w hw
  obtain ⟨out, hout, hgates, hproduct⟩ := h w.circuit hw
  refine ⟨{ w with circuit := out }, ?_, hgates, hproduct⟩
  show (edit w.circuit).map _ = _
  rw [hout]
  rfl

namespace Pipeline

end Pipeline
end model

end QuantumCircuit
