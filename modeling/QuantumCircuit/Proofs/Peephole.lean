import QuantumCircuit.Proofs.Action

/-! The sweeps over pairs and runs of gates keep the meaning of a circuit. They succeed on
every circuit whose operations pass the check, change nothing but its operations, and what
they leave has the same meaning, in every monoid with the laws that the rules rest on. No
identity is left, and what is new are gates that pass the check. -/
namespace QuantumCircuit
open Operation

variable {M : Type*} [Monoid M] {val : Operation → M} {c : Circuit}

namespace Circuit

theorem cancelCnots_keeps_meaning (laws : PairLaws val)
    (hvalid : ∀ op ∈ c.ops, op.validate = .ok ()) :
    ∃ ops, c.cancelCnots = .done { c with ops := ops } ∧
      meaning val ops = meaning val c.ops ∧
      ∀ leaf ∈ leavesOfAll ops, leaf.isIdentity = false ∧ Sweep.Derived c.ops leaf := by
  have hstep : ∀ k s, k < c.ops.length → Sweep.Inv val c.ops k s →
      ∃ s', CnotCancellation.step k s = .ok s' ∧ Sweep.Inv val c.ops (k + 1) s' :=
    fun _ _ hk h => CnotCancellation.step_spec laws hvalid hk h
  exact Sweep.run_spec laws.one hstep

/-- CNOTs on one pair of qubits in both directions, with a measurement of a third qubit, a
gate that depends on it and a compound in between. -/
def crossing : Circuit :=
  { Circuit.withSize "crossing" 3 1 with
    ops := [.gate (.cnot ⟨0⟩ ⟨1⟩), .effect ⟨.measure, [⟨2⟩], [⟨0⟩]⟩, .gate (.cnot ⟨1⟩ ⟨0⟩),
      .conditional ⟨.single ⟨0⟩, 1⟩ (.gate (.ofKind .x [⟨2⟩])), .gate (.cnot ⟨0⟩ ⟨1⟩),
      .compound [.gate (.ofKind .h [⟨2⟩]), .gate (.ofKind .z [⟨2⟩])], .gate (.cnot ⟨1⟩ ⟨0⟩),
      .gate (.cnot ⟨0⟩ ⟨1⟩)] }

theorem cancelCnots_keeps_meaning_crossing :
    PairLaws action ∧ (∀ op ∈ crossing.ops, op.validate = .ok ()) ∧
      ∃ ops, crossing.cancelCnots = .done { crossing with ops := ops } ∧
        ops = [.gate (.cnot ⟨1⟩ ⟨0⟩), .effect ⟨.measure, [⟨2⟩], [⟨0⟩]⟩,
          .conditional ⟨.single ⟨0⟩, 1⟩ (.gate (.ofKind .x [⟨2⟩])),
          .compound [.gate (.ofKind .h [⟨2⟩]), .gate (.ofKind .z [⟨2⟩])]] ∧
        ∀ s, execAll ops s = execAll crossing.ops s := by
  have hvalid : ∀ op ∈ crossing.ops, op.validate = .ok () :=
    validateAll_eq_ok_iff.1 rfl
  obtain ⟨ops, hdone, hmeaning, -⟩ := cancelCnots_keeps_meaning pairLaws_action hvalid
  have hops : ops = crossing.cancelCnots.state.ops := by rw [hdone]; rfl
  refine ⟨pairLaws_action, hvalid, ops, hdone, ?_, meaning_action_eq_iff.1 hmeaning⟩
  rw [hops]
  rfl

theorem reconstructSwaps_keeps_meaning (laws : PairLaws val)
    (hvalid : ∀ op ∈ c.ops, op.validate = .ok ()) :
    ∃ ops, c.reconstructSwaps = .done { c with ops := ops } ∧
      meaning val ops = meaning val c.ops ∧
      ∀ leaf ∈ leavesOfAll ops, leaf.isIdentity = false ∧ Sweep.Derived c.ops leaf := by
  have hstep : ∀ k s, k < c.ops.length → Sweep.Inv val c.ops k s →
      ∃ s', SwapReconstruction.step k s = .ok s' ∧ Sweep.Inv val c.ops (k + 1) s' :=
    fun _ _ hk h => SwapReconstruction.step_spec laws hvalid hk h
  exact Sweep.run_spec laws.one hstep

theorem reconstructSwaps_keeps_meaning_crossing :
    PairLaws action ∧ (∀ op ∈ crossing.ops, op.validate = .ok ()) ∧
      ∃ ops, crossing.reconstructSwaps = .done { crossing with ops := ops } ∧
        ops = [.gate (.swap ⟨0⟩ ⟨1⟩), .effect ⟨.measure, [⟨2⟩], [⟨0⟩]⟩,
          .conditional ⟨.single ⟨0⟩, 1⟩ (.gate (.ofKind .x [⟨2⟩])),
          .compound [.gate (.ofKind .h [⟨2⟩]), .gate (.ofKind .z [⟨2⟩])],
          .gate (.swap ⟨0⟩ ⟨1⟩), .gate (.cnot ⟨1⟩ ⟨0⟩)] ∧
        ∀ s, execAll ops s = execAll crossing.ops s := by
  have hvalid : ∀ op ∈ crossing.ops, op.validate = .ok () :=
    validateAll_eq_ok_iff.1 rfl
  obtain ⟨ops, hdone, hmeaning, -⟩ := reconstructSwaps_keeps_meaning pairLaws_action hvalid
  have hops : ops = crossing.reconstructSwaps.state.ops := by rw [hdone]; rfl
  refine ⟨pairLaws_action, hvalid, ops, hdone, ?_, meaning_action_eq_iff.1 hmeaning⟩
  rw [hops]
  rfl

theorem fuseSingleQubitGates_keeps_meaning (laws : SingleLaws val)
    (hvalid : ∀ op ∈ c.ops, op.validate = .ok ()) :
    ∃ ops, c.fuseSingleQubitGates = .done { c with ops := ops } ∧
      meaning val ops = meaning val c.ops ∧
      ∀ leaf ∈ leavesOfAll ops, leaf.isIdentity = false ∧ Sweep.Derived c.ops leaf := by
  have hstep : ∀ k s, k < c.ops.length → Sweep.Inv val c.ops k s →
      ∃ s', Fusion.step k s = .ok s' ∧ Sweep.Inv val c.ops (k + 1) s' :=
    fun _ _ hk h => Fusion.step_spec laws hvalid hk h
  exact Sweep.run_spec laws.one hstep

/-- On the first qubit a run of gates that grows, shrinks to nothing and starts again; on the
second one a compound that loses its last gate, and two gates that cancel behind a CNOT. -/
def tangle : Circuit :=
  { Circuit.withSize "tangle" 2 1 with
    ops := [.gate (.ofKind .s [⟨0⟩]), .effect ⟨.measure, [⟨1⟩], [⟨0⟩]⟩, .gate (.ofKind .h [⟨0⟩]),
      .conditional ⟨.single ⟨0⟩, 1⟩ (.gate (.ofKind .x [⟨1⟩])), .gate (.ofKind .h [⟨0⟩]),
      .gate (.ofKind .sdg [⟨0⟩]), .gate (.ofKind .x [⟨0⟩]),
      .compound [.gate (.ofKind .z [⟨1⟩]), .gate (.ofKind .x [⟨1⟩])], .gate (.ofKind .x [⟨1⟩]),
      .gate (.cnot ⟨0⟩ ⟨1⟩), .gate (.ofKind .x [⟨1⟩]), .gate (.ofKind .x [⟨1⟩])] }

theorem fuseSingleQubitGates_keeps_meaning_tangle :
    SingleLaws action ∧ (∀ op ∈ tangle.ops, op.validate = .ok ()) ∧
      ∃ ops, tangle.fuseSingleQubitGates = .done { tangle with ops := ops } ∧
        ops = [.gate (.ofKind .x [⟨0⟩]), .effect ⟨.measure, [⟨1⟩], [⟨0⟩]⟩,
          .conditional ⟨.single ⟨0⟩, 1⟩ (.gate (.ofKind .x [⟨1⟩])), .gate (.ofKind .z [⟨1⟩]),
          .gate (.cnot ⟨0⟩ ⟨1⟩)] ∧
        ∀ s, execAll ops s = execAll tangle.ops s := by
  have hvalid : ∀ op ∈ tangle.ops, op.validate = .ok () :=
    validateAll_eq_ok_iff.1 rfl
  obtain ⟨ops, hdone, hmeaning, -⟩ := fuseSingleQubitGates_keeps_meaning singleLaws_action hvalid
  have hops : ops = tangle.fuseSingleQubitGates.state.ops := by rw [hdone]; rfl
  refine ⟨singleLaws_action, hvalid, ops, hdone, ?_, meaning_action_eq_iff.1 hmeaning⟩
  rw [hops]
  rfl

end Circuit
end QuantumCircuit
