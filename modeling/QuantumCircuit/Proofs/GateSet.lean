import Mathlib
import QuantumCircuit.Proofs.StateVector

/-! Circuits without SWAPs, and without controlled X gates. A gate is replaced in its place,
however deep it stands; none of its kind is left, and every state vector evolves as before. -/
namespace QuantumCircuit
open Operation

variable {R : Type*} [CommRing R] {h : R} {g : Gate} {gates : List Gate}

/-! ## What is left -/

/-- After a substitution that brings in no gate to be replaced there is none. -/
theorem Operation.eq_none_of_mem_substituteAll {f : Substitution} {ops : List Operation}
    (hf : ∀ {g : Gate} {gates : List Gate}, f g = some gates → ∀ g' ∈ gates, f g' = none)
    (hg : .gate g ∈ leavesOfAll (substituteAll f ops)) : f g = none := by
  rw [leavesOfAll_substituteAll, List.mem_flatMap] at hg
  obtain ⟨old, hold, hnew⟩ := hg
  cases old with
  | compound children => cases isCompound_of_mem_leavesOfAll hold
  | effect e => cases List.mem_singleton.1 hnew
  | conditional cond body => cases List.mem_singleton.1 hnew
  | gate g₀ =>
    rw [substitute] at hnew
    split at hnew
    · next gates hgates =>
      obtain ⟨g', hg', heq⟩ := List.mem_map.1 hnew
      cases heq
      exact hf hgates g hg'
    · next hnone =>
      cases List.mem_singleton.1 hnew
      exact hnone

theorem expandSwap_eq_none_iff {directed : Bool} :
    expandSwap directed g = none ↔ ¬ (g.kind = .swap ∧ g.targets.length = 2) := by
  rw [expandSwap]
  split
  · next hkind htargets => cases directed <;> simp [hkind, htargets]
  · next hno =>
    refine iff_of_true rfl fun hswap => ?_
    obtain ⟨a, b, htargets⟩ := List.length_eq_two.1 hswap.2
    exact hno a b hswap.1 htargets

theorem expandControlledX_eq_none_iff :
    expandControlledX g = none ↔
      ¬ (g.kind = .x ∧ g.targets.length = 1 ∧ g.controls.isEmpty = false) := by
  rw [expandControlledX]
  split
  · next hkind htargets => cases hc : g.controls.isEmpty <;> simp [hkind, htargets]
  · next hno =>
    refine iff_of_true rfl fun hx => ?_
    obtain ⟨t, htargets⟩ := List.length_eq_one_iff.1 hx.2.1
    exact hno t hx.1 htargets

/-- The expansion of a SWAP is made of X and H gates. -/
theorem kind_expandSwap {directed : Bool} (hg : expandSwap directed g = some gates) :
    ∀ g' ∈ gates, g'.kind = .x ∨ g'.kind = .h := by
  obtain ⟨a, b, -, -, rfl⟩ := expandSwap_eq_some hg
  cases directed <;> simp [Gate.cnot, Gate.controlled, Gate.controlledX, hadamard, Gate.ofKind]

theorem expandControlledX_eq_some (hg : expandControlledX g = some gates) :
    ∃ t, g.kind = .x ∧ g.targets = [t] ∧
      gates = [hadamard t, .controlledZ g.controls t, hadamard t] := by
  rw [expandControlledX] at hg
  split at hg
  · next t hkind htargets =>
    split at hg
    · cases hg
    · exact ⟨t, hkind, htargets, (Option.some.inj hg).symm⟩
  · cases hg

/-- The expansion of a SWAP has no SWAP to be expanded. -/
theorem expandSwap_expanded {directed : Bool} (hgates : expandSwap directed g = some gates) :
    ∀ g' ∈ gates, expandSwap directed g' = none := by
  intro g' hg'
  rw [expandSwap_eq_none_iff]
  rcases kind_expandSwap hgates g' hg' with hkind | hkind <;> simp [hkind]

/-- The expansion of a controlled X has no controlled X. -/
theorem expandControlledX_expanded (hgates : expandControlledX g = some gates) :
    ∀ g' ∈ gates, expandControlledX g' = none := by
  intro g' hg'
  obtain ⟨t, -, -, rfl⟩ := expandControlledX_eq_some hgates
  rw [expandControlledX_eq_none_iff]
  simp only [List.mem_cons, List.not_mem_nil, or_false] at hg'
  rcases hg' with rfl | rfl | rfl <;> simp [hadamard, Gate.ofKind, Gate.controlledZ]

/-- In the directed form every X gate points from the first target to the second. -/
theorem mem_substitute_expandSwap {a b : Qubit} (hkind : g.kind = .swap)
    (htargets : g.targets = [a, b]) {op : Operation}
    (hop : op ∈ (Operation.gate g).substitute (expandSwap true)) (hx : op.kind = .x) :
    op.targets = [b] ∧ .pos a ∈ op.controls := by
  have hsome : expandSwap true g ≠ none := by
    rw [Ne, expandSwap_eq_none_iff, not_not]
    exact ⟨hkind, by rw [htargets]; rfl⟩
  rw [substitute] at hop
  split at hop
  · next gates hgates =>
    obtain ⟨g', hg', rfl⟩ := List.mem_map.1 hop
    obtain ⟨a', b', -, htargets', rfl⟩ := expandSwap_eq_some hgates
    cases htargets.symm.trans htargets'
    have houter : (Gate.cnot a b).targets = [b] ∧ .pos a ∈ (Gate.cnot a b).controls :=
      ⟨rfl, List.mem_singleton_self _⟩
    have hmiddle : .pos a ∈ OrderedSet.insert g.controls (.pos a) :=
      OrderedSet.mem_insert.2 (.inl rfl)
    simp only [if_true, List.mem_cons, List.not_mem_nil, or_false] at hg'
    rcases hg' with rfl | rfl | rfl | rfl | rfl | rfl | rfl
    · exact houter
    · cases hx
    · cases hx
    · exact ⟨rfl, hmiddle⟩
    · cases hx
    · cases hx
    · exact houter
  · next hnone => exact absurd hnone hsome

/-! ## State vectors -/

/-- A substitution that keeps the value of each gate keeps what happens to state vectors. -/
theorem evolveAll_substituteAll (hh : 2 * h * h = 1) {f : Substitution} {ops : List Operation}
    (hops : ∀ op ∈ ops, op.validate = .ok ())
    (hf : ∀ {g : Gate} {gates : List Gate}, g.validate = .ok () → f g = some gates →
      (gates.map (vectorModel hh).eval).prod = (vectorModel hh).eval g) (ψ : StateVector R) :
    evolveAll h (substituteAll f ops) ψ = evolveAll h ops ψ := by
  have hmeaning := (vectorModel hh).meaning_substituteAll hops hf
  rw [meaning_vectorModel, meaning_vectorModel] at hmeaning
  exact congrFun (MulOpposite.op_injective hmeaning) ψ

/-- The factor of H over the reals. -/
theorem two_mul_sqrt_half : 2 * √(1 / 2 : ℝ) * √(1 / 2) = 1 := by
  rw [mul_assoc, Real.mul_self_sqrt (by norm_num)]
  norm_num

namespace Circuit

/-- Decomposing SWAPs keeps every state vector. No SWAP of two targets is left at any depth;
each leaf is replaced in its place, and in the directed form every X gate in place of a SWAP
points from its first target to its second. -/
theorem decomposeSwaps_keeps_vectors (hh : 2 * h * h = 1) {c : Circuit}
    (hops : ∀ op ∈ c.ops, op.validate = .ok ()) (directed : Bool) :
    (∀ ψ : StateVector R, evolveAll h (c.decomposeSwaps directed).ops ψ = evolveAll h c.ops ψ) ∧
    (∀ g, .gate g ∈ (c.decomposeSwaps directed).flatten.ops →
      ¬ (g.kind = .swap ∧ g.targets.length = 2)) ∧
    (c.decomposeSwaps directed).flatten.ops =
      c.flatten.ops.flatMap (Operation.substitute (expandSwap directed)) ∧
    (directed = true → ∀ g a b, g.kind = .swap → g.targets = [a, b] →
      ∀ op ∈ (Operation.gate g).substitute (expandSwap directed), op.kind = .x →
        op.targets = [b] ∧ .pos a ∈ op.controls) := by
  refine ⟨evolveAll_substituteAll hh hops (eval_expandSwap _), ?_, leavesOfAll_substituteAll c.ops,
    ?_⟩
  · intro g hg
    exact expandSwap_eq_none_iff.1 (eq_none_of_mem_substituteAll expandSwap_expanded hg)
  · rintro rfl g a b hkind htargets op hop hx
    exact mem_substitute_expandSwap hkind htargets hop hx

/-- SWAPs under controls of both polarities, one of them two compounds deep. -/
def exchanges : Circuit :=
  { withSize "exchanges" 4 0 with
    ops := [.gate (hadamard ⟨0⟩), .compound [
      .gate (.controlled .swap [.neg ⟨0⟩] [⟨2⟩, ⟨3⟩]),
      .compound [.gate (.controlled .swap [.pos ⟨3⟩, .neg ⟨2⟩] [⟨1⟩, ⟨0⟩]),
        .gate (.ofKind .z [⟨1⟩])]],
      .gate (.ofKind .swap [⟨0⟩, ⟨3⟩])] }

theorem decomposeSwaps_keeps_vectors_exchanges :
    2 * √(1 / 2 : ℝ) * √(1 / 2) = 1 ∧ (∀ op ∈ exchanges.ops, op.validate = .ok ()) ∧
    (∀ ψ : StateVector ℝ, evolveAll √(1 / 2) (exchanges.decomposeSwaps true).ops ψ =
      evolveAll √(1 / 2) exchanges.ops ψ) ∧
    ∀ g, .gate g ∈ (exchanges.decomposeSwaps true).flatten.ops →
      ¬ (g.kind = .swap ∧ g.targets.length = 2) := by
  have hops : ∀ op ∈ exchanges.ops, op.validate = .ok () := by decide
  obtain ⟨hvectors, hnone, -⟩ := decomposeSwaps_keeps_vectors two_mul_sqrt_half hops true
  exact ⟨two_mul_sqrt_half, hops, hvectors, hnone⟩

end Circuit
end QuantumCircuit
