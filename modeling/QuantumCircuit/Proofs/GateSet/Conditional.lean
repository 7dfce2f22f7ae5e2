import Mathlib
import QuantumCircuit.Proofs.GateSet

/-! The gates that a change of the gate set leaves. A substitution goes through compounds and
stops at conditions: of the gates it is to replace, those under a condition are left, and
no other ones. -/
namespace QuantumCircuit
namespace Operation

/-! ## The gates of operations -/

mutual
/-- The gates of an operation, those of its children and the one under its condition
included. -/
def gates : Operation → List Gate
  | .gate g => [g]
  | .compound children => gatesOfAll children
  | .effect _ => []
  | .conditional _ body => body.gates

def gatesOfAll : List Operation → List Gate
  | [] => []
  | op :: rest => op.gates ++ gatesOfAll rest
end

/-- The gates under the condition of an operation. -/
def gatesUnderCondition : Operation → List Gate
  | .conditional _ body => body.gates
  | _ => []

theorem gatesOfAll_eq_flatMap (ops : List Operation) : gatesOfAll ops = ops.flatMap gates := by
  induction ops with
  | nil => rfl
  | cons op rest ih => rw [gatesOfAll, ih, List.flatMap_cons]

theorem flatMap_gates_leaves (op : Operation) : op.leaves.flatMap gates = op.gates := by
  induction op using inductionOn with
  | gate g => rfl
  | effect e => rfl
  | conditional cond body _ => exact List.flatMap_singleton ..
  | compound children ih =>
    rw [leaves_compound, leavesOfAll_eq, List.flatMap_assoc, gates, gatesOfAll_eq_flatMap]
    exact List.flatMap_congr ih

/-- Compounds only group gates. -/
theorem gatesOfAll_eq_leaves (ops : List Operation) :
    gatesOfAll ops = (leavesOfAll ops).flatMap gates := by
  rw [leavesOfAll_eq, List.flatMap_assoc, gatesOfAll_eq_flatMap]
  exact (List.flatMap_congr fun op _ => flatMap_gates_leaves op).symm

theorem flatMap_gates_map (gs : List Gate) : (gs.map Operation.gate).flatMap gates = gs := by
  induction gs with
  | nil => rfl
  | cons g rest ih => rw [List.map_cons, List.flatMap_cons, ih, gates, List.singleton_append]

/-! ## What a substitution leaves -/

variable {f : Substitution}

/-- What takes the place of a leaf has a gate to be replaced only under the leaf's own
condition. -/
theorem filter_gates_substitute
    (hf : ∀ {g : Gate} {gates : List Gate}, f g = some gates → ∀ g' ∈ gates, f g' = none)
    {leaf : Operation} (hleaf : leaf.isCompound = false) :
    ((leaf.substitute f).flatMap gates).filter (fun g => (f g).isSome) =
      leaf.gatesUnderCondition.filter (fun g => (f g).isSome) := by
  cases leaf with
  | compound children => cases hleaf
  | effect e => rfl
  | conditional cond body => rw [substitute, List.flatMap_singleton, gates, gatesUnderCondition]
  | gate g =>
    have hunder : (Operation.gate g).gatesUnderCondition = [] := rfl
    rw [substitute, hunder, List.filter_nil, List.filter_eq_nil_iff]
    split
    · next gs hgs =>
      rw [flatMap_gates_map]
      intro g' hg'
      rw [hf hgs g' hg']
      exact Bool.false_ne_true
    · next hnone =>
      rw [List.flatMap_singleton, gates]
      intro g' hg'
      rw [List.mem_singleton.1 hg', hnone]
      exact Bool.false_ne_true

/-- A substitution that brings in no gate to be replaced leaves the ones under conditions, in
their order, and no other ones. -/
theorem filter_gatesOfAll_substituteAll
    (hf : ∀ {g : Gate} {gates : List Gate}, f g = some gates → ∀ g' ∈ gates, f g' = none)
    (ops : List Operation) :
    (gatesOfAll (substituteAll f ops)).filter (fun g => (f g).isSome) =
      ((leavesOfAll ops).flatMap gatesUnderCondition).filter (fun g => (f g).isSome) := by
  rw [gatesOfAll_eq_leaves, leavesOfAll_substituteAll, List.flatMap_assoc, List.filter_flatMap,
    List.filter_flatMap]
  refine List.flatMap_congr fun leaf hleaf => filter_gates_substitute hf ?_
  exact isCompound_of_mem_leavesOfAll hleaf

/-- Under the condition of an operation that passes the check there is one gate. -/
theorem mem_gatesUnderCondition_iff {op : Operation} (hop : op.validate = .ok ()) {g : Gate} :
    g ∈ op.gatesUnderCondition ↔ ∃ cond, op = .conditional cond (.gate g) := by
  cases op with
  | gate g' => simp [gatesUnderCondition]
  | effect e => simp [gatesUnderCondition]
  | compound children => simp [gatesUnderCondition]
  | conditional cond body =>
    cases body with
    | gate g' => simp [gatesUnderCondition, gates, eq_comm]
    | compound children => cases hop
    | effect e => cases hop
    | conditional cond' body' => cases hop

end Operation

namespace Gate

/-- A SWAP of two targets, with any controls. -/
def IsExchange (g : Gate) : Prop := g.kind = .swap ∧ g.targets.length = 2

/-- An X of one target with at least one control. -/
def IsControlledX (g : Gate) : Prop :=
  g.kind = .x ∧ g.targets.length = 1 ∧ g.controls.isEmpty = false

instance : DecidablePred IsExchange := fun g =>
  inferInstanceAs (Decidable (g.kind = .swap ∧ g.targets.length = 2))

instance : DecidablePred IsControlledX := fun g =>
  inferInstanceAs (Decidable (g.kind = .x ∧ g.targets.length = 1 ∧ g.controls.isEmpty = false))

theorem isSome_expandSwap (directed : Bool) (g : Gate) :
    (expandSwap directed g).isSome = decide g.IsExchange := by
  rw [Bool.eq_iff_iff, decide_eq_true_iff, Option.isSome_iff_ne_none, Ne, expandSwap_eq_none_iff,
    not_not]
  rfl

theorem isSome_expandControlledX (g : Gate) :
    (expandControlledX g).isSome = decide g.IsControlledX := by
  rw [Bool.eq_iff_iff, decide_eq_true_iff, Option.isSome_iff_ne_none, Ne,
    expandControlledX_eq_none_iff, not_not]
  rfl

end Gate

namespace Circuit
open Operation

/-- From the first circuit to the second, gates of a kind have gone from everywhere but from
under conditions: these are the ones left, and there is none left exactly if none of them
stood under a condition. -/
structure LeavesConditional (P : Gate → Prop) [DecidablePred P] (c out : Circuit) : Prop where
  left : (gatesOfAll out.ops).filter P = (c.flatten.ops.flatMap gatesUnderCondition).filter P
  none_iff : (∀ g ∈ gatesOfAll out.ops, ¬ P g) ↔
    ∀ cond g, .conditional cond (.gate g) ∈ c.flatten.ops → ¬ P g

theorem leavesConditional_substitute {P : Gate → Prop} [DecidablePred P] {f : Substitution}
    (hP : ∀ g, (f g).isSome = decide (P g))
    (hf : ∀ {g : Gate} {gates : List Gate}, f g = some gates → ∀ g' ∈ gates, f g' = none)
    {c : Circuit} (hops : ∀ op ∈ c.ops, op.validate = .ok ()) :
    LeavesConditional P c (c.substitute f) := by
  have hleft : (gatesOfAll (c.substitute f).ops).filter P =
      (c.flatten.ops.flatMap gatesUnderCondition).filter P := by
    have hfilter := filter_gatesOfAll_substituteAll hf c.ops
    simp only [hP] at hfilter
    exact hfilter
  refine ⟨hleft, ?_⟩
  have hnone : (∀ g ∈ gatesOfAll (c.substitute f).ops, ¬ P g) ↔
      ∀ g ∈ c.flatten.ops.flatMap gatesUnderCondition, ¬ P g := by
    have hiff : ∀ l : List Gate, (∀ g ∈ l, ¬ P g) ↔ l.filter P = [] := by simp
    rw [hiff, hiff, hleft]
  have hunder : ∀ g, g ∈ c.flatten.ops.flatMap gatesUnderCondition ↔
      ∃ cond, .conditional cond (.gate g) ∈ c.flatten.ops := by
    intro g
    rw [List.mem_flatMap]
    constructor
    · rintro ⟨leaf, hleaf, hg⟩
      obtain ⟨op, hop, hmem⟩ := mem_leavesOfAll.1 hleaf
      have hvalid := validate_iff_leaves.1 (hops op hop) leaf hmem
      obtain ⟨cond, rfl⟩ := (mem_gatesUnderCondition_iff hvalid).1 hg
      exact ⟨cond, hleaf⟩
    · rintro ⟨cond, hleaf⟩
      exact ⟨_, hleaf, List.mem_singleton_self g⟩
  rw [hnone]
  constructor
  · intro h cond g hg
    exact h g ((hunder g).2 ⟨cond, hg⟩)
  · intro h g hg
    obtain ⟨cond, hcond⟩ := (hunder g).1 hg
    exact h cond g hcond

/-- Changing the gate set takes every gate of the kind from the top level and from compounds,
however deep, and leaves those under conditions: SWAPs of two targets when SWAPs are
decomposed, and X gates of one target with a control when these are replaced. -/
theorem gateSet_leaves_conditional {c : Circuit} (hops : ∀ op ∈ c.ops, op.validate = .ok ())
    (directed : Bool) :
    LeavesConditional Gate.IsExchange c (c.decomposeSwaps directed) ∧
      LeavesConditional Gate.IsControlledX c c.replaceControlledX :=
  ⟨leavesConditional_substitute (Gate.isSome_expandSwap directed) expandSwap_expanded hops,
    leavesConditional_substitute Gate.isSome_expandControlledX expandControlledX_expanded hops⟩

/-- SWAPs and controlled X gates at the top level, two compounds deep, and under conditions. -/
def steered : Circuit :=
  { withSize "steered" 3 1 with
    ops := [.gate (.ofKind .swap [⟨0⟩, ⟨1⟩]), .compound [.gate (.cnot ⟨0⟩ ⟨2⟩),
      .compound [.gate (.controlled .swap [.neg ⟨0⟩] [⟨1⟩, ⟨2⟩]),
        .conditional ⟨.single ⟨0⟩, 1⟩ (.gate (.controlled .swap [.pos ⟨2⟩] [⟨0⟩, ⟨1⟩]))]],
      .conditional ⟨.single ⟨0⟩, 0⟩ (.gate (.cnot ⟨1⟩ ⟨2⟩))] }

theorem gateSet_leaves_conditional_steered :
    (∀ op ∈ steered.ops, op.validate = .ok ()) ∧
      (gatesOfAll (steered.decomposeSwaps true).ops).filter Gate.IsExchange =
        [.controlled .swap [.pos ⟨2⟩] [⟨0⟩, ⟨1⟩]] ∧
      (gatesOfAll steered.replaceControlledX.ops).filter Gate.IsControlledX = [.cnot ⟨1⟩ ⟨2⟩] := by
  have hops : ∀ op ∈ steered.ops, op.validate = .ok () := by decide
  obtain ⟨hswaps, hcontrolled⟩ := gateSet_leaves_conditional hops true
  refine ⟨hops, hswaps.left.trans ?_, hcontrolled.left.trans ?_⟩ <;> decide

/-- Two conditional gates that pass the check and stay as they are, a SWAP and a controlled
X. -/
theorem gateSet_keeps_conditional_gates :
    let swap : Operation := .conditional ⟨.single ⟨0⟩, 1⟩ (.gate (.ofKind .swap [⟨0⟩, ⟨1⟩]))
    let cnot : Operation := .conditional ⟨.single ⟨0⟩, 1⟩ (.gate (.cnot ⟨0⟩ ⟨1⟩))
    let c : Circuit := { withSize "test" 2 1 with ops := [swap, cnot] }
    (∀ op ∈ c.ops, op.validate = .ok ()) ∧ (∀ directed, (c.decomposeSwaps directed).ops = c.ops) ∧
      c.replaceControlledX.ops = c.ops := by
  decide

end Circuit
end QuantumCircuit
