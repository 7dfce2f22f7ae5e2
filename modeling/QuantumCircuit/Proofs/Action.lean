import Mathlib.Algebra.Group.End
import Mathlib.Algebra.Group.Opposite
import QuantumCircuit.Proofs.Fusion
import QuantumCircuit.Proofs.PairGates
import QuantumCircuit.Proofs.Renamed

/-! Execution on basis states as an interpretation in a monoid. An operation is the map of
states that it carries out, and a product is run from left to right. Gates commute with
operations on other qubits, measurements and conditions among them, and the laws
of CNOTs, of SWAPs and of gates on one qubit hold. -/
namespace QuantumCircuit
open Operation Sweep

/-- Maps of states; in a product the first factor is run first. -/
abbrev BitAction := (Function.End BitState)ᵐᵒᵖ

namespace BitAction

def of (run : BitState → BitState) : BitAction := MulOpposite.op run

theorem of_mul_of (f g : BitState → BitState) : of f * of g = of fun s => g (f s) := rfl

theorem of_eq_iff {f g : BitState → BitState} : of f = of g ↔ ∀ s, f s = g s :=
  MulOpposite.op_injective.eq_iff.trans funext_iff

theorem of_eq_one_iff {f : BitState → BitState} : of f = 1 ↔ ∀ s, f s = s :=
  of_eq_iff

end BitAction

def Operation.action (op : Operation) : BitAction := .of op.exec

theorem prod_map_action (ops : List Operation) :
    (ops.map action).prod = .of (execAll ops) := by
  induction ops with
  | nil => rfl
  | cons op rest ih =>
    rw [List.map_cons, List.prod_cons, ih]
    exact BitAction.of_mul_of op.exec (execAll rest)

/-- Two lists of operations mean the same if they do the same to every state. -/
theorem meaning_action_eq_iff {as bs : List Operation} :
    meaning action as = meaning action bs ↔ ∀ s, execAll as s = execAll bs s := by
  rw [meaning, meaning, prod_map_action, prod_map_action, BitAction.of_eq_iff]
  simp only [execAll_leavesOfAll]

/-! ## Gates apart from other operations -/

/-- A gate can be run before or after an operation on other qubits. -/
theorem exec_gate_comm {g : Gate} {op : Operation} (h : Independent (.gate g) op) (s : BitState) :
    op.exec ((Operation.gate g).exec s) = (Operation.gate g).exec (op.exec s) := by
  have hgate : ∀ q, op.actsOn q = true → g.actsOn q = false := h.symm
  -- the operation finds its qubits as they were
  obtain ⟨hclbits, hqubits⟩ := exec_congr (s := s) (t := (Operation.gate g).exec s) rfl
    fun q hq => Gate.permute_of_not_actsOn (hgate q hq)
  -- and so does the gate, which does not look at the bits
  have hpermute : ∀ q, g.actsOn q = true →
      g.permute (op.exec s).qubits q = g.permute s.qubits q :=
    (exec_congr (s := s) (t := ⟨(op.exec s).qubits, s.clbits⟩) rfl
      fun q hq => exec_qubits_of_not_actsOn (h q hq) s).2
  refine BitState.ext (funext fun q => ?_) hclbits
  show (op.exec ((Operation.gate g).exec s)).qubits q = g.permute (op.exec s).qubits q
  cases hop : op.actsOn q with
  | true => rw [hqubits q hop, Gate.permute_of_not_actsOn (hgate q hop)]
  | false =>
    rw [exec_qubits_of_not_actsOn hop]
    show g.permute s.qubits q = g.permute (op.exec s).qubits q
    cases hg : g.actsOn q with
    | true => exact (hpermute q hg).symm
    | false =>
      rw [Gate.permute_of_not_actsOn hg, Gate.permute_of_not_actsOn hg,
        exec_qubits_of_not_actsOn hop]

theorem commutesApart_action (g : Gate) : CommutesApart action (.gate g) :=
  fun _ _ h => BitAction.of_eq_iff.2 (exec_gate_comm h)

/-! ## The laws -/

theorem exec_of_isIdentity {op : Operation} (h : op.isIdentity = true) (s : BitState) :
    op.exec s = s := by
  induction op using inductionOn with
  | gate g =>
    have hkind : g.kind = .i := by simpa [isIdentity] using h
    have hact : g.act s.qubits = s.qubits := by
      funext q
      simp [Gate.act, hkind]
    rw [exec, Gate.permute, hact, ite_self]
  | effect e =>
    have hkind : e.kind = .i := by simpa [isIdentity] using h
    simp [exec, Effect.run, hkind]
  | conditional cond body ih => rw [exec, ih h, ite_self]
  | compound children _ => cases h

theorem action_of_isIdentity (leaf : Operation) (h : leaf.isIdentity = true) : leaf.action = 1 :=
  BitAction.of_eq_one_iff.2 (exec_of_isIdentity h)

namespace Gate

theorem permute_cnot (a b : Qubit) (v : Qubit → Bool) (q : Qubit) :
    (cnot a b).permute v q = if q = b then v b ^^ v a else v q := by
  have henabled : (cnot a b).enabled v = v a := by
    simp [enabled, controls_cnot, Control.holds, Control.pos, Control.isPositive]
  rw [permute, henabled]
  by_cases hq : q = b <;> cases v a <;> simp [act, cnot, controlled, hq]

theorem permute_swap (a b : Qubit) (v : Qubit → Bool) (q : Qubit) :
    (swap a b).permute v q = if q = a then v b else if q = b then v a else v q :=
  rfl

theorem permute_single (k : Kind) (t : Qubit) (v : Qubit → Bool) (q : Qubit) :
    (ofKind k [t]).permute v q = if k = .x ∧ q = t then !v t else v q := by
  have hpermute : (ofKind k [t]).permute v q = (ofKind k [t]).act v q := rfl
  rw [hpermute]
  by_cases hk : k = .x
  · simp [act, ofKind, hk]
  · simp [act, ofKind, hk]

variable {a b : Qubit} (hne : a ≠ b) (v : Qubit → Bool)
include hne

theorem permute_cnot_cnot : (cnot a b).permute ((cnot a b).permute v) = v := by
  funext q
  simp only [permute_cnot, if_neg hne]
  split_ifs with hq
  · simp [hq]
  · rfl

theorem permute_swap_comm : (swap a b).permute v = (swap b a).permute v := by
  funext q
  simp only [permute_swap]
  split_ifs with ha hb
  · exact absurd (ha.symm.trans hb) hne
  all_goals rfl

theorem permute_cnot_three :
    (cnot a b).permute ((cnot b a).permute ((cnot a b).permute v)) = (swap a b).permute v := by
  funext q
  simp only [permute_cnot, permute_swap, if_neg hne, if_neg hne.symm, if_true]
  split_ifs with hb ha
  · exact absurd (ha.symm.trans hb) hne
  · cases v a <;> cases v b <;> rfl
  · cases v a <;> cases v b <;> rfl
  · rfl

end Gate

theorem Gate.permute_inverse {k l : Kind} (h : (k, l) ∈ inversePairs) (t : Qubit)
    (v : Qubit → Bool) : (ofKind l [t]).permute ((ofKind k [t]).permute v) = v := by
  have hpairs : ∀ p ∈ inversePairs, (p.1 = .x ↔ p.2 = .x) := by decide
  have hx : k = .x ↔ l = .x := hpairs (k, l) h
  funext q
  simp only [permute_single, hx, and_true]
  by_cases hl : l = .x ∧ q = t
  · simp [hl]
  · simp [if_neg hl]

theorem pairLaws_action : PairLaws action where
  one := action_of_isIdentity
  params _ _ _ := rfl
  cnot_apart _ := commutesApart_action _
  swap_apart _ := commutesApart_action _
  cnot_cnot hne :=
    BitAction.of_eq_one_iff.2 fun s => BitState.ext (Gate.permute_cnot_cnot hne s.qubits) rfl
  swap_comm hne :=
    BitAction.of_eq_iff.2 fun s => BitState.ext (Gate.permute_swap_comm hne s.qubits) rfl
  cnot_three hne :=
    BitAction.of_eq_iff.2 fun s => BitState.ext (Gate.permute_cnot_three hne s.qubits) rfl

theorem singleLaws_action : SingleLaws action where
  one := action_of_isIdentity
  params _ _ _ := rfl
  apart _ := commutesApart_action _
  inverse t h :=
    BitAction.of_eq_one_iff.2 fun s => BitState.ext (Gate.permute_inverse h t s.qubits) rfl

end QuantumCircuit
