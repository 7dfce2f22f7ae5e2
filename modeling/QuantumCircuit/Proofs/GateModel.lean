import Mathlib.Algebra.Ring.Int.Units
import QuantumCircuit.Expand.Gates
import QuantumCircuit.Proofs.Fusion
import QuantumCircuit.Proofs.PairGates

/-! Interpretations of gates in a monoid. The laws are those that the rewrites of
gates rest on; the usual unitary matrices satisfy them, and so do
coarser ones such as a count of gates up to parity. -/
namespace QuantumCircuit
open Operation Sweep

/-- An X gate with controls. -/
def Gate.controlledX (controls : Controls) (target : Qubit) : Gate :=
  { kind := .x, controls, targets := [target] }

/-- Gates as elements of a monoid. The laws with two qubits `a` and `b` and with
further controls `cs` are asked of gates that use no qubit twice. -/
structure GateModel (M : Type*) [Monoid M] where
  eval : Gate → M
  commute : ∀ {g h : Gate}, (∀ q, g.actsOn q = true → h.actsOn q = false) →
    Commute (eval g) (eval h)
  identity : ∀ {g : Gate}, g.kind = .i → eval g = 1
  params : ∀ (g : Gate) (ps : List Binary64), g.kind.numParams = 0 →
    eval { g with params := ps } = eval g
  inverse : ∀ {k l : Kind} (q : Qubit), (k, l) ∈ inversePairs →
    eval (.ofKind k [q]) * eval (.ofKind l [q]) = 1
  cnot_cnot : ∀ {a b : Qubit}, a ≠ b → eval (.cnot a b) * eval (.cnot a b) = 1
  swap_comm : ∀ {a b : Qubit}, a ≠ b → eval (.swap a b) = eval (.swap b a)
  cnot_three : ∀ {a b : Qubit}, a ≠ b →
    eval (.cnot a b) * eval (.cnot b a) * eval (.cnot a b) = eval (.swap a b)
  controlled_swap : ∀ {a b : Qubit} {cs : Controls}, a ≠ b → a ∉ cs.qubits → b ∉ cs.qubits →
    cs.qubits.Nodup →
    eval { kind := .swap, controls := cs, targets := [a, b] } =
      eval (.cnot a b) * eval (.controlledX (cs.insert (.pos b)) a) * eval (.cnot a b)
  /-- Hadamard gates on both qubits turn a controlled X around. -/
  hadamard_turn : ∀ {a b : Qubit} {cs : Controls}, a ≠ b → a ∉ cs.qubits → b ∉ cs.qubits →
    cs.qubits.Nodup →
    eval (hadamard a) * eval (hadamard b) * eval (.controlledX (cs.insert (.pos a)) b) *
      eval (hadamard a) * eval (hadamard b) = eval (.controlledX (cs.insert (.pos b)) a)

namespace GateModel
variable {M : Type*} [Monoid M] (model : GateModel M)

/-- The value of a gate; what is no gate counts as nothing. -/
def val : Operation → M
  | .gate g => model.eval g
  | _ => 1

/-- The ordered product over all leaves of a circuit. -/
def product (c : Circuit) : M := meaning model.val c.ops

@[simp] theorem val_gate (g : Gate) : model.val (.gate g) = model.eval g := rfl

theorem val_of_isIdentity (leaf : Operation) (h : leaf.isIdentity = true) :
    model.val leaf = 1 := by
  cases leaf with
  | gate g => exact model.identity (by simpa [isIdentity] using h)
  | compound children => rfl
  | effect e => rfl
  | conditional cond body => rfl

theorem commute_val {x y : Operation} (h : Independent x y) :
    Commute (model.val x) (model.val y) := by
  cases x with
  | gate g =>
    cases y with
    | gate g' => exact model.commute h
    | compound children => exact Commute.one_right _
    | effect e => exact Commute.one_right _
    | conditional cond body => exact Commute.one_right _
  | compound children => exact Commute.one_left _
  | effect e => exact Commute.one_left _
  | conditional cond body => exact Commute.one_left _

theorem commutesApart (op : Operation) : CommutesApart model.val op :=
  fun _ _ h => model.commute_val h

theorem pairLaws : PairLaws model.val where
  one := model.val_of_isIdentity
  params g ps h := model.params g ps (by rcases h with h | h <;> rw [h] <;> rfl)
  cnot_apart _ := model.commutesApart _
  swap_apart _ := model.commutesApart _
  cnot_cnot := model.cnot_cnot
  swap_comm := model.swap_comm
  cnot_three := model.cnot_three

theorem singleLaws : SingleLaws model.val where
  one := model.val_of_isIdentity
  params := model.params
  apart _ := model.commutesApart _
  inverse := model.inverse

end GateModel

/-- Counts the X and SWAP gates up to parity: each of them changes the sign. -/
def signModel : GateModel ℤˣ where
  eval g := if g.kind = .x ∨ g.kind = .swap then -1 else 1
  commute _ := Commute.all _ _
  identity h := by simp [h]
  params _ _ _ := rfl
  inverse q h := by
    simp only [inversePairs, List.mem_cons, List.not_mem_nil, or_false, Prod.mk.injEq] at h
    rcases h with ⟨rfl, rfl⟩ | ⟨rfl, rfl⟩ | ⟨rfl, rfl⟩ | ⟨rfl, rfl⟩ | ⟨rfl, rfl⟩ | ⟨rfl, rfl⟩ |
      ⟨rfl, rfl⟩ | ⟨rfl, rfl⟩ | ⟨rfl, rfl⟩ | ⟨rfl, rfl⟩ <;> rfl
  cnot_cnot _ := rfl
  swap_comm _ := rfl
  cnot_three _ := rfl
  controlled_swap _ _ _ _ := rfl
  hadamard_turn _ _ _ _ := rfl

end QuantumCircuit
