import QuantumCircuit.Circuit.Error
import QuantumCircuit.Operation.Basic

/-! The checks on the shape of one operation: its kind fits, a gate has its
number of targets and uses no qubit twice, and a measurement pairs qubits with
bits. Of several faults the first in this order is reported. -/
namespace QuantumCircuit

/-- The first qubit of the list that is in `seen` or stands earlier in it. -/
def firstRepeated? (seen : List Qubit) : List Qubit → Option Qubit
  | [] => none
  | q :: rest => if q ∈ seen then some q else firstRepeated? (q :: seen) rest

def Gate.validate (g : Gate) : Except CircuitError Unit :=
  match g.kind.numTargets with
  | none => .error (.misplacedKind g.kind)
  | some expected =>
    if g.targets.length ≠ expected then
      .error (.targetCount g.kind expected g.targets.length)
    else
      match firstRepeated? [] g.operands with
      | some q => .error (.duplicateQubit q (some g.kind))
      | none => .ok ()

def Effect.validate (e : Effect) : Except CircuitError Unit :=
  if !(Operation.effect e).isWellFormed then .error (.misplacedKind e.kind)
  else if e.kind = .measure ∧ e.targets.length ≠ e.clbits.length then
    .error (.measureShape e.targets.length e.clbits.length)
  else .ok ()

namespace Operation

mutual
def validate : Operation → Except CircuitError Unit
  | .gate g => g.validate
  | .effect e => e.validate
  | .conditional _ body =>
    if !body.isGate then .error (.conditionOn body.kind)
    else if !body.isWellFormed then .error (.misplacedKind .classicControlled)
    else body.validate
  | .compound children => validateAll children

def validateAll : List Operation → Except CircuitError Unit
  | [] => .ok ()
  | op :: rest =>
    match op.validate with
    | .ok () => validateAll rest
    | .error e => .error e
end

theorem validateAll_eq_ok_iff {ops : List Operation} :
    validateAll ops = .ok () ↔ ∀ op ∈ ops, op.validate = .ok () := by
  induction ops with
  | nil => simp [validateAll]
  | cons op rest ih =>
    rw [validateAll]
    split
    · next h => simp [h, ih]
    · next h => simp [h]

end Operation
end QuantumCircuit
