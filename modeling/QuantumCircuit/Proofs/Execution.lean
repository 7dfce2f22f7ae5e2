import Mathlib.Logic.Function.Basic
import QuantumCircuit.Proofs.Words

/-! Execution on basis states. Every qubit and every classical bit has a value; X and
SWAP gates permute the values, a measurement copies qubits to bits, a reset clears
qubits, and a condition compares a register with a number. -/
namespace QuantumCircuit

/-- The values of all qubits and classical bits. -/
@[ext] structure BitState where
  qubits : Qubit → Bool
  clbits : Clbit → Bool

/-! ## Gates -/

def Control.holds (v : Qubit → Bool) (c : Control) : Bool := v c.qubit == c.isPositive

namespace Gate

/-- Whether all controls hold. -/
def enabled (v : Qubit → Bool) (g : Gate) : Bool := g.controls.toList.all (·.holds v)

/-- The value of a qubit after the gate has acted: X negates its target and SWAP
exchanges its targets; other gates do nothing to basis states here. -/
def act (g : Gate) (v : Qubit → Bool) (q : Qubit) : Bool :=
  match g.kind, g.targets with
  | .x, [t] => if q = t then !v t else v q
  | .swap, [a, b] => if q = a then v b else if q = b then v a else v q
  | _, _ => v q

/-- The gate acts if it is enabled. -/
def permute (g : Gate) (v : Qubit → Bool) : Qubit → Bool :=
  if g.enabled v then g.act v else v

variable {g : Gate} {v : Qubit → Bool} {q : Qubit}

/-- A gate leaves the qubits alone that it does not act on. -/
theorem permute_of_not_actsOn (h : g.actsOn q = false) : g.permute v q = v q := by
  have htargets : q ∉ g.targets := by
    intro hq
    simp [actsOn, hq] at h
  have hact : g.act v q = v q := by
    rw [act]
    split
    · next t _ ht =>
      have hne : q ≠ t := by simpa [ht] using htargets
      simp [hne]
    · next a b _ ht =>
      have hne : q ≠ a ∧ q ≠ b := by simpa [ht] using htargets
      simp [hne]
    · rfl
  rw [permute]
  split
  · exact hact
  · rfl

end Gate

/-! ## Registers and effects -/

/-- The number in a register, the first bit being the lowest. -/
def Register.read (bits : Clbit → Bool) (r : Register) : Nat :=
  r.span.foldr (fun b n => (bits b).toNat + 2 * n) 0

def Condition.holds (bits : Clbit → Bool) (cond : Condition) : Bool :=
  cond.register.read bits = cond.value.toNat

theorem Register.read_single (bits : Clbit → Bool) (b : Clbit) :
    (Register.single b).read bits = (bits b).toNat := by
  simp [read, span, single]

def Effect.run (e : Effect) (s : BitState) : BitState :=
  match e.kind with
  | .measure =>
    { s with
      clbits := (e.targets.zip e.clbits).foldl
        (fun bits m => Function.update bits m.2 (s.qubits m.1)) s.clbits }
  | .reset => { s with qubits := fun q => if q ∈ e.targets then false else s.qubits q }
  | _ => s

/-! ## Operations -/

namespace Operation

mutual
def exec : Operation → BitState → BitState
  | .gate g, s => { s with qubits := g.permute s.qubits }
  | .effect e, s => e.run s
  | .conditional cond body, s => if cond.holds s.clbits then exec body s else s
  | .compound children, s => execAll children s

def execAll : List Operation → BitState → BitState
  | [], s => s
  | op :: rest, s => execAll rest (op.exec s)
end

@[simp] theorem execAll_nil (s : BitState) : execAll [] s = s := rfl

@[simp] theorem execAll_cons (op : Operation) (rest : List Operation) (s : BitState) :
    execAll (op :: rest) s = execAll rest (op.exec s) := rfl

@[simp] theorem execAll_append (as bs : List Operation) (s : BitState) :
    execAll (as ++ bs) s = execAll bs (execAll as s) := by
  induction as generalizing s with
  | nil => rfl
  | cons op rest ih => exact ih (op.exec s)

end Operation
end QuantumCircuit
