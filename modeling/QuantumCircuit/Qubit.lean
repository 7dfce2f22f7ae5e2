import QuantumCircuit.Ordered.Set

/-! Wires and controls. Qubits and classical bits are numbered by words of 32 bits; a
control is a qubit with the value that lets the gate act. -/
namespace QuantumCircuit

/-- Words are the numbers below this bound. -/
def wordBound : Nat := 4294967296

/-- The sum of two words. It is not checked: past the last word it starts again at zero. -/
def wordAdd (a b : Nat) : Nat := (a + b) % wordBound

/-- A physical qubit. -/
structure Qubit where
  index : Nat
deriving DecidableEq, Repr, Inhabited

/-- A classical bit. -/
structure Clbit where
  index : Nat
deriving DecidableEq, Repr, Inhabited

instance : Ranked Qubit where
  rank := Qubit.index
  rank_injective := by rintro ⟨a⟩ ⟨b⟩ rfl; rfl

instance : Ranked Clbit where
  rank := Clbit.index
  rank_injective := by rintro ⟨a⟩ ⟨b⟩ rfl; rfl

/-- The value of a control qubit for which the gate acts. -/
inductive Polarity where
  /-- Acts when the control qubit is 0. -/
  | negative
  /-- Acts when the control qubit is 1. -/
  | positive
deriving DecidableEq, Repr

structure Control where
  qubit : Qubit
  polarity : Polarity
deriving DecidableEq, Repr

namespace Control

def pos (q : Qubit) : Control := ⟨q, .positive⟩

def neg (q : Qubit) : Control := ⟨q, .negative⟩

def isPositive (c : Control) : Bool := c.polarity = .positive

/-- Controls ascend by qubit; on one qubit the negative control comes first. -/
def rank (c : Control) : Nat :=
  2 * c.qubit.index + match c.polarity with | .negative => 0 | .positive => 1

theorem rank_inj {a b : Control} (h : a.rank = b.rank) : a = b := by
  obtain ⟨⟨i⟩, p⟩ := a
  obtain ⟨⟨j⟩, r⟩ := b
  cases p <;> cases r <;> simp [rank] at h ⊢ <;> omega

end Control

instance : Ranked Control where
  rank := Control.rank
  rank_injective := Control.rank_inj

/-- The controls of a gate. -/
abbrev Controls := OrderedSet Control

/-- The qubits that carry a control, in ascending order; a qubit that carries
both polarities is listed twice. -/
def Controls.qubits (cs : Controls) : List Qubit := cs.toList.map (·.qubit)

def Qubit.text (q : Qubit) : String := "q" ++ toString q.index

def Clbit.text (c : Clbit) : String := "c" ++ toString c.index

/-- A negative control is marked by an exclamation mark. -/
def Control.text (c : Control) : String :=
  match c.polarity with
  | .positive => c.qubit.text
  | .negative => "!" ++ c.qubit.text

end QuantumCircuit
