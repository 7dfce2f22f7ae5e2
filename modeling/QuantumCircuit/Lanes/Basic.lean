import QuantumCircuit.Qubit

/-! Lanes: for each qubit the slots of the operations that touch it. A slot is
a position in the list of operations. A lane is kept as a stack with the latest
slot on top, so that its end is looked at and changed in place. -/
namespace QuantumCircuit

structure Lanes where
  /-- The stack of qubit `i` stands at position `i`. -/
  rows : List (List Nat)
deriving DecidableEq, Repr, Inhabited

namespace Lanes

/-- The given number of empty lanes. -/
def ofCount (n : Nat) : Lanes := ⟨List.replicate n []⟩

def count (l : Lanes) : Nat := l.rows.length

/-- The slots of a qubit, the latest first; none if it has no lane. -/
def stack (l : Lanes) (q : Qubit) : List Nat := l.rows[q.index]?.getD []

/-- The slots of a qubit in program order. -/
def lane (l : Lanes) (q : Qubit) : List Nat := (l.stack q).reverse

def top? (l : Lanes) (q : Qubit) : Option Nat := (l.stack q).head?

def second? (l : Lanes) (q : Qubit) : Option Nat := (l.stack q).tail.head?

/-- At least the given number of lanes, new ones being empty. -/
def grow (l : Lanes) (n : Nat) : Lanes := ⟨l.rows ++ List.replicate (n - l.rows.length) []⟩

/-- Puts a slot at the end of a qubit's lane. -/
def push (l : Lanes) (q : Qubit) (slot : Nat) : Lanes :=
  ⟨(l.grow (q.index + 1)).rows.modify q.index (slot :: ·)⟩

/-- Puts a slot at the end of several lanes. -/
def pushAll (l : Lanes) (qubits : List Qubit) (slot : Nat) : Lanes :=
  qubits.foldl (fun l q => l.push q slot) l

/-- Takes the last slot off a qubit's lane. -/
def pop (l : Lanes) (q : Qubit) : Lanes := ⟨l.rows.modify q.index List.tail⟩

/-- Empties a qubit's lane. -/
def clear (l : Lanes) (q : Qubit) : Lanes := ⟨l.rows.modify q.index fun _ => []⟩

/-- The slot that both lanes end in, if they end in the same one. -/
def sharedTop? (l : Lanes) (a b : Qubit) : Option Nat :=
  match l.top? a, l.top? b with
  | some x, some y => if x = y then some x else none
  | _, _ => none

def sharedSecond? (l : Lanes) (a b : Qubit) : Option Nat :=
  match l.second? a, l.second? b with
  | some x, some y => if x = y then some x else none
  | _, _ => none

@[simp] theorem stack_ofCount (n : Nat) (q : Qubit) : (ofCount n).stack q = [] := by
  simp only [stack, ofCount, List.getElem?_replicate]
  split <;> rfl

@[simp] theorem stack_grow (l : Lanes) (n : Nat) (q : Qubit) : (l.grow n).stack q = l.stack q := by
  simp only [stack, grow, List.getElem?_append, List.getElem?_replicate]
  by_cases h : q.index < l.rows.length
  · simp [h]
  · simp only [h, ↓reduceIte]
    rw [List.getElem?_eq_none (Nat.le_of_not_lt h)]
    split <;> rfl

theorem stack_modify (l : Lanes) (f : List Nat → List Nat) (hf : f [] = []) (q r : Qubit) :
    (Lanes.mk (l.rows.modify q.index f)).stack r =
      if r = q then f (l.stack q) else l.stack r := by
  simp only [stack, List.getElem?_modify]
  by_cases h : r = q
  · subst h
    cases l.rows[r.index]? <;> simp [hf]
  · have : ¬ q.index = r.index := fun e => h (by cases q; cases r; simp_all)
    simp [h, this]

@[simp] theorem stack_pop (l : Lanes) (q r : Qubit) :
    (l.pop q).stack r = if r = q then (l.stack q).tail else l.stack r :=
  stack_modify l List.tail rfl q r

@[simp] theorem stack_clear (l : Lanes) (q r : Qubit) :
    (l.clear q).stack r = if r = q then [] else l.stack r :=
  stack_modify l (fun _ => []) rfl q r

@[simp] theorem stack_push (l : Lanes) (q r : Qubit) (slot : Nat) :
    (l.push q slot).stack r = if r = q then slot :: l.stack q else l.stack r := by
  have hg := stack_grow l (q.index + 1)
  simp only [stack] at hg
  simp only [push, stack, List.getElem?_modify]
  by_cases h : r = q
  · subst h
    have hlt : r.index < (l.grow (r.index + 1)).rows.length := by simp [grow]; omega
    rw [← hg, List.getElem?_eq_getElem hlt]
    simp
  · have : ¬ q.index = r.index := fun e => h (by cases q; cases r; simp_all)
    simp [h, this, hg]

/-- The lanes, one line each, with the slots written by `f`. -/
def render (f : Nat → String) (l : Lanes) : String :=
  String.join <| l.rows.zipIdx.map fun (row, i) =>
    Qubit.text ⟨i⟩ ++ ":" ++ String.join (row.reverse.map fun s => " " ++ f s) ++ "\n"

def text (l : Lanes) : String := l.render toString

end Lanes
end QuantumCircuit
