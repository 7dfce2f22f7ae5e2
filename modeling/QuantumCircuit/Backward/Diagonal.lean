import QuantumCircuit.Backward.Walk

/-! Diagonal gates in front of measurements. Such a gate only changes phases,
which a measurement does not show, so it goes if every qubit it touches is
measured next. Gates with negative controls stay. -/
namespace QuantumCircuit
namespace Diagonal

def passName : String := "remove_diagonal_gates_before_measure"

def isDiagonalGate : Operation → Bool
  | .gate g => g.kind.isDiagonal
  | _ => false

/-- A diagonal gate whose controls are all positive. -/
def isPlainDiagonal : Operation → Bool
  | .gate g => g.kind.isDiagonal && g.controls.toList.all Control.isPositive
  | _ => false

/-- Turns `op` into `result` once every qubit in `used` has come back to it. -/
def removeTogether (q : Qubit) (used : OrderedSet Qubit) (result : Operation) : Plan :=
  let others := (used.erase q).toList
  { stages := [⟨others, result⟩], advance := some others }

/-- The lane of a negative control stops as well. -/
def gatePlan (q : Qubit) (op : Operation) (g : Gate) : Plan :=
  if g.kind.isDiagonal then
    match g.controls.toList.find? (!·.isPositive) with
    | some c => { halt := [c.qubit] }
    | none => removeTogether q (.ofList g.operands) (op.retag .i)
  else {}

/-- On one qubit the diagonal gates at the end of the compound go, and the lane
goes on if they are all of it. -/
def singleQubitPlan (children : List Operation) : Plan :=
  let run := (children.reverse.takeWhile isDiagonalGate).length
  let kept := children.take (children.length - run)
  let removed := (children.drop (children.length - run)).map (Operation.retag .i)
  { stages := [⟨[], .compound (kept ++ removed)⟩]
    advance := if kept.isEmpty then some [] else none }

/-- On several qubits a compound goes as a whole or not at all. -/
def compoundPlan (q : Qubit) (children : List Operation) : Plan :=
  let used := (Operation.compound children).qubits
  if used.size ≤ 1 then singleQubitPlan children
  else if children.all isPlainDiagonal then
    removeTogether q used (.compound (children.map (Operation.retag .i)))
  else {}

def rule : Rule
  | q, .gate g => gatePlan q (.gate g) g
  | q, .conditional cond (.gate g) => gatePlan q (.conditional cond (.gate g)) g
  | _, .conditional _ _ => {}
  | q, .compound children => compoundPlan q children
  | _, .effect _ => {}

/-- Only a lane that ends in a measurement is walked, from the slot before it. -/
def start (ops : List Operation) : List Nat → List Nat
  | [] => []
  | last :: rest => if (ops[last]?.map Operation.isMeasure).getD false then rest else []

end Diagonal

def Circuit.removeDiagonalGates (c : Circuit) : Outcome Circuit :=
  Walk.runOn Diagonal.passName Diagonal.rule Diagonal.start c

end QuantumCircuit
