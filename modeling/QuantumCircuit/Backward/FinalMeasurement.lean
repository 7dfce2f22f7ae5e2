import QuantumCircuit.Backward.Walk

/-! Measurements and barriers at the end of a circuit. One goes if nothing but
such operations follows it on any of its qubits. -/
namespace QuantumCircuit
namespace FinalMeasurement

def passName : String := "remove_final_measurements"

def isMeasurementLike : Operation → Bool
  | .effect e => e.kind = .measure || e.kind = .barrier || e.kind = .i
  | _ => false

/-- Whether the child is still there and starts on the lane of `q`. -/
def startsOn (q : Qubit) (child : Operation) : Bool :=
  child.kind ≠ .i && child.targets.head? = some q

/-- One stage for each child at the given positions that starts on the lane. -/
def childStages (q : Qubit) : List Nat → List Operation → List Stage
  | [], _ => []
  | i :: rest, children =>
    match children[i]? with
    | none => childStages q rest children
    | some child =>
      if startsOn q child then
        let children := children.set i (child.retag .i)
        ⟨((OrderedSet.ofList child.targets).erase q).toList, .compound children⟩ ::
          childStages q rest children
      else childStages q rest children

/-- The children that start on the lane go, the last one first. The lane stops
if another child still reads its qubit. -/
def compoundPlan (q : Qubit) (children : List Operation) : Plan :=
  let stillUsed := children.any fun child =>
    child.kind ≠ .i && !startsOn q child && q ∈ child.targets
  { stages := childStages q (List.range children.length).reverse children
    advance := if stillUsed then none else some [] }

def rule : Rule
  | q, .effect e =>
    if (e.kind = .measure ∨ e.kind = .barrier) ∧ !e.targets.isEmpty then
      let others := ((OrderedSet.ofList e.targets).erase q).toList
      { stages := [⟨others, .effect { e with kind := .i }⟩], advance := some others }
    else {}
  | q, .compound children =>
    if children.all isMeasurementLike then compoundPlan q children else {}
  | _, .gate _ => {}
  | _, .conditional _ _ => {}

end FinalMeasurement

def Circuit.removeFinalMeasurements (c : Circuit) : Outcome Circuit :=
  Walk.runOn FinalMeasurement.passName FinalMeasurement.rule (fun _ => id) c

end QuantumCircuit
