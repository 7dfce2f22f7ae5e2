import QuantumCircuit.Peephole.Sweep

/-! Runs of uncontrolled gates on one qubit are gathered into a compound, and a
gate that undoes the one before it cancels with it. -/
namespace QuantumCircuit
namespace Fusion

def passName : String := "single_qubit_gate_fusion"

/-- The target of an uncontrolled gate on one qubit. -/
def soleTarget? (g : Gate) : Option Qubit :=
  match g.targets with
  | [q] => if g.controls.isEmpty then some q else none
  | _ => none

def areInverse (first second : Kind) : Bool := first.inverse? = some second

/-- Whether the last of these operations is a gate that `k` undoes. -/
def undoesLast (k : Kind) (ops : List Operation) : Bool :=
  match ops.getLast? with
  | some (.gate g) => areInverse g.kind k
  | _ => false

/-- A compound of unitary operations on at most one qubit takes up more gates. -/
def takesGates (children : List Operation) : Bool :=
  children.all Operation.isUnitary && (Operation.compound children).qubits.size ≤ 1

def step (slot : Nat) (s : Sweep) : Except PassError Sweep :=
  match s.ops[slot]? with
  | some (.gate current) =>
    match soleTarget? current with
    | none => s.place passName slot
    | some target =>
      match s.lanes.top? target with
      | none => s.place passName slot
      | some prev =>
        match s.ops[prev]? with
        | some (.compound children) =>
          if takesGates children then
            let children :=
              if undoesLast current.kind children then children.dropLast
              else children ++ [.gate current]
            .ok ((s.set prev (.compound children)).discard slot)
          else s.place passName slot
        | some (.gate earlier) =>
          if (soleTarget? earlier).isNone then s.place passName slot
          else if areInverse earlier.kind current.kind then
            let s := (s.discard prev).discard slot
            .ok { s with lanes := s.lanes.pop target }
          else
            .ok ((s.set prev (.compound [.gate earlier, .gate current])).discard slot)
        | _ => s.place passName slot
  | _ => s.place passName slot

end Fusion

def Circuit.fuseSingleQubitGates (c : Circuit) : Outcome Circuit :=
  Sweep.run Fusion.step c

end QuantumCircuit
