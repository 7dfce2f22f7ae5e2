import QuantumCircuit.Lanes.Build
import QuantumCircuit.Pass.Outcome
import QuantumCircuit.Peephole.Identity

/-! One walk over a circuit from front to back, with the lanes of what has been
passed. An operation is compared with the last ones on its lanes; two lanes that
end in the same slot have had nothing else in between. Discarded operations stay
in place as identities until the walk is over. -/
namespace QuantumCircuit

structure Sweep where
  ops : List Operation
  lanes : Lanes
deriving Repr

namespace Sweep

/-- Puts the operation at a slot on the lanes. -/
def put (s : Sweep) (slot : Nat) : Sweep :=
  match s.ops[slot]? with
  | some op => { s with lanes := s.lanes.pushAll op.qubits.toList slot }
  | none => s

/-- Puts the operation at a slot on the lanes if it is well formed. -/
def place (s : Sweep) (pass : String) (slot : Nat) : Except PassError Sweep :=
  match s.ops[slot]? with
  | some op =>
    match op.check pass with
    | .ok () => .ok (s.put slot)
    | .error e => .error e
  | none => .ok s

def discard (s : Sweep) (slot : Nat) : Sweep :=
  { s with ops := s.ops.modify slot Operation.discard }

def set (s : Sweep) (slot : Nat) (op : Operation) : Sweep :=
  { s with ops := s.ops.set slot op }

/-- Takes the last slot off two lanes. -/
def popBoth (s : Sweep) (a b : Qubit) : Sweep :=
  { s with lanes := (s.lanes.pop a).pop b }

/-- Sweeps a circuit with a step for each slot and then removes identities. -/
def run (step : Nat → Sweep → Except PassError Sweep) (c : Circuit) : Outcome Circuit :=
  let swept := Outcome.forEach step (List.range c.ops.length) ⟨c.ops, .forCircuit c⟩
  (swept.map fun s => { c with ops := s.ops }).andThen fun c => .done c.removeIdentities

end Sweep

namespace Gate

/-- The SWAP of two qubits, the lower one first. -/
def becomeSwap (g : Gate) (a b : Qubit) : Gate :=
  { g with
    kind := .swap
    controls := ∅
    targets := if a.index ≤ b.index then [a, b] else [b, a] }

def becomeCnot (g : Gate) (control target : Qubit) : Gate :=
  { g with kind := .x, controls := .ofList [.pos control], targets := [target] }

/-- Control and target of a CNOT. -/
def cnotOperands? (g : Gate) : Option (Qubit × Qubit) :=
  if g.isCnot then
    match g.controlQubit?, g.targets with
    | some c, t :: _ => some (c, t)
    | _, _ => none
  else none

end Gate
end QuantumCircuit
