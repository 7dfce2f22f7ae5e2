import QuantumCircuit.Peephole.Sweep

/-! Adjacent CNOTs on one pair of qubits. Two equal ones cancel; a CNOT followed
by the reversed one becomes a SWAP followed by the first one. -/
namespace QuantumCircuit
namespace SwapReconstruction

def passName : String := "swap_reconstruction"

def cnotAt? (s : Sweep) (slot : Nat) : Option (Gate × Qubit × Qubit) :=
  match s.ops[slot]? with
  | some (.gate g) => g.cnotOperands?.map fun operands => (g, operands)
  | _ => none

def step (slot : Nat) (s : Sweep) : Except PassError Sweep :=
  match cnotAt? s slot with
  | none => s.place passName slot
  | some (current, control, target) =>
    match s.lanes.sharedTop? control target with
    | none => s.place passName slot
    | some prev =>
      match cnotAt? s prev with
      | none => s.place passName slot
      | some (earlier, prevControl, prevTarget) =>
        let s := s.popBoth control target
        if prevControl = control ∧ prevTarget = target then
          .ok ((s.discard prev).discard slot)
        else
          let s := (s.set prev (.gate (earlier.becomeSwap control target))).put prev
          .ok ((s.set slot (.gate (current.becomeCnot target control))).put slot)

end SwapReconstruction

def Circuit.reconstructSwaps (c : Circuit) : Outcome Circuit :=
  Sweep.run SwapReconstruction.step c

end QuantumCircuit
