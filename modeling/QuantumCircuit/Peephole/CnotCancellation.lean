import QuantumCircuit.Peephole.Sweep

/-! Adjacent CNOTs and SWAPs on one pair of qubits. Equal CNOTs cancel, and so
do SWAPs; a CNOT next to a SWAP becomes two CNOTs; three alternating CNOTs
become a SWAP. -/
namespace QuantumCircuit
namespace CnotCancellation

def passName : String := "cancel_cnots"

/-- A gate of one of the two kinds, with its pair of qubits. -/
inductive PairGate where
  | cnot (target control : Qubit)
  | swap (a b : Qubit)
deriving DecidableEq, Repr

def PairGate.first : PairGate → Qubit
  | cnot t _ => t
  | swap a _ => a

def PairGate.second : PairGate → Qubit
  | cnot _ c => c
  | swap _ b => b

def pairGate? (g : Gate) : Option PairGate :=
  match g.cnotOperands? with
  | some (control, target) => some (.cnot target control)
  | none =>
    if g.isSwap then
      match g.targets with
      | [a, b] => some (.swap a b)
      | _ => none
    else none

def pairGateAt? (s : Sweep) (slot : Nat) : Option (Gate × PairGate) :=
  match s.ops[slot]? with
  | some (.gate g) => (pairGate? g).map fun p => (g, p)
  | _ => none

/-- The slot before the last one on both lanes, if it holds the given CNOT. -/
def thirdCnot? (s : Sweep) (target control : Qubit) : Option (Nat × Gate) :=
  match s.lanes.sharedSecond? target control with
  | none => none
  | some slot =>
    match pairGateAt? s slot with
    | some (g, p) => if p = .cnot target control then some (slot, g) else none
    | none => none

/-- Drops the gate at `slot` with the one before it on the lanes of the pair. -/
def cancel (s : Sweep) (prev slot : Nat) (a b : Qubit) : Sweep :=
  ((s.popBoth a b).discard prev).discard slot

/-- Rewrites two gates in a row on one pair; a pair of CNOTs that no rule fits is
left as it is. -/
def rewritePair (s : Sweep) (prev slot : Nat) (earlier current : Gate) :
    PairGate → PairGate → Except PassError Sweep
  | .cnot t c, .cnot target control =>
    if t = target ∧ c = control then .ok (cancel s prev slot target control)
    else
      match thirdCnot? s target control with
      | some (first, g) =>
        .ok (cancel (s.set first (.gate (g.becomeSwap target control))) prev slot target control)
      | none => s.place passName slot
  | .swap _ _, .swap a b => .ok (cancel s prev slot a b)
  | .swap _ _, .cnot target control =>
    let s := s.set prev (.gate (earlier.becomeCnot control target))
    .ok ((s.set slot (.gate (current.becomeCnot target control))).put slot)
  | .cnot t c, .swap _ _ =>
    let s := s.set prev (.gate (earlier.becomeCnot t c))
    .ok ((s.set slot (.gate (current.becomeCnot c t))).put slot)

def step (slot : Nat) (s : Sweep) : Except PassError Sweep :=
  match pairGateAt? s slot with
  | none => s.place passName slot
  | some (current, now) =>
    match s.lanes.sharedTop? now.first now.second with
    | none => s.place passName slot
    | some prev =>
      match pairGateAt? s prev with
      | none => s.place passName slot
      | some (earlier, before) => rewritePair s prev slot earlier current before now

end CnotCancellation

def Circuit.cancelCnots (c : Circuit) : Outcome Circuit :=
  Sweep.run CnotCancellation.step c

end QuantumCircuit
