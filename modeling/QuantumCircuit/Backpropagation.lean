import QuantumCircuit.Circuit.Basic
import QuantumCircuit.Pass.Outcome

/-! The initial layout that leads to a given output layout. Going through the
operations from the back, each uncontrolled SWAP exchanges what its two qubits
hold. A physical qubit that is still free receives a logical qubit that nobody
holds, its own number if that is one of them. -/
namespace QuantumCircuit

/-- A layout, and the logical qubits that it does not place yet. -/
structure Placement where
  layout : Layout
  pool : OrderedSet Qubit
deriving Repr

namespace Placement

/-- Takes a logical qubit out of the pool, `q` itself if possible and else the
lowest. -/
def take (p : Placement) (q : Qubit) : Except PassError (Qubit × Placement) :=
  if q ∈ p.pool then .ok (q, { p with pool := p.pool.erase q })
  else
    match p.pool.min? with
    | some l => .ok (l, { p with pool := p.pool.erase l })
    | none => .error (.noLogicalQubit q)

/-- Places a logical qubit from the pool on `q`. -/
def fill (q : Qubit) (p : Placement) : Except PassError Placement :=
  match p.take q with
  | .ok (l, p) => .ok { p with layout := p.layout.insert q l }
  | .error e => .error e

/-- Undoes a SWAP. If only one of the two qubits is placed, its logical qubit
moves over and it receives a new one. -/
def undoSwap (p : Placement) (a b : Qubit) : Except PassError Placement :=
  match p.layout.get? a, p.layout.get? b with
  | some _, some _ => .ok { p with layout := p.layout.swap a b }
  | some l, none => fill a { p with layout := p.layout.insert b l }
  | none, some l => fill b { p with layout := p.layout.insert a l }
  | none, none => .ok p

mutual
/-- Undoes the SWAPs of an operation, the last one first. -/
def undo : Operation → Placement → Except PassError Placement
  | .gate g, p =>
    match g.isSwap, g.targets with
    | true, [a, b] => p.undoSwap a b
    | _, _ => .ok p
  | .compound children, p => undoAll children p
  | .effect _, p => .ok p
  | .conditional _ _, p => .ok p

def undoAll : List Operation → Placement → Except PassError Placement
  | [], p => .ok p
  | op :: rest, p =>
    match undoAll rest p with
    | .ok p => undo op p
    | .error e => .error e
end

/-- Fills a qubit that is still free. -/
def complete (q : Qubit) (p : Placement) : Except PassError Placement :=
  if p.layout.contains q then .ok p else p.fill q

def completeAll : List Qubit → Placement → Except PassError Placement
  | [], p => .ok p
  | q :: rest, p =>
    match p.complete q with
    | .ok p => completeAll rest p
    | .error e => .error e

/-- The layout at the end of a circuit. -/
def ofOutput (c : Circuit) : Placement where
  layout := c.output
  pool := .ofList <| ((List.range c.numQubits).map Qubit.mk).filter fun q =>
    !c.output.values.contains q

end Placement

/-- Derives the initial layout from the output layout. -/
def Circuit.backpropagateOutput (c : Circuit) : Outcome Circuit :=
  let qubits := (List.range c.numQubits).map Qubit.mk
  let placed := do
    let p ← Placement.undoAll c.ops (.ofOutput c)
    if p.layout.size = c.numQubits then pure p else Placement.completeAll qubits p
  match placed with
  | .ok p => .done { c with initial := p.layout }
  | .error e => .failed e c

end QuantumCircuit
