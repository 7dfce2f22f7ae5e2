import QuantumCircuit.Lanes.Build
import QuantumCircuit.Pass.Outcome

/-! A canonical order of operations. Lanes are swept from the highest qubit to
the lowest, and an operation is emitted once it is next on all its lanes: those
of its qubits and those of the classical bits it reads or writes. Operations
without qubits are on no lane and come last. -/
namespace QuantumCircuit

namespace Operation

mutual
/-- The classical bits that an operation reads or writes, those of its children
included. -/
def bitsTouched : Operation → OrderedSet Clbit
  | .gate _ => ∅
  | .effect e => .ofList e.clbits
  | .conditional cond body => (bitsTouched body).union (.ofList cond.register.bits)
  | .compound children => bitsTouchedByAll children

def bitsTouchedByAll : List Operation → OrderedSet Clbit
  | [] => ∅
  | op :: rest => op.bitsTouched.union (bitsTouchedByAll rest)
end

end Operation

/-- The lanes an operation is on. -/
structure Footprint where
  qubits : List Qubit
  clbits : List Clbit
deriving DecidableEq, Repr, Inhabited

def Operation.footprint (op : Operation) : Footprint :=
  ⟨op.qubits.toList, op.bitsTouched.toList⟩

/-- The slots still to be emitted, the next one of each lane on top, and those
emitted so far, the last one first. -/
structure Schedule where
  qubitLanes : Lanes
  clbitLanes : OrderedMap Clbit (List Nat)
  emitted : List Nat := []
deriving Repr

namespace Schedule

/-- Adds a slot at the back of the lanes of its classical bits. -/
def queueBits (lanes : OrderedMap Clbit (List Nat)) (slot : Nat) (f : Footprint) :
    OrderedMap Clbit (List Nat) :=
  if f.qubits.isEmpty then lanes
  else f.clbits.foldl (fun m b => m.insert b ((m.get? b).getD [] ++ [slot])) lanes

/-- Nothing is emitted yet. -/
def start (lanes : Lanes) (footprints : List Footprint) : Schedule where
  qubitLanes := ⟨lanes.rows.map List.reverse⟩
  clbitLanes := footprints.zipIdx.foldl (fun m (f, slot) => queueBits m slot f) ∅

/-- Whether a slot is next on all lanes of its operation. -/
def isReady (s : Schedule) (slot : Nat) (f : Footprint) : Bool :=
  f.qubits.all (fun q => s.qubitLanes.top? q = some slot) &&
    f.clbits.all fun b => ((s.clbitLanes.get? b).getD []).head? = some slot

/-- Emits a slot and takes it off its lanes. -/
def emit (s : Schedule) (slot : Nat) (f : Footprint) : Schedule where
  qubitLanes := f.qubits.foldl Lanes.pop s.qubitLanes
  clbitLanes := f.clbits.foldl (fun m b => m.insert b ((m.get? b).getD []).tail) s.clbitLanes
  emitted := slot :: s.emitted

/-- Emits the next slot on the lane of a qubit if it is ready. -/
def visit (footprints : List Footprint) (s : Schedule) (q : Qubit) : Schedule :=
  match s.qubitLanes.top? q with
  | none => s
  | some slot =>
    let f := footprints.getD slot default
    if s.isReady slot f then s.emit slot f else s

/-- Visits every lane once, the highest qubit first. -/
def sweep (footprints : List Footprint) (s : Schedule) : Schedule :=
  (List.range s.qubitLanes.count).reverse.foldl (fun s i => visit footprints s ⟨i⟩) s

def isDone (s : Schedule) : Bool := s.qubitLanes.rows.all List.isEmpty

/-- Sweeps until all lanes are empty, at most the given number of times. Each
sweep emits something, so as many sweeps as operations are enough. -/
def finish (footprints : List Footprint) : Nat → Schedule → Schedule
  | 0, s => s
  | n + 1, s => if s.isDone then s else finish footprints n (sweep footprints s)

/-- The slots of the operations on the lanes, in canonical order. -/
def order (lanes : Lanes) (ops : List Operation) : List Nat :=
  let footprints := ops.map Operation.footprint
  (finish footprints ops.length (start lanes footprints)).emitted.reverse

/-- The operations in the given order, and after them those that it leaves out. -/
def arrange (ops : List Operation) (order : List Nat) : List Operation :=
  order.filterMap (ops[·]?) ++
    (ops.zipIdx.filter fun (_, slot) => !order.contains slot).map (·.1)

def passName : String := "reorder_operations"

end Schedule

/-- Puts the operations into canonical order. -/
def Circuit.reorder (c : Circuit) : Outcome Circuit :=
  match Lanes.build c Schedule.passName with
  | .error e => .failed e c
  | .ok lanes => .done { c with ops := Schedule.arrange c.ops (Schedule.order lanes c.ops) }

end QuantumCircuit
