import QuantumCircuit.Ordered.Map
import QuantumCircuit.Operation.Basic

/-! Open blocks of qubits. Qubits that belong together point at one another, and
the one at the end of the pointers is the root of the block. The root holds what
is known about the block: its members, the operations taken up, and its anchor,
the slot where the block will be written. -/
namespace QuantumCircuit

structure BlockTracker where
  /-- The pointer of each qubit seen; a root points at itself. -/
  parent : OrderedMap Qubit Qubit := ∅
  /-- The qubits of the block of each root. -/
  members : OrderedMap Qubit (List Qubit) := ∅
  /-- The operations of the block of each root. -/
  bodies : OrderedMap Qubit (List Operation) := ∅
  /-- The slot of the block of each root that has taken up an operation. -/
  anchors : OrderedMap Qubit Nat := ∅
  /-- The latest slot of each qubit with an operation that will not move. -/
  lastFixed : OrderedMap Qubit Nat := ∅
deriving Repr

namespace BlockTracker

/-! ## Roots -/

/-- Follows at most the given number of pointers. -/
def chase (parent : OrderedMap Qubit Qubit) : Nat → Qubit → Qubit
  | 0, q => q
  | n + 1, q =>
    match parent.get? q with
    | some p => if p = q then q else chase parent n p
    | none => q

/-- The root of the block of a qubit. Pointers do not run in circles, so their
number is enough. -/
def root (t : BlockTracker) (q : Qubit) : Qubit := chase t.parent t.parent.size q

/-- Points the qubits on the way to the root directly at it. -/
def compress (root : Qubit) : Nat → Qubit → OrderedMap Qubit Qubit → OrderedMap Qubit Qubit
  | 0, _, parent => parent
  | n + 1, q, parent =>
    if q = root then parent
    else compress root n ((parent.get? q).getD root) (parent.insert q root)

/-- Starts a block of its own for a new qubit, and shortens the pointers of a
known one. -/
def touch (t : BlockTracker) (q : Qubit) : BlockTracker :=
  if t.parent.contains q then
    { t with parent := compress (t.root q) t.parent.size q t.parent }
  else
    { t with parent := t.parent.insert q q, members := t.members.insert q [q] }

def find (t : BlockTracker) (q : Qubit) : Qubit × BlockTracker := (t.root q, t.touch q)

/-- The roots of several qubits, looked up in turn. -/
def findAll (t : BlockTracker) : List Qubit → List Qubit × BlockTracker
  | [] => ([], t)
  | q :: rest =>
    let (r, t) := t.find q
    let (rs, t) := findAll t rest
    (r :: rs, t)

/-! ## Blocks -/

/-- The number of qubits in the block of a root. -/
def size (t : BlockTracker) (root : Qubit) : Nat :=
  match t.members.get? root with
  | some ms => ms.length
  | none => 1

def body (t : BlockTracker) (root : Qubit) : List Operation := (t.bodies.get? root).getD []

def membersOf (t : BlockTracker) (root : Qubit) : List Qubit := (t.members.get? root).getD []

/-- The later of two slots, where there are any. -/
def laterSlot? : Option Nat → Option Nat → Option Nat
  | some a, some b => some (max a b)
  | some a, none => some a
  | none, b => b

/-- Points one root at another, which takes over its block. The later anchor is
kept. -/
def link (t : BlockTracker) (keep gone : Qubit) : BlockTracker :=
  let anchor := laterSlot? (t.anchors.get? keep) (t.anchors.get? gone)
  let anchors := (t.anchors.erase keep).erase gone
  { t with
    parent := t.parent.insert gone keep
    bodies :=
      if t.bodies.contains gone then
        (t.bodies.erase gone).insert keep (t.body keep ++ t.body gone)
      else t.bodies
    members := (t.members.erase gone).insert keep (t.membersOf keep ++ t.membersOf gone)
    anchors := match anchor with | some slot => anchors.insert keep slot | none => anchors }

/-- Merges two blocks. The root with more operations stays one. -/
def union (t : BlockTracker) (a b : Qubit) : BlockTracker :=
  let (ra, t) := t.find a
  let (rb, t) := t.find b
  if ra = rb then t
  else if (t.body ra).length < (t.body rb).length then t.link rb ra
  else t.link ra rb

/-- Records an operation on a qubit that will not move. -/
def markFixed (t : BlockTracker) (q : Qubit) (slot : Nat) : BlockTracker :=
  { t with lastFixed := t.lastFixed.insert q (max ((t.lastFixed.get? q).getD slot) slot) }

/-- Makes a qubit a block of its own again, behind a block that was written. -/
def release (slot : Nat) (t : BlockTracker) (q : Qubit) : BlockTracker :=
  { t with parent := t.parent.insert q q, members := t.members.insert q [q] }.markFixed q slot

/-- Dissolves the block of a root that was written to a slot. -/
def dissolve (t : BlockTracker) (root : Qubit) (slot : Nat) : BlockTracker :=
  (t.membersOf root).foldl (release slot)
    { t with
      anchors := t.anchors.erase root
      bodies := t.bodies.erase root
      members := t.members.erase root }

end BlockTracker
end QuantumCircuit
