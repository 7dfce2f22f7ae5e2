import QuantumCircuit.Block.Tracker
import QuantumCircuit.Measurement.Deferral
import QuantumCircuit.Peephole.Identity
import QuantumCircuit.Schedule

/-! Unitary operations gathered into blocks of few qubits. An operation joins the
open blocks of its qubits. Where they would grow too large, some are written
first: for an operation that is itself too wide all of them, packed together as
far as they fit, and otherwise those that free the most room. -/
namespace QuantumCircuit

/-- The open blocks and the slots; the slot of an operation that has joined a
block is empty. -/
structure BlockState where
  tracker : BlockTracker := {}
  slots : List (Option Operation)
deriving Repr

namespace BlockState

/-- Writes the block of a qubit to its anchor and dissolves it. -/
def finalize (s : BlockState) (q : Qubit) : BlockState :=
  let (root, t) := s.tracker.find q
  match t.anchors.get? root with
  | none => { s with tracker := t }
  | some anchor =>
    { tracker := t.dissolve root anchor
      slots := s.slots.set anchor (some (.ofChildren (t.body root))) }

/-- Whether no operation has joined the block of a qubit yet. -/
def isFresh (s : BlockState) (q : Qubit) : Bool × BlockState :=
  let (root, t) := s.tracker.find q
  (!t.anchors.contains root, { s with tracker := t })

/-- A block with a number that ranks it: its size, or the room it would free. -/
abbrev Ranking := List (Qubit × Nat)

/-- The greatest number first; equal ones stay in order. -/
def descending (r : Ranking) : Ranking := r.mergeSort fun a b => b.2 ≤ a.2

/-- The open blocks of some qubits with their sizes. -/
def openBlocks (s : BlockState) : List Qubit → Ranking → Ranking × BlockState
  | [], acc => (acc, s)
  | q :: rest, acc =>
    let (root, t) := s.tracker.find q
    let (fresh, s) := { s with tracker := t }.isFresh root
    if fresh || acc.any (·.1 = root) then openBlocks s rest acc
    else openBlocks s rest (acc ++ [(root, s.tracker.size root)])

/-- Merges into a block of the given size those of the others that still fit;
gives the ones left over. -/
def packInto (limit : Nat) (block : Qubit) : Nat → Ranking → BlockTracker → Ranking × BlockTracker
  | _, [], t => ([], t)
  | size, (next, n) :: rest, t =>
    if size < limit then
      if size + n ≤ limit then packInto limit block (size + n) rest (t.union block next)
      else
        let (left, t) := packInto limit block size rest t
        ((next, n) :: left, t)
    else ((next, n) :: rest, t)

theorem length_packInto_le (limit : Nat) (block : Qubit) (size : Nat) (r : Ranking)
    (t : BlockTracker) : (packInto limit block size r t).1.length ≤ r.length := by
  fun_induction packInto limit block size r t <;> grind

/-- Packs blocks together as far as they fit, the largest first, and writes
them. -/
def packAndFinalize (limit : Nat) (s : BlockState) : Ranking → BlockState
  | [] => s
  | (block, size) :: rest =>
    have := length_packInto_le limit block size rest s.tracker
    let packed := packInto limit block size rest s.tracker
    packAndFinalize limit ({ s with tracker := packed.2 }.finalize block) packed.1
termination_by r => r.length

/-- The blocks of some qubits with the room that writing each would free, and
the total size of the blocks. -/
def savings (t : BlockTracker) : List Qubit → Ranking → Nat → (Ranking × Nat) × BlockTracker
  | [], acc, total => ((acc, total), t)
  | q :: rest, acc, total =>
    let (root, t) := t.find q
    if acc.any (·.1 = root) then
      savings t rest (acc.map fun e => if e.1 = root then (e.1, e.2 - 1) else e) total
    else
      savings t rest (acc ++ [(root, t.size root - 1)]) (total + t.size root)

/-- Writes blocks until enough room is free. -/
def finalizeUntil (s : BlockState) : Nat → Ranking → BlockState
  | _, [] => s
  | need, (root, saving) :: rest =>
    if need = 0 then s else finalizeUntil (s.finalize root) (need - saving) rest

/-- Writes the blocks that free the most room until the operation fits. -/
def finalizeBySavings (limit : Nat) (s : BlockState) (used : List Qubit) : BlockState :=
  let ((ranking, total), t) := savings s.tracker used [] 0
  finalizeUntil { s with tracker := t } (total - limit) (descending ranking)

/-- The latest fixed slot of the qubits whose blocks are fresh. -/
def latestFixed (s : BlockState) : List Qubit → Option Nat → Option Nat × BlockState
  | [], acc => (acc, s)
  | q :: rest, acc =>
    let (fresh, s) := s.isFresh q
    let acc :=
      if fresh then BlockTracker.laterSlot? acc (s.tracker.lastFixed.get? q) else acc
    latestFixed s rest acc

/-- Writes a block that is anchored before the given slot. -/
def finalizeBefore (slot : Nat) (s : BlockState) (root : Qubit) : BlockState :=
  match s.tracker.anchors.get? root with
  | some anchor => if anchor < slot then s.finalize root else s
  | none => s

/-- Writes open blocks that an operation must not join, since that would move it
before an operation that is already fixed on one of its qubits. -/
def releaseStale (s : BlockState) (used : List Qubit) : BlockState :=
  match s.latestFixed used none with
  | (none, s) => s
  | (some slot, s) =>
    let (roots, t) := s.tracker.findAll used
    (OrderedSet.ofList roots).toList.foldl (finalizeBefore slot) { s with tracker := t }

/-- Merges the blocks of qubits that follow one another in the list. -/
def unionAll (t : BlockTracker) : List Qubit → BlockTracker
  | a :: b :: rest => unionAll (t.union a b) (b :: rest)
  | _ => t

/-- Moves the operation at a slot into the block of its qubits. -/
def absorb (s : BlockState) (used : List Qubit) (slot : Nat) : BlockState :=
  let t := unionAll s.tracker used
  match used with
  | [] => { s with tracker := t }
  | first :: _ =>
    let (root, t) := t.find first
    let t :=
      match s.slots[slot]? with
      | some (some op) => { t with bodies := t.bodies.insert root (t.body root ++ [op]) }
      | _ => t
    let anchors := if t.anchors.contains root then t.anchors else t.anchors.insert root slot
    { tracker := { t with anchors }, slots := s.slots.set slot none }

/-- Fixes an operation in place. -/
def fix (slot : Nat) (s : BlockState) (q : Qubit) : BlockState :=
  { s with tracker := s.tracker.markFixed q slot }

/-- Closes the block of a qubit in front of an operation that stays in place. -/
def close (slot : Nat) (s : BlockState) (q : Qubit) : BlockState :=
  fix slot (s.finalize q) q

/-- Writes blocks of the given qubits where together they would be too large. -/
def makeRoom (limit : Nat) (s : BlockState) (used : List Qubit) : BlockState :=
  let (roots, t) := s.tracker.findAll used
  let combined := (OrderedSet.ofList roots).toList.foldl (fun n root => n + t.size root) 0
  let s := { s with tracker := t }
  if limit < combined then
    if limit < used.length then
      let (blocks, s) := s.openBlocks used []
      s.packAndFinalize limit (descending blocks)
    else s.finalizeBySavings limit used
  else s

/-- Takes in a unitary operation on the given qubits. -/
def takeIn (limit : Nat) (s : BlockState) (used : List Qubit) (slot : Nat) : BlockState :=
  let s := s.makeRoom limit used
  if limit < used.length then used.foldl (fix slot) s
  else (s.releaseStale used).absorb used slot

/-- Processes the operation at a slot. -/
def step (limit : Nat) (s : BlockState) (slot : Nat) : BlockState :=
  match s.slots[slot]? with
  | some (some op) =>
    let used := op.qubits.toList
    if used.isEmpty then s
    else if op.isUnitary then s.takeIn limit used slot
    else used.foldl (close slot) s
  | _ => s

def ofOps (ops : List Operation) : BlockState := { slots := ops.map some }

/-- The state after the first `n` slots. -/
def after (limit : Nat) (ops : List Operation) (n : Nat) : BlockState :=
  (List.range n).foldl (step limit) (ofOps ops)

def finalizeAll (s : BlockState) : BlockState := s.tracker.parent.keys.foldl finalize s

/-- The operations gathered into blocks of at most `limit` qubits. -/
def gather (limit : Nat) (ops : List Operation) : List Operation :=
  (after limit ops ops.length).finalizeAll.slots.filterMap id

end BlockState

/-- Gathers unitary operations into blocks, after putting the operations into
canonical order and deferring the measurements. A circuit of at most one
operation stays as it is. -/
def Circuit.collectBlocks (limit : Nat) (c : Circuit) : Outcome Circuit :=
  if c.ops.length ≤ 1 then .done c
  else if limit = 0 then .failed .zeroBlockSize c
  else
    (c.reorder.andThen Circuit.deferMeasurements).andThen fun c =>
      .done (Circuit.removeIdentities { c with ops := BlockState.gather limit c.ops })

end QuantumCircuit
