import QuantumCircuit.Kind
import QuantumCircuit.Number.Binary64
import QuantumCircuit.Qubit

/-! Operations: the records a circuit is made of. A record is plain data, and
its kind need not fit its shape; `Operation.isWellFormed` says when it does. -/
namespace QuantumCircuit

/-- A gate on targets, acting when every control holds. -/
structure Gate where
  kind : Kind
  controls : Controls := ∅
  targets : List Qubit
  params : List Binary64 := []
deriving DecidableEq, Repr

/-- A measurement, reset, barrier or simulator directive. A measurement pairs
its targets with the classical bits it writes. -/
structure Effect where
  kind : Kind
  targets : List Qubit
  clbits : List Clbit := []
deriving DecidableEq, Repr

/-- A run of classical bits read as one number. -/
structure Register where
  start : Clbit
  size : Nat
deriving DecidableEq, Repr

/-- Holds when the register reads `value`. -/
structure Condition where
  register : Register
  value : UInt64
deriving DecidableEq, Repr

inductive Operation where
  | gate (g : Gate)
  /-- A group of operations treated as one unit, in execution order. -/
  | compound (children : List Operation)
  | effect (e : Effect)
  /-- An operation carried out only when the condition holds. -/
  | conditional (cond : Condition) (body : Operation)
deriving Repr, Inhabited

namespace Register

def single (c : Clbit) : Register := ⟨c, 1⟩

/-- The word behind the last bit. -/
def stop (r : Register) : Nat := wordAdd r.start.index r.size

/-- The bits from the start on up to the end. There are none when the end is not behind the
start, as for a register that goes past the last word. -/
def bits (r : Register) : List Clbit :=
  (List.range' r.start.index (r.stop - r.start.index)).map Clbit.mk

end Register

namespace Gate

def ofKind (kind : Kind) (targets : List Qubit) : Gate := { kind, targets }

def controlled (kind : Kind) (controls : List Control) (targets : List Qubit) : Gate :=
  { kind, controls := .ofList controls, targets }

def cnot (control target : Qubit) : Gate := controlled .x [.pos control] [target]

/-- An X gate with one positive control and one target. -/
def isCnot (g : Gate) : Bool :=
  g.kind = .x && g.targets.length = 1 && g.controls.size = 1 &&
    g.controls.toList.all Control.isPositive

/-- A SWAP of two targets without controls. -/
def isSwap (g : Gate) : Bool :=
  g.kind = .swap && g.controls.isEmpty && g.targets.length = 2

/-- The control qubit of a gate that has exactly one control. -/
def controlQubit? (g : Gate) : Option Qubit :=
  match g.controls.toList with
  | [c] => some c.qubit
  | _ => none

def actsOn (g : Gate) (q : Qubit) : Bool :=
  q ∈ g.targets || g.controls.toList.any (·.qubit = q)

/-- The qubits of the controls, then the targets. -/
def operands (g : Gate) : List Qubit := g.controls.qubits ++ g.targets

def mapQubits (f : Qubit → Qubit) (g : Gate) : Gate :=
  { g with
    targets := g.targets.map f
    controls := g.controls.map fun c => { c with qubit := f c.qubit } }

end Gate

namespace Operation

mutual
def decEq : (a b : Operation) → Decidable (a = b)
  | .gate g, .gate h =>
    if e : g = h then .isTrue (by rw [e]) else .isFalse (by simpa using e)
  | .compound as, .compound bs =>
    match decEqList as bs with
    | .isTrue e => .isTrue (by rw [e])
    | .isFalse e => .isFalse (by simpa using e)
  | .effect x, .effect y =>
    if e : x = y then .isTrue (by rw [e]) else .isFalse (by simpa using e)
  | .conditional c a, .conditional d b =>
    if e : c = d then
      match decEq a b with
      | .isTrue e' => .isTrue (by rw [e, e'])
      | .isFalse e' => .isFalse (by simp [e'])
    else .isFalse (by simp [e])
  | .gate _, .compound _ | .gate _, .effect _ | .gate _, .conditional .. => .isFalse nofun
  | .compound _, .gate _ | .compound _, .effect _ | .compound _, .conditional .. => .isFalse nofun
  | .effect _, .gate _ | .effect _, .compound _ | .effect _, .conditional .. => .isFalse nofun
  | .conditional .., .gate _ | .conditional .., .compound _ | .conditional .., .effect _ =>
    .isFalse nofun

def decEqList : (as bs : List Operation) → Decidable (as = bs)
  | [], [] => .isTrue rfl
  | a :: as, b :: bs =>
    match decEq a b with
    | .isFalse e => .isFalse (by simp [e])
    | .isTrue e =>
      match decEqList as bs with
      | .isTrue e' => .isTrue (by rw [e, e'])
      | .isFalse e' => .isFalse (by simp [e'])
  | [], _ :: _ | _ :: _, [] => .isFalse nofun
end

instance : DecidableEq Operation := decEq

/-- Induction in which a compound may use the statement for its children. -/
@[elab_as_elim] theorem inductionOn {motive : Operation → Prop} (op : Operation)
    (gate : ∀ g, motive (.gate g))
    (compound : ∀ children, (∀ c ∈ children, motive c) → motive (.compound children))
    (effect : ∀ e, motive (.effect e))
    (conditional : ∀ cond body, motive body → motive (.conditional cond body)) :
    motive op :=
  @Operation.rec motive (fun cs => ∀ c ∈ cs, motive c)
    gate compound effect conditional (by simp)
    (fun _ _ hhead htail => by simpa using ⟨hhead, htail⟩) op

/-! ## Parts -/

def kind : Operation → Kind
  | .gate g => g.kind
  | .compound _ => .compound
  | .effect e => e.kind
  | .conditional .. => .classicControlled

def name (op : Operation) : String := op.kind.name

/-- The controls of the gate; a conditional operation has those of its body. -/
def controls : Operation → Controls
  | .gate g => g.controls
  | .conditional _ body => body.controls
  | .compound _ | .effect _ => ∅

/-- The targets; a compound has none of its own. -/
def targets : Operation → List Qubit
  | .gate g => g.targets
  | .effect e => e.targets
  | .conditional _ body => body.targets
  | .compound _ => []

/-- The classical bits that a measurement writes. -/
def clbits : Operation → List Clbit
  | .effect e => e.clbits
  | _ => []

def params : Operation → List Binary64
  | .gate g => g.params
  | .conditional _ body => body.params
  | _ => []

def asGate? : Operation → Option Gate
  | .gate g => some g
  | _ => none

/-! ## Qubits -/

mutual
/-- The qubits an operation touches, those of its children included. -/
def qubits : Operation → OrderedSet Qubit
  | .gate g => .ofList g.operands
  | .effect e => .ofList e.targets
  | .conditional _ body => body.qubits
  | .compound children => qubitsOfAll children

def qubitsOfAll : List Operation → OrderedSet Qubit
  | [] => ∅
  | op :: rest => op.qubits.union (qubitsOfAll rest)
end

mutual
def actsOn (q : Qubit) : Operation → Bool
  | .gate g => g.actsOn q
  | .effect e => q ∈ e.targets
  | .conditional _ body => body.actsOn q
  | .compound children => anyActsOn q children

def anyActsOn (q : Qubit) : List Operation → Bool
  | [] => false
  | op :: rest => op.actsOn q || anyActsOn q rest
end

theorem anyActsOn_eq (q : Qubit) (ops : List Operation) :
    anyActsOn q ops = ops.any (·.actsOn q) := by
  induction ops with
  | nil => rfl
  | cons op rest ih => simp [anyActsOn, ih]

theorem mem_qubitsOfAll {q : Qubit} {ops : List Operation} :
    q ∈ qubitsOfAll ops ↔ ∃ op ∈ ops, q ∈ op.qubits := by
  induction ops with
  | nil => simp [qubitsOfAll, EmptyCollection.emptyCollection]
  | cons op rest ih => simp [qubitsOfAll, ih, or_comm]

theorem mem_qubits {q : Qubit} {op : Operation} : q ∈ op.qubits ↔ op.actsOn q = true := by
  induction op using inductionOn with
  | gate g =>
    simp [qubits, actsOn, Gate.actsOn, Gate.operands, Controls.qubits, or_comm]
  | effect e => simp [qubits, actsOn]
  | conditional cond body ih => simpa [qubits, actsOn] using ih
  | compound children ih =>
    simp only [qubits, actsOn, mem_qubitsOfAll, anyActsOn_eq, List.any_eq_true]
    exact ⟨fun ⟨c, hc, h⟩ => ⟨c, hc, (ih c hc).1 h⟩, fun ⟨c, hc, h⟩ => ⟨c, hc, (ih c hc).2 h⟩⟩

/-! ## Classes of operations -/

def isMeasure : Operation → Bool
  | .effect e => e.kind = .measure
  | _ => false

def isReset : Operation → Bool
  | .effect e => e.kind = .reset
  | _ => false

def isGate (op : Operation) : Bool := op.asGate?.isSome

def isCompound : Operation → Bool
  | .compound _ => true
  | _ => false

def isEffect : Operation → Bool
  | .effect _ => true
  | _ => false

def isConditional : Operation → Bool
  | .conditional .. => true
  | _ => false

mutual
/-- A compound is unitary when all its children are; a conditional operation
never is. -/
def isUnitary : Operation → Bool
  | .gate _ => true
  | .compound children => allUnitary children
  | .effect _ | .conditional .. => false

def allUnitary : List Operation → Bool
  | [] => true
  | op :: rest => op.isUnitary && allUnitary rest
end

theorem allUnitary_eq (ops : List Operation) : allUnitary ops = ops.all isUnitary := by
  induction ops with
  | nil => rfl
  | cons op rest ih => simp [allUnitary, ih]

/-- Whether the operation has been reduced to an identity. -/
def isIdentity : Operation → Bool
  | .gate g => g.kind = .i
  | .effect e => e.kind = .i
  | .conditional _ body => body.isIdentity
  | .compound _ => false

/-- Whether the kind fits the shape. An effect may be reduced to an identity;
a condition is put on a gate. -/
def isWellFormed : Operation → Bool
  | .gate g => g.kind.isGate
  | .effect e => e.kind.isNonUnitary || e.kind = .i
  | .conditional _ body => body.isGate && body.isWellFormed
  | .compound _ => true

/-! ## Edits -/

/-- Changes the kind; a condition passes the change on to its body, and a
compound stays as it is. -/
def retag (k : Kind) : Operation → Operation
  | .gate g => .gate { g with kind := k }
  | .effect e => .effect { e with kind := k }
  | .conditional cond body => .conditional cond (body.retag k)
  | .compound children => .compound children

def clearControls : Operation → Operation
  | .gate g => .gate { g with controls := ∅ }
  | .conditional cond body => .conditional cond body.clearControls
  | .compound children => .compound children
  | .effect e => .effect e

/-- Reduces the operation to an identity without controls, to be swept up
later. -/
def discard (op : Operation) : Operation := (op.retag .i).clearControls

mutual
/-- Renames the qubits, those of the children included. -/
def mapQubits (f : Qubit → Qubit) : Operation → Operation
  | .gate g => .gate (g.mapQubits f)
  | .effect e => .effect { e with targets := e.targets.map f }
  | .conditional cond body => .conditional cond (body.mapQubits f)
  | .compound children => .compound (mapQubitsAll f children)

def mapQubitsAll (f : Qubit → Qubit) : List Operation → List Operation
  | [] => []
  | op :: rest => op.mapQubits f :: mapQubitsAll f rest
end

/-- A compound of one operation is that operation. -/
def ofChildren : List Operation → Operation
  | [op] => op
  | ops => .compound ops

mutual
/-- The operations that are not compounds, in execution order. -/
def leaves : Operation → List Operation
  | .compound children => leavesOfAll children
  | op => [op]

def leavesOfAll : List Operation → List Operation
  | [] => []
  | op :: rest => op.leaves ++ leavesOfAll rest
end

theorem leavesOfAll_eq (ops : List Operation) : leavesOfAll ops = ops.flatMap leaves := by
  induction ops with
  | nil => rfl
  | cons op rest ih => simp [leavesOfAll, ih]

end Operation
end QuantumCircuit
