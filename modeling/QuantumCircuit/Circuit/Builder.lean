import QuantumCircuit.Circuit.Basic

/-! Building circuits operation by operation. Each step checks the shape of the
operation, then that its qubits and bits are declared. -/
namespace QuantumCircuit

/-- The first bit of the register that is not below `n`. -/
def Register.firstFrom? (r : Register) (n : Nat) : Option Clbit :=
  let i := max r.start.index n
  if i < r.stop then some ⟨i⟩ else none

namespace Circuit

def declares (c : Circuit) (q : Qubit) : Bool :=
  q.index < c.numQubits || c.initial.contains q

/-- The first classical bit the operation names itself that is not declared. -/
def undeclaredClbit? (c : Circuit) (op : Operation) : Option Clbit :=
  match op.clbits.find? (c.numClbits ≤ ·.index), op with
  | some b, _ => some b
  | none, .conditional cond _ => cond.register.firstFrom? c.numClbits
  | none, _ => none

def checkOperands (c : Circuit) (op : Operation) : Except CircuitError Unit :=
  match op.qubits.toList.find? (!c.declares ·) with
  | some q => .error (.unknownQubit q op.kind)
  | none =>
    match c.undeclaredClbit? op with
    | some b => .error (.unknownClbit b op.kind)
    | none => .ok ()

/-- Appends an operation that passes both checks. -/
def push (c : Circuit) (op : Operation) : Except CircuitError Circuit :=
  match op.validate with
  | .error e => .error e
  | .ok () =>
    match c.checkOperands op with
    | .error e => .error e
    | .ok () => .ok { c with ops := c.ops ++ [op] }

def apply (c : Circuit) (kind : Kind) (targets : List Qubit) : Except CircuitError Circuit :=
  c.push (.gate (.ofKind kind targets))

def applyControlled (c : Circuit) (kind : Kind) (controls : List Control)
    (targets : List Qubit) : Except CircuitError Circuit :=
  c.push (.gate (.controlled kind controls targets))

/-- Applies a gate with one angle. -/
def rotate (c : Circuit) (kind : Kind) (angle : Binary64) (targets : List Qubit) :
    Except CircuitError Circuit :=
  c.push (.gate { kind, targets, params := [angle] })

def measureMany (c : Circuit) (qubits : List Qubit) (clbits : List Clbit) :
    Except CircuitError Circuit :=
  if qubits.length ≠ clbits.length then .error (.measureShape qubits.length clbits.length)
  else c.push (.effect { kind := .measure, targets := qubits, clbits })

def measure (c : Circuit) (qubit : Qubit) (clbit : Clbit) : Except CircuitError Circuit :=
  c.measureMany [qubit] [clbit]

def reset (c : Circuit) (qubit : Qubit) : Except CircuitError Circuit :=
  c.push (.effect { kind := .reset, targets := [qubit] })

def barrier (c : Circuit) (qubits : List Qubit) : Except CircuitError Circuit :=
  c.push (.effect { kind := .barrier, targets := qubits })

/-- Applies `op` when `register` reads `value`. -/
def applyIf (c : Circuit) (op : Operation) (register : Register) (value : UInt64) :
    Except CircuitError Circuit :=
  c.push (.conditional ⟨register, value⟩ op)

def applyIfBit (c : Circuit) (op : Operation) (clbit : Clbit) (value : UInt64) :
    Except CircuitError Circuit :=
  c.applyIf op (.single clbit) value

/-- Appends operations as one compound. -/
def group (c : Circuit) (ops : List Operation) : Except CircuitError Circuit :=
  c.push (.compound ops)

end Circuit
end QuantumCircuit
