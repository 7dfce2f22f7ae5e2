import QuantumCircuit.Proofs.Leaves

/-! The nodes of operations: an operation and, through its compounds, everything inside it,
each compound in front of its children. -/
namespace QuantumCircuit
namespace Operation

mutual
/-- An operation and what it is made of. What stands under a condition is not opened. -/
def nodes : Operation → List Operation
  | .compound children => .compound children :: nodesOfAll children
  | op => [op]

def nodesOfAll : List Operation → List Operation
  | [] => []
  | op :: rest => op.nodes ++ nodesOfAll rest
end

@[simp] theorem nodesOfAll_nil : nodesOfAll [] = [] := rfl

@[simp] theorem nodesOfAll_cons (op : Operation) (ops : List Operation) :
    nodesOfAll (op :: ops) = op.nodes ++ nodesOfAll ops := rfl

@[simp] theorem nodes_compound (children : List Operation) :
    (Operation.compound children).nodes = .compound children :: nodesOfAll children := rfl

theorem nodes_eq_self {op : Operation} (h : op.isCompound = false) : op.nodes = [op] := by
  cases op with
  | compound children => cases h
  | gate g => rfl
  | effect e => rfl
  | conditional cond body => rfl

theorem mem_nodesOfAll {node : Operation} {ops : List Operation} :
    node ∈ nodesOfAll ops ↔ ∃ op ∈ ops, node ∈ op.nodes := by
  induction ops with
  | nil => simp
  | cons op rest ih => simp [ih]

theorem mem_nodes_self (op : Operation) : op ∈ op.nodes := by
  cases op with
  | compound children => exact List.mem_cons_self
  | gate g => exact List.mem_cons_self
  | effect e => exact List.mem_cons_self
  | conditional cond body => exact List.mem_cons_self

end Operation
end QuantumCircuit
