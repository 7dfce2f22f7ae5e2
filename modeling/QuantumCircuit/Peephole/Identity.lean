import QuantumCircuit.Circuit.Basic

/-! Sweeping up identities, at every depth. A compound that is left empty goes
as well, and one that is left with a single child becomes that child. -/
namespace QuantumCircuit
namespace Operation

mutual
/-- The operation without identities; none if nothing is left. -/
def strip? : Operation → Option Operation
  | .gate g => if (Operation.gate g).isIdentity then none else some (.gate g)
  | .effect e => if (Operation.effect e).isIdentity then none else some (.effect e)
  | .conditional cond body =>
    if body.isIdentity then none else some (.conditional cond body)
  | .compound children =>
    match stripAll children with
    | [] => none
    | op :: rest => some (.ofChildren (op :: rest))

def stripAll : List Operation → List Operation
  | [] => []
  | op :: rest =>
    match op.strip? with
    | some op => op :: stripAll rest
    | none => stripAll rest
end

end Operation

def Circuit.removeIdentities (c : Circuit) : Circuit :=
  { c with ops := Operation.stripAll c.ops }

end QuantumCircuit
