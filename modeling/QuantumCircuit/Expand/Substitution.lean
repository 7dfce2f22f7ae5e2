import QuantumCircuit.Circuit.Basic

/-! Replacing gates by short sequences, at every depth. Inside a compound the
sequence takes the place of the gate; the body of a conditional operation is
left alone. -/
namespace QuantumCircuit

/-- The gates that replace a gate; none if it stays. -/
abbrev Substitution := Gate → Option (List Gate)

namespace Operation

mutual
def substitute (f : Substitution) : Operation → List Operation
  | .gate g =>
    match f g with
    | some gates => gates.map .gate
    | none => [.gate g]
  | .compound children => [.compound (substituteAll f children)]
  | .effect e => [.effect e]
  | .conditional cond body => [.conditional cond body]

def substituteAll (f : Substitution) : List Operation → List Operation
  | [] => []
  | op :: rest => op.substitute f ++ substituteAll f rest
end

end Operation

def Circuit.substitute (f : Substitution) (c : Circuit) : Circuit :=
  { c with ops := Operation.substituteAll f c.ops }

end QuantumCircuit
