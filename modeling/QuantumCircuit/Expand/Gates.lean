import QuantumCircuit.Expand.Substitution

/-! Gate sets without SWAPs, and without controlled X gates. -/
namespace QuantumCircuit

def hadamard (q : Qubit) : Gate := .ofKind .h [q]

/-- A SWAP of two targets is three CNOTs, the middle one carrying the controls
of the SWAP. In the directed form every CNOT points from the first target to
the second, and Hadamard gates turn the middle one around. -/
def expandSwap (directed : Bool) : Substitution := fun g =>
  match g.kind, g.targets with
  | .swap, [a, b] =>
    let outer := Gate.cnot a b
    if directed then
      let middle : Gate :=
        { kind := .x, controls := g.controls.insert (.pos a), targets := [b] }
      some [outer, hadamard a, hadamard b, middle, hadamard a, hadamard b, outer]
    else
      let middle : Gate :=
        { kind := .x, controls := g.controls.insert (.pos b), targets := [a] }
      some [outer, middle, outer]
  | _, _ => none

/-- A controlled X is a controlled Z between Hadamard gates on the target. -/
def expandControlledX : Substitution := fun g =>
  match g.kind, g.targets with
  | .x, [t] =>
    if g.controls.isEmpty then none
    else some [hadamard t, { kind := .z, controls := g.controls, targets := [t] }, hadamard t]
  | _, _ => none

namespace Circuit

def decomposeSwaps (directed : Bool) (c : Circuit) : Circuit :=
  c.substitute (expandSwap directed)

def replaceControlledX (c : Circuit) : Circuit :=
  c.substitute expandControlledX

end Circuit
end QuantumCircuit
