import QuantumCircuit.Number.Positional
import QuantumCircuit.Operation.Basic

/-! Operations in listings. A gate is written with one letter `c` for each
control, its name, its parameters and its operands. -/
namespace QuantumCircuit

def commaSeparated (parts : List String) : String := String.intercalate ", " parts

def Gate.text (g : Gate) : String :=
  let marks := String.ofList (g.controls.toList.map fun _ => 'c')
  let params :=
    if g.params.isEmpty then "" else "(" ++ commaSeparated (g.params.map Binary64.text) ++ ")"
  let controls := String.join (g.controls.toList.map fun c => c.text ++ ", ")
  marks ++ g.kind.name ++ params ++ " " ++ controls ++ commaSeparated (g.targets.map Qubit.text)

def Effect.text (e : Effect) : String :=
  let results :=
    if e.clbits.isEmpty then "" else " -> " ++ commaSeparated (e.clbits.map Clbit.text)
  e.kind.name ++ " " ++ commaSeparated (e.targets.map Qubit.text) ++ results

def Condition.text (c : Condition) : String :=
  "if (" ++ c.register.start.text ++ "[" ++ toString c.register.size ++ "] == " ++
    toString c.value.toNat ++ ")"

namespace Operation

mutual
def text : Operation → String
  | .gate g => g.text
  | .effect e => e.text
  | .conditional cond body => cond.text ++ " " ++ body.text
  | .compound children => "compound \x7b" ++ String.intercalate "; " (texts children) ++ "\x7d"

def texts : List Operation → List String
  | [] => []
  | op :: rest => op.text :: texts rest
end

end Operation
end QuantumCircuit
