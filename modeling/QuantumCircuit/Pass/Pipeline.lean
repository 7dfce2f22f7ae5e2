import QuantumCircuit.Config.Basic
import QuantumCircuit.Pass.Catalog

/-! Pipelines: passes in a row, and the one that a configuration asks for. -/
namespace QuantumCircuit

abbrev Pipeline := List Pass

namespace Pipeline

def names (p : Pipeline) : List String := p.map (·.name)

/-- Runs the passes in order and stops at the first that fails. A pass that
should not run is left out. -/
def run : Pipeline → Workspace → Outcome Workspace
  | [], w => .done w
  | pass :: rest, w => if pass.shouldRun w then (pass.run w).andThen (run rest) else run rest w

@[simp] theorem run_nil (w : Workspace) : run [] w = .done w := rfl

/-- Two pipelines in a row run as one. -/
theorem run_append (p q : Pipeline) (w : Workspace) : run (p ++ q) w = (run p w).andThen (run q) := by
  induction p generalizing w with
  | nil => rfl
  | cons pass rest ih =>
    rw [List.cons_append, run, run]
    split
    · cases pass.run w with
      | done w' => exact ih w'
      | failed e w' => rfl
    · exact ih w

end Pipeline
end QuantumCircuit
