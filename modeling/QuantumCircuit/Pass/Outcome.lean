import QuantumCircuit.Pass.Error

/-! Outcomes of steps that may stop part-way. A failed step still leaves a
state behind: whatever it had changed before it stopped. -/
namespace QuantumCircuit

inductive Outcome (σ : Type) where
  | done (state : σ)
  | failed (cause : PassError) (state : σ)
deriving DecidableEq, Repr

namespace Outcome
variable {σ τ : Type}

def state : Outcome σ → σ
  | done s => s
  | failed _ s => s

def error? : Outcome σ → Option PassError
  | done _ => none
  | failed e _ => some e

def map (f : σ → τ) : Outcome σ → Outcome τ
  | done s => done (f s)
  | failed e s => failed e (f s)

/-- Goes on from the state of a step that did not fail. -/
def andThen (o : Outcome σ) (next : σ → Outcome σ) : Outcome σ :=
  match o with
  | done s => next s
  | failed e s => failed e s

/-- A step that either succeeds or leaves the state as it was. -/
def ofExcept (before : σ) : Except PassError σ → Outcome σ
  | .ok s => done s
  | .error e => failed e before

/-- Runs a step for each element, up to the first failure. A failing step
changes nothing, so what is left is the work of the steps before it. -/
def forEach {α : Type} (step : α → σ → Except PassError σ) : List α → σ → Outcome σ
  | [], s => done s
  | a :: rest, s =>
    match step a s with
    | .ok s' => forEach step rest s'
    | .error e => failed e s

end Outcome
end QuantumCircuit
