/-! The options of the optimizer and the rules they must obey. -/
namespace QuantumCircuit

structure Config where
  /-- How much is tried, from 0 to 3. -/
  optimizationLevel : Nat := 1
  /-- The most qubits a collected block may have. -/
  maxBlockSize : Nat := 2
  decomposeSwaps : Bool := false
  /-- Whether decomposed SWAPs point all their CNOTs the same way. -/
  directedArchitecture : Bool := false
  eliminateResets : Bool := false
  deferMeasurements : Bool := false
  removeFinalMeasurements : Bool := false
  backpropagateOutputPermutation : Bool := false
  flatten : Bool := false
deriving DecidableEq, Repr, Inhabited

/-- Why a configuration cannot be used. -/
inductive ConfigError where
  | unreadable
  | malformed
  | invalidLevel (level : Nat)
  | zeroBlockSize
  | directedWithoutDecomposition
  | flattenAfterBlocks
deriving DecidableEq, Repr

namespace ConfigError

/-- The wording of a broken rule; the other causes have none. -/
def message? : ConfigError → Option String
  | unreadable | malformed => none
  | invalidLevel n =>
    some ("Validation error: Invalid optimization level: " ++ toString n ++ " (expected 0-3)")
  | zeroBlockSize => some "Validation error: max_block_size must be greater than 0"
  | directedWithoutDecomposition =>
    some "Validation error: directed_architecture requires decompose_swaps"
  | flattenAfterBlocks =>
    some "Validation error: flatten would undo block collection at optimization level 3"

end ConfigError

namespace Config

/-- The first rule that is broken. -/
def validate (c : Config) : Except ConfigError Unit :=
  if 3 < c.optimizationLevel then .error (.invalidLevel c.optimizationLevel)
  else if c.maxBlockSize = 0 then .error .zeroBlockSize
  else if c.directedArchitecture && !c.decomposeSwaps then .error .directedWithoutDecomposition
  else if c.flatten && 3 ≤ c.optimizationLevel then .error .flattenAfterBlocks
  else .ok ()

/-- The configuration if it breaks no rule. -/
def validated (c : Config) : Except ConfigError Config :=
  match c.validate with
  | .ok () => .ok c
  | .error e => .error e

/-- The names of the fields, in order. -/
def fieldNames : List String :=
  ["optimization_level", "max_block_size", "decompose_swaps", "directed_architecture",
   "eliminate_resets", "defer_measurements", "remove_final_measurements",
   "backpropagate_output_permutation", "flatten"]

/-- The bounds that the level and the block size stay below. -/
def levelBound : Nat := 256

def blockSizeBound : Nat := 18446744073709551616

/-- A configuration from the fields that are given, read by the two readers.
The others have their defaults; none if a given field cannot be read. -/
def ofFields? {α : Type} (nat? : Nat → α → Option Nat) (bool? : α → Option Bool)
    (fields : List (Option α)) : Option Config :=
  match fields with
  | [level, size, decompose, directed, resets, defer, final, backpropagate, flatten] => do
    let nat (bound default : Nat) : Option α → Option Nat
      | some v => nat? bound v
      | none => some default
    let flag : Option α → Option Bool
      | some v => bool? v
      | none => some false
    return {
      optimizationLevel := ← nat levelBound 1 level
      maxBlockSize := ← nat blockSizeBound 2 size
      decomposeSwaps := ← flag decompose
      directedArchitecture := ← flag directed
      eliminateResets := ← flag resets
      deferMeasurements := ← flag defer
      removeFinalMeasurements := ← flag final
      backpropagateOutputPermutation := ← flag backpropagate
      flatten := ← flag flatten }
  | _ => none

end Config
end QuantumCircuit
