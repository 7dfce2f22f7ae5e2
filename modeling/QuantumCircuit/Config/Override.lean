import QuantumCircuit.Config.Basic
import QuantumCircuit.Number.Digits

/-! Options set from outside, by the names of environment variables. A value
that cannot be read is ignored. -/
namespace QuantumCircuit
namespace Config

/-- Digits with an optional plus sign, below `bound`. -/
def overrideNat? (bound : Nat) (text : String) : Option Nat :=
  let digits := match text.toList with | '+' :: rest => rest | cs => cs
  match digits.mapM Digit.ofChar? with
  | some (d :: ds) =>
    let n := Digit.value (d :: ds)
    if n < bound then some n else none
  | _ => none

/-- The characters with the Unicode property of that name. -/
def isWhiteSpace (c : Char) : Bool :=
  let n := c.toNat
  (9 ≤ n && n ≤ 13) || n = 0x20 || n = 0x85 || n = 0xa0 || n = 0x1680 ||
    (0x2000 ≤ n && n ≤ 0x200a) || n = 0x2028 || n = 0x2029 || n = 0x202f || n = 0x205f ||
    n = 0x3000

/-- A text without the white space at its ends. -/
def trimWhiteSpace (cs : List Char) : List Char :=
  ((cs.dropWhile isWhiteSpace).reverse.dropWhile isWhiteSpace).reverse

/-- A yes or no word, whatever its case and the white space around it. -/
def overrideFlag? (text : String) : Option Bool :=
  match String.ofList ((trimWhiteSpace text.toList).map Char.toLower) with
  | "1" | "true" | "yes" | "on" => some true
  | "0" | "false" | "no" | "off" => some false
  | _ => none

def override (lookup : String → Option String) (c : Config) : Config :=
  let nat (name : String) (bound old : Nat) : Nat :=
    ((lookup name).bind (overrideNat? bound)).getD old
  let flag (name : String) (old : Bool) : Bool := ((lookup name).bind overrideFlag?).getD old
  { optimizationLevel := nat "CIRCOPT_OPTIMIZATION_LEVEL" levelBound c.optimizationLevel
    maxBlockSize := nat "CIRCOPT_MAX_BLOCK_SIZE" blockSizeBound c.maxBlockSize
    decomposeSwaps := flag "CIRCOPT_DECOMPOSE_SWAPS" c.decomposeSwaps
    directedArchitecture := flag "CIRCOPT_DIRECTED_ARCHITECTURE" c.directedArchitecture
    eliminateResets := flag "CIRCOPT_ELIMINATE_RESETS" c.eliminateResets
    deferMeasurements := flag "CIRCOPT_DEFER_MEASUREMENTS" c.deferMeasurements
    removeFinalMeasurements :=
      flag "CIRCOPT_REMOVE_FINAL_MEASUREMENTS" c.removeFinalMeasurements
    backpropagateOutputPermutation :=
      flag "CIRCOPT_BACKPROPAGATE_OUTPUT_PERMUTATION" c.backpropagateOutputPermutation
    flatten := flag "CIRCOPT_FLATTEN" c.flatten }

end Config
end QuantumCircuit
