/-! The kinds of operations a circuit may hold, and the table of facts about
each kind: its name, how many targets and parameters it takes, whether it is
diagonal. -/
namespace QuantumCircuit

inductive Kind where
  | i | h | x | y | z | s | sdg | t | tdg | sx | sxdg | v | vdg
  | u3 | u2 | phase | rx | ry | rz
  | swap | iswap | peres | peresdg | dcx | ecr
  | rxx | ryy | rzz | rzx | xxMinusYY | xxPlusYY
  | compound
  | measure | reset | barrier | snapshot | showProbabilities
  | classicControlled
deriving DecidableEq, Repr

namespace Kind

def all : List Kind :=
  [i, h, x, y, z, s, sdg, t, tdg, sx, sxdg, v, vdg, u3, u2, phase, rx, ry, rz,
   swap, iswap, peres, peresdg, dcx, ecr, rxx, ryy, rzz, rzx, xxMinusYY, xxPlusYY,
   compound, measure, reset, barrier, snapshot, showProbabilities, classicControlled]

/-- The name in listings and messages. -/
def name : Kind → String
  | i => "id" | h => "h" | x => "x" | y => "y" | z => "z"
  | s => "s" | sdg => "sdg" | t => "t" | tdg => "tdg"
  | sx => "sx" | sxdg => "sxdg" | v => "v" | vdg => "vdg"
  | u3 => "u3" | u2 => "u2" | phase => "p" | rx => "rx" | ry => "ry" | rz => "rz"
  | swap => "swap" | iswap => "iswap" | peres => "peres" | peresdg => "peresdg"
  | dcx => "dcx" | ecr => "ecr"
  | rxx => "rxx" | ryy => "ryy" | rzz => "rzz" | rzx => "rzx"
  | xxMinusYY => "xx_minus_yy" | xxPlusYY => "xx_plus_yy"
  | compound => "compound" | measure => "measure" | reset => "reset"
  | barrier => "barrier" | snapshot => "snapshot"
  | showProbabilities => "show_probabilities"
  | classicControlled => "classic_controlled"

/-- The tag in snapshots. -/
def tag : Kind → String
  | i => "I" | h => "H" | x => "X" | y => "Y" | z => "Z"
  | s => "S" | sdg => "Sdg" | t => "T" | tdg => "Tdg"
  | sx => "SX" | sxdg => "SXdg" | v => "V" | vdg => "Vdg"
  | u3 => "U3" | u2 => "U2" | phase => "Phase" | rx => "RX" | ry => "RY" | rz => "RZ"
  | swap => "Swap" | iswap => "ISwap" | peres => "Peres" | peresdg => "Peresdg"
  | dcx => "DCX" | ecr => "ECR"
  | rxx => "RXX" | ryy => "RYY" | rzz => "RZZ" | rzx => "RZX"
  | xxMinusYY => "XXminusYY" | xxPlusYY => "XXplusYY"
  | compound => "Compound" | measure => "Measure" | reset => "Reset"
  | barrier => "Barrier" | snapshot => "Snapshot"
  | showProbabilities => "ShowProbabilities"
  | classicControlled => "ClassicControlled"

def ofTag? (text : String) : Option Kind :=
  all.find? (·.tag = text)

/-- The number of targets of a gate; other kinds fix none. -/
def numTargets : Kind → Option Nat
  | i | h | x | y | z | s | sdg | t | tdg | sx | sxdg | v | vdg
  | u3 | u2 | phase | rx | ry | rz => some 1
  | swap | iswap | peres | peresdg | dcx | ecr
  | rxx | ryy | rzz | rzx | xxMinusYY | xxPlusYY => some 2
  | _ => none

def numParams : Kind → Nat
  | u3 => 3
  | u2 | xxMinusYY | xxPlusYY => 2
  | phase | rx | ry | rz | rxx | ryy | rzz | rzx => 1
  | _ => 0

/-- Gates whose matrix is diagonal in the computational basis. -/
def isDiagonal : Kind → Bool
  | i | z | s | sdg | t | tdg | phase | rz | rzz => true
  | _ => false

def isNonUnitary : Kind → Bool
  | measure | reset | barrier | snapshot | showProbabilities => true
  | _ => false

def isGate (k : Kind) : Bool := k.numTargets.isSome

/-- The gate that undoes a gate without parameters, where the table has one. -/
def inverse? : Kind → Option Kind
  | i => some i | x => some x | y => some y | z => some z | h => some h
  | s => some sdg | sdg => some s
  | t => some tdg | tdg => some t
  | sx => some sxdg | sxdg => some sx
  | _ => none

theorem mem_all (k : Kind) : k ∈ all := by cases k <;> decide

end Kind
end QuantumCircuit
