import QuantumCircuit.Number.Binary64
import QuantumCircuit.Number.Digits

/-! The fewest decimal digits that read back as a given double. The reals that
round to a double form an interval; a decimal with few digits is a point of a
coarse grid, and the first grid with a point in the interval gives the digits.
On each grid only the two points next to the double need a test. -/
namespace QuantumCircuit

/-- Which of two equally near decimals is taken. -/
inductive Tie where
  | up
  | toEven
deriving DecidableEq, Repr

/-- The number `digits * 10 ^ exponent`. -/
structure Decimal where
  digits : Nat
  exponent : Int
deriving DecidableEq, Repr

namespace Decimal

/-- The same number without trailing zeros in its digits. -/
def strip (d : Decimal) : Decimal :=
  if h : d.digits ≠ 0 ∧ d.digits % 10 = 0 then
    strip ⟨d.digits / 10, d.exponent + 1⟩
  else d
termination_by d.digits
decreasing_by
  show d.digits / 10 < d.digits
  omega

/-- The exponent of the leading digit. -/
def leadingExponent (d : Decimal) : Int :=
  d.exponent + ((digitsOf d.digits).length - 1 : Nat)

end Decimal

namespace Shortest

/-- A positive double in quarter steps: it is `4 * significand` quarters, and
the reals between `low` and `high` quarters round to it. -/
structure Interval where
  low : Nat
  value : Nat
  high : Nat
  /-- Whether the two ends round to the double as well. -/
  closed : Bool
  /-- One quarter is `2 ^ (scale - 1076)`. -/
  scale : Nat
deriving DecidableEq, Repr

/-- The gap below a power of two is half as wide as the one above it. -/
def Interval.of (x : Binary64) : Interval where
  low := 4 * x.significand - if x.fraction = 0 ∧ 1 < x.exponent then 1 else 2
  value := 4 * x.significand
  high := 4 * x.significand + 2
  closed := x.significand % 2 = 0
  scale := x.scale

/-- The size of one grid step `10 ^ exponent` on the common scale of the
comparison with `quarters`. -/
def gridStep (exponent : Int) : Nat := Nat.pow 10 exponent.toNat * Nat.pow 2 1076

/-- Quarters on the common scale of the comparison with grid points. -/
def quarters (n scale : Nat) (exponent : Int) : Nat :=
  n * Nat.pow 2 scale * Nat.pow 10 (-exponent).toNat

/-- Whether the grid point `c * 10 ^ exponent` rounds to the double. -/
def Interval.holds (v : Interval) (exponent : Int) (c : Nat) : Bool :=
  let point := c * gridStep exponent
  let low := quarters v.low v.scale exponent
  let high := quarters v.high v.scale exponent
  if v.closed then low ≤ point && point ≤ high else low < point && point < high

/-- The nearer of the two grid points around the double, of those that round
to it. -/
def Interval.nearest? (tie : Tie) (v : Interval) (exponent : Int) : Option Nat :=
  let step := gridStep exponent
  let value := quarters v.value v.scale exponent
  let down := value / step
  let rest := 2 * (value % step)
  let up := down + 1
  match v.holds exponent down, v.holds exponent up with
  | false, false => none
  | true, false => some down
  | false, true => some up
  | true, true =>
    if rest < step then some down
    else if step < rest then some up
    else match tie with
      | .up => some up
      | .toEven => some (down + down % 2)

/-- The exponent of the leading decimal digit of a positive double. -/
def Interval.leadingExponent (v : Interval) : Int :=
  let num := v.value * Nat.pow 2 v.scale
  let den := Nat.pow 2 1076
  let guess : Int := (digitsOf num).length - (digitsOf den).length
  if den * Nat.pow 10 guess.toNat ≤ num * Nat.pow 10 (-guess).toNat then guess else guess - 1

/-- The shortest decimal that reads back as the positive finite double `x`.
Seventeen digits are always enough. -/
def decimal (tie : Tie) (x : Binary64) : Decimal :=
  let v := Interval.of x
  let lead := v.leadingExponent
  let found := (List.range 17).findSome? fun (k : Nat) =>
    (v.nearest? tie (lead - k)).map fun c => (⟨c, lead - k⟩ : Decimal)
  (found.getD ⟨0, 0⟩).strip

end Shortest
end QuantumCircuit
