import QuantumCircuit.Number.Positional

/-! Number literals: a sign, digits before and after the point, and an
exponent. Reading a literal as a double collects digits while they fit in 64
bits, rounds the collected integer, and then multiplies or divides it by a
rounded power of ten. -/
namespace QuantumCircuit

structure Numeral where
  negative : Bool
  whole : List Digit
  fraction : List Digit
  exponent : Option Int
deriving DecidableEq, Repr

namespace Numeral

def ofNat (n : Nat) : Numeral := ⟨false, digitsOf n, [], none⟩

/-- The value of a literal that is written as a plain natural number. -/
def toNat? (n : Numeral) : Option Nat :=
  if n.negative || !n.fraction.isEmpty || n.exponent.isSome then none
  else some (Digit.value n.whole)

/-- Appends digits to an integer while the result fits in 64 bits; gives the
integer and how many digits were left over. -/
def collect (acc : Nat) : List Digit → Nat × Nat
  | [] => (acc, 0)
  | d :: ds =>
    let next := 10 * acc + d.val
    if next < Nat.pow 2 64 then collect next ds else (acc, (d :: ds).length)

def powerOfTen (k : Nat) : Binary64 := .ofNat (Nat.pow 10 k)

/-- Divides by powers of ten until the exponent is back in the range of the
doubles that are powers of ten. -/
def divideByTens (x : Binary64) (k : Nat) : Binary64 :=
  if x.isZero then x
  else if 308 < k then divideByTens (x.divMagnitude (powerOfTen 308)) (k - 308)
  else x.divMagnitude (powerOfTen k)
termination_by k
decreasing_by omega

/-- The double near `m * 10 ^ e`; none if it is not finite. -/
def scaleByTens (m : Nat) (e : Int) : Option Binary64 :=
  let x := Binary64.ofNat m
  if e < 0 then some (divideByTens x e.natAbs)
  else if x.isZero then some x
  else if 308 < e then none
  else
    let y := x.mulMagnitude (powerOfTen e.toNat)
    if y.isFinite then some y else none

/-- The double that a literal is read as; none if it is out of range. -/
def toBinary64? (n : Numeral) : Option Binary64 :=
  let (whole, skipped) := collect 0 n.whole
  let (m, dropped) := collect whole n.fraction
  let e : Int := skipped - (n.fraction.length - dropped : Nat) + n.exponent.getD 0
  (scaleByTens m e).map fun x => if n.negative then x.neg else x

/-- The literal written for a finite double: shortest digits, positional with
at least one decimal for exponents from -5 to 15, scientific beyond. -/
def ofBinary64 (x : Binary64) : Numeral :=
  if x.isZero then ⟨x.isNegative, [Digit.zero], [Digit.zero], none⟩
  else
    let d := Shortest.decimal .toEven x
    let lead := d.leadingExponent
    if -5 ≤ lead ∧ lead < 16 then
      match d.split with
      | (whole, []) => ⟨x.isNegative, whole, [Digit.zero], none⟩
      | (whole, fraction) => ⟨x.isNegative, whole, fraction, none⟩
    else
      let ds := digitsOf d.digits
      ⟨x.isNegative, ds.take 1, ds.drop 1, some lead⟩

/-- An exponent is written with its sign. -/
def text (n : Numeral) : String :=
  (if n.negative then "-" else "") ++ Digit.text n.whole ++
  (if n.fraction.isEmpty then "" else "." ++ Digit.text n.fraction) ++
  match n.exponent with
  | none => ""
  | some e => (if e < 0 then "e-" else "e+") ++ toString e.natAbs

end Numeral
end QuantumCircuit
