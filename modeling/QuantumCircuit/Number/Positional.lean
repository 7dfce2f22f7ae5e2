import QuantumCircuit.Number.Shortest

/-! Doubles in listings: the shortest digits, never an exponent, and no point
after a whole number. -/
namespace QuantumCircuit

/-- The digits of a decimal around its point, as the part before it and the
part after it. -/
def Decimal.split (d : Decimal) : List Digit × List Digit :=
  let ds := digitsOf d.digits
  let places := (-d.exponent).toNat
  if 0 ≤ d.exponent then (ds ++ List.replicate d.exponent.toNat Digit.zero, [])
  else if places < ds.length then (ds.take (ds.length - places), ds.drop (ds.length - places))
  else ([Digit.zero], List.replicate (places - ds.length) Digit.zero ++ ds)

def Digit.text (ds : List Digit) : String := String.ofList (ds.map Digit.toChar)

def Decimal.positional (d : Decimal) : String :=
  match d.split with
  | (whole, []) => Digit.text whole
  | (whole, fraction) => Digit.text whole ++ "." ++ Digit.text fraction

namespace Binary64

/-- The magnitude of a number that is not NaN. -/
def magnitudeText (x : Binary64) : String :=
  if !x.isFinite then "inf"
  else if x.isZero then "0"
  else (Shortest.decimal .up x).positional

def text (x : Binary64) : String :=
  if x.isNaN then "NaN"
  else if x.isNegative then "-" ++ x.magnitudeText
  else x.magnitudeText

end Binary64
end QuantumCircuit
