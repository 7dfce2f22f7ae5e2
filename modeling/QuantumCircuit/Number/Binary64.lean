/-! Double-precision numbers as 64-bit words: a sign, an exponent and a
fraction. A finite number is an integer times a power of two, and arithmetic is
exact on that pair and then rounded to the nearest double, a tie going to the
even fraction. -/
namespace QuantumCircuit

structure Binary64 where
  bits : UInt64
deriving DecidableEq, Repr, Inhabited

namespace Binary64

/-- The 52 bits of the fraction. -/
def fraction (x : Binary64) : Nat := x.bits.toNat % Nat.pow 2 52

/-- The 11 bits of the biased exponent. -/
def exponent (x : Binary64) : Nat := x.bits.toNat / Nat.pow 2 52 % Nat.pow 2 11

def isNegative (x : Binary64) : Bool := Nat.pow 2 63 ≤ x.bits.toNat

def isFinite (x : Binary64) : Bool := x.exponent < 2047

def isNaN (x : Binary64) : Bool := x.exponent = 2047 && x.fraction ≠ 0

def neg (x : Binary64) : Binary64 := ⟨x.bits ^^^ 0x8000000000000000⟩

/-- The integer `m` of a finite magnitude `m * 2 ^ (scale - 1074)`. -/
def significand (x : Binary64) : Nat :=
  if x.exponent = 0 then x.fraction else Nat.pow 2 52 + x.fraction

/-- The power of two of a finite magnitude, counted from the smallest one. -/
def scale (x : Binary64) : Nat := x.exponent - 1

def isZero (x : Binary64) : Bool := x.isFinite && x.significand = 0

/-- A nonnegative fraction, as numerator and denominator. -/
structure Ratio where
  num : Nat
  den : Nat
deriving DecidableEq, Repr

/-- The magnitude of a finite number. -/
def ratio (x : Binary64) : Ratio := ⟨x.significand * Nat.pow 2 x.scale, Nat.pow 2 1074⟩

namespace Ratio

def ofNat (n : Nat) : Ratio := ⟨n, 1⟩

def mul (a b : Ratio) : Ratio := ⟨a.num * b.num, a.den * b.den⟩

def div (a b : Ratio) : Ratio := ⟨a.num * b.den, a.den * b.num⟩

end Ratio

/-- The integer nearest to `num / den`, the even one of two. -/
def divRoundEven (num den : Nat) : Nat :=
  let down := num / den
  let rest := 2 * (num % den)
  if rest < den then down
  else if den < rest then down + 1
  else down + down % 2

/-- The scale at which the integer part of the ratio has 53 bits, or the
smallest scale when the ratio is too small for that. -/
def Ratio.scale (r : Ratio) : Nat :=
  let guess := if r.num = 0 then 0 else r.num.log2 + 1074 - r.den.log2 - 53
  if Nat.pow 2 53 * Nat.pow 2 guess * r.den ≤ r.num * Nat.pow 2 1074 then guess + 1 else guess

/-- The double nearest to a ratio; one beyond the finite range is infinite. -/
def ofRatio (r : Ratio) : Binary64 :=
  let s := r.scale
  let m := divRoundEven (r.num * Nat.pow 2 1074) (r.den * Nat.pow 2 s)
  ⟨UInt64.ofNat (min (s * Nat.pow 2 52 + m) (2047 * Nat.pow 2 52))⟩

def ofNat (n : Nat) : Binary64 := ofRatio (.ofNat n)

/-- The product of two finite magnitudes. -/
def mulMagnitude (x y : Binary64) : Binary64 := ofRatio (x.ratio.mul y.ratio)

/-- The quotient of two finite magnitudes, the second not zero. -/
def divMagnitude (x y : Binary64) : Binary64 := ofRatio (x.ratio.div y.ratio)

end Binary64
end QuantumCircuit
