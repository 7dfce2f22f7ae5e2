/-! Decimal digits of natural numbers, most significant first. -/
namespace QuantumCircuit

abbrev Digit := Fin 10

namespace Digit

def zero : Digit := ⟨0, by decide⟩

def toChar (d : Digit) : Char := Char.ofNat (48 + d.val)

def ofChar? (c : Char) : Option Digit :=
  if h : 48 ≤ c.toNat ∧ c.toNat < 58 then some ⟨c.toNat - 48, by omega⟩ else none

/-- The number a list of digits denotes. -/
def value (ds : List Digit) : Nat :=
  ds.foldl (fun n d => 10 * n + d.val) 0

end Digit

/-- The digits of a number; zero has one digit. -/
def digitsOf (n : Nat) : List Digit :=
  if h : n < 10 then [⟨n, h⟩]
  else digitsOf (n / 10) ++ [⟨n % 10, Nat.mod_lt n (by omega)⟩]
termination_by n
decreasing_by omega

theorem Digit.value_append (ds : List Digit) (d : Digit) :
    value (ds ++ [d]) = 10 * value ds + d.val := by
  simp [value]

theorem Digit.value_digitsOf (n : Nat) : value (digitsOf n) = n := by
  fun_induction digitsOf n with
  | case1 n h => simp [value]
  | case2 n h ih => rw [value_append, ih]; exact Nat.div_add_mod n 10

end QuantumCircuit
