import QuantumCircuit.Number.Numeral

/-! Literals without superfluous zeros. The literals of natural numbers and of doubles
have at least one digit before the point, and only a lone one of them may be a zero in
front. -/
namespace QuantumCircuit

/-! ## Digits -/

theorem pow_ten_succ (k : Nat) : Nat.pow 10 (k + 1) = Nat.pow 10 k * 10 := rfl

theorem pow_ten_add (a b : Nat) : Nat.pow 10 (a + b) = Nat.pow 10 a * Nat.pow 10 b :=
  Nat.pow_add 10 a b

theorem pow_ten_pos (k : Nat) : 0 < Nat.pow 10 k := Nat.pow_pos (by decide)

theorem pow_two_pos (k : Nat) : 0 < Nat.pow 2 k := Nat.pow_pos (by decide)

theorem digitsOf_zero : digitsOf 0 = [Digit.zero] := by
  rw [digitsOf]
  rfl

/-- Only the number zero starts with the digit zero. -/
theorem exists_digitsOf (n : Nat) :
    ∃ d ds, digitsOf n = d :: ds ∧ (d = Digit.zero → n = 0) := by
  fun_induction digitsOf n with
  | case1 n hlt => exact ⟨_, _, rfl, fun hd => congrArg Fin.val hd⟩
  | case2 n hge ih =>
    obtain ⟨d, ds, hds, hd⟩ := ih
    exact ⟨d, _, by rw [hds]; rfl, fun hzero => absurd (hd hzero) (by omega)⟩

theorem lt_pow_ten_length_digitsOf (n : Nat) : n < Nat.pow 10 (digitsOf n).length := by
  fun_induction digitsOf n with
  | case1 n hlt => exact hlt
  | case2 n hge ih =>
    rw [List.length_append, List.length_singleton, pow_ten_succ]
    omega

theorem pow_ten_length_digitsOf_le {n : Nat} (h : n ≠ 0) :
    Nat.pow 10 ((digitsOf n).length - 1) ≤ n := by
  fun_induction digitsOf n with
  | case1 n hlt => exact Nat.pos_of_ne_zero h
  | case2 n hge ih =>
    obtain ⟨d, ds, hds, -⟩ := exists_digitsOf (n / 10)
    have hle := ih (by omega)
    rw [hds, List.length_cons, Nat.add_sub_cancel] at hle
    rw [List.length_append, List.length_singleton, Nat.add_sub_cancel, hds, List.length_cons,
      pow_ten_succ]
    omega

/-! ## Shortest decimals -/

namespace Decimal

theorem digits_strip_ne_zero {d : Decimal} (h : d.digits ≠ 0) : d.strip.digits ≠ 0 := by
  fun_induction strip d with
  | case1 d hd ih =>
    refine ih ?_
    show d.digits / 10 ≠ 0
    omega
  | case2 d hd => exact h

theorem strip_of_digits_eq_zero {d : Decimal} (h : d.digits = 0) : d.strip = d := by
  rw [strip, dif_neg fun hd => hd.1 h]

end Decimal

namespace Shortest
variable {v : Interval} {e : Int}

/-- A step of the grid is at most as large as the double. -/
def Interval.Reaches (v : Interval) (e : Int) : Prop := gridStep e ≤ quarters v.value v.scale e

/-- A finer grid reaches the double as well. -/
theorem Interval.Reaches.pred (h : v.Reaches e) : v.Reaches (e - 1) := by
  rw [Reaches, gridStep, quarters] at h ⊢
  by_cases he : 0 < e
  · obtain ⟨k, hk⟩ : ∃ k, e.toNat = k + 1 := ⟨e.toNat - 1, by omega⟩
    have hpred : (e - 1).toNat = k := by omega
    have hneg : (-(e - 1)).toNat = (-e).toNat := by omega
    rw [hk, pow_ten_succ] at h
    rw [hpred, hneg]
    refine Nat.le_trans (Nat.mul_le_mul_right _ ?_) h
    omega
  · have hzero : (e - 1).toNat = e.toNat := by omega
    have hneg : (-(e - 1)).toNat = (-e).toNat + 1 := by omega
    rw [hzero, hneg, pow_ten_succ]
    refine Nat.le_trans h (Nat.mul_le_mul_left _ ?_)
    omega

theorem Interval.Reaches.sub (h : v.Reaches e) (k : Nat) : v.Reaches (e - k) := by
  induction k with
  | zero => simpa using h
  | succ k ih =>
    have hpred := ih.pred
    rwa [show e - k - 1 = e - (k + 1 : Nat) by omega] at hpred

/-- The grid of the leading digit reaches the double. -/
theorem Interval.reaches_leadingExponent (h : v.value ≠ 0) : v.Reaches v.leadingExponent := by
  have hnum : v.value * Nat.pow 2 v.scale ≠ 0 :=
    Nat.mul_ne_zero h (Nat.ne_of_gt (pow_two_pos v.scale))
  rw [Reaches, gridStep, quarters, leadingExponent]
  generalize v.value * Nat.pow 2 v.scale = num at hnum ⊢
  generalize Nat.pow 2 1076 = den
  split
  · next hle => rwa [Nat.mul_comm]
  · have hlow := pow_ten_length_digitsOf_le hnum
    have hhigh := lt_pow_ten_length_digitsOf den
    obtain ⟨d, ds, hds, -⟩ := exists_digitsOf num
    rw [hds, List.length_cons, Nat.add_sub_cancel] at hlow
    rw [hds, List.length_cons]
    generalize ds.length = a at hlow ⊢
    generalize (digitsOf den).length = b at hhigh ⊢
    -- the numerator has `a + 1` digits and the denominator `b`
    by_cases hab : b ≤ a
    · have hexp : (((a + 1 : Nat) : Int) - b - 1).toNat = a - b := by omega
      have hneg : (-(((a + 1 : Nat) : Int) - b - 1)).toNat = 0 := by omega
      rw [hexp, hneg]
      calc Nat.pow 10 (a - b) * den ≤ Nat.pow 10 (a - b) * Nat.pow 10 b :=
            Nat.mul_le_mul_left _ (Nat.le_of_lt hhigh)
        _ = Nat.pow 10 a := by rw [← pow_ten_add, Nat.sub_add_cancel hab]
        _ ≤ num := hlow
        _ = num * Nat.pow 10 0 := (Nat.mul_one _).symm
    · have hexp : (((a + 1 : Nat) : Int) - b - 1).toNat = 0 := by omega
      have hneg : (-(((a + 1 : Nat) : Int) - b - 1)).toNat = b - a := by omega
      rw [hexp, hneg]
      calc Nat.pow 10 0 * den = den := Nat.one_mul _
        _ ≤ Nat.pow 10 b := Nat.le_of_lt hhigh
        _ = Nat.pow 10 a * Nat.pow 10 (b - a) := by
          rw [← pow_ten_add, Nat.add_sub_cancel' (by omega)]
        _ ≤ num * Nat.pow 10 (b - a) := Nat.mul_le_mul_right _ hlow

theorem Interval.nearest?_ne_zero {tie : Tie} {c : Nat} (h : v.Reaches e)
    (hc : v.nearest? tie e = some c) : c ≠ 0 := by
  have hstep : 0 < gridStep e := by
    rw [gridStep]
    generalize 1076 = k
    exact Nat.mul_pos (pow_ten_pos _) (pow_two_pos k)
  have hdown : 0 < quarters v.value v.scale e / gridStep e := Nat.div_pos h hstep
  unfold nearest? at hc
  dsimp only at hc
  generalize quarters v.value v.scale e / gridStep e = down at hc hdown
  split at hc
  · cases hc
  · cases hc
    omega
  · cases hc
    omega
  · split at hc
    · cases hc
      omega
    · split at hc
      · cases hc
        omega
      · cases tie <;> cases hc <;> omega

/-- The digits of a shortest decimal are zero only if no grid has been found. -/
theorem digits_decimal (tie : Tie) {x : Binary64} (hx : x.significand ≠ 0) :
    (decimal tie x).digits ≠ 0 ∨ decimal tie x = ⟨0, 0⟩ := by
  rw [decimal]
  generalize hfound : (List.range 17).findSome? _ = found
  cases found with
  | none => exact .inr (Decimal.strip_of_digits_eq_zero rfl)
  | some d =>
    obtain ⟨k, -, hk⟩ := List.exists_of_findSome?_eq_some hfound
    obtain ⟨c, hc, rfl⟩ := Option.map_eq_some_iff.1 hk
    have hvalue : (Interval.of x).value ≠ 0 := by
      show 4 * x.significand ≠ 0
      omega
    have hreach := (Interval.reaches_leadingExponent hvalue).sub k
    exact .inl (Decimal.digits_strip_ne_zero (Interval.nearest?_ne_zero hreach hc))

end Shortest

/-! ## Literals -/

namespace Numeral

/-- There is a digit before the point, and a leading zero stands alone. -/
def IsPlain (n : Numeral) : Prop :=
  ∃ d ds, n.whole = d :: ds ∧ (d = Digit.zero → ds = [])

theorem isPlain_ofNat (n : Nat) : (ofNat n).IsPlain := by
  obtain ⟨d, ds, hds, hd⟩ := exists_digitsOf n
  refine ⟨d, ds, hds, fun hzero => ?_⟩
  rw [hd hzero, digitsOf_zero] at hds
  exact (List.cons.inj hds).2.symm

/-- The digits before the point of a decimal that is not zero at a high exponent. -/
theorem isPlain_split {d : Decimal} (h : d.digits ≠ 0 ∨ d = ⟨0, 0⟩) {negative : Bool}
    {fraction : List Digit} : IsPlain ⟨negative, d.split.1, fraction, none⟩ := by
  rcases h with h | rfl
  · obtain ⟨c, cs, hcs, hc⟩ := exists_digitsOf d.digits
    have hne : c ≠ Digit.zero := fun hzero => h (hc hzero)
    rw [IsPlain, Decimal.split]
    split
    · exact ⟨c, _, by rw [hcs]; rfl, fun hzero => absurd hzero hne⟩
    · split
      · next hplaces =>
        obtain ⟨k, hk⟩ : ∃ k, (digitsOf d.digits).length - (-d.exponent).toNat = k + 1 :=
          ⟨(digitsOf d.digits).length - (-d.exponent).toNat - 1, by omega⟩
        exact ⟨c, cs.take k, by rw [hk, hcs]; rfl, fun hzero => absurd hzero hne⟩
      · exact ⟨Digit.zero, [], rfl, fun _ => rfl⟩
  · exact ⟨Digit.zero, [], by simp [Decimal.split, digitsOf_zero], fun _ => rfl⟩

theorem significand_ne_zero {x : Binary64} (h : x.isZero = false) : x.significand ≠ 0 := by
  intro hm
  have hfinite : x.isFinite = true := by
    rw [Binary64.significand] at hm
    split at hm
    · next he => simp [Binary64.isFinite, he]
    · have := pow_two_pos 52
      omega
  simp [Binary64.isZero, hfinite, hm] at h

theorem isPlain_ofBinary64 (x : Binary64) : (ofBinary64 x).IsPlain := by
  rw [ofBinary64]
  split
  · exact ⟨Digit.zero, [], rfl, fun _ => rfl⟩
  · next hzero =>
    have hx : x.significand ≠ 0 := significand_ne_zero (by simpa using hzero)
    have hdigits := Shortest.digits_decimal .toEven hx
    generalize Shortest.decimal .toEven x = d at hdigits ⊢
    dsimp only
    split
    · split <;> next hsplit => simpa [hsplit] using isPlain_split hdigits
    · obtain ⟨c, cs, hcs, -⟩ := exists_digitsOf d.digits
      exact ⟨c, [], by rw [hcs]; rfl, fun _ => rfl⟩

end Numeral
end QuantumCircuit
