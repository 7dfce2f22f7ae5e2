import Mathlib.Algebra.BigOperators.Group.List.Basic
import QuantumCircuit.Proofs.Leaves

/-! The meaning of operations in a monoid: the product over their leaves in
execution order. Operations on disjoint qubits are independent; a rearrangement
that keeps the order on every qubit keeps the meaning. -/
namespace QuantumCircuit
open Operation

variable {M : Type*} [Monoid M] {val : Operation → M}

/-- The ordered product of the values of all leaves. -/
def meaning (val : Operation → M) (ops : List Operation) : M := ((leavesOfAll ops).map val).prod

@[simp] theorem meaning_nil : meaning val [] = 1 := rfl

@[simp] theorem meaning_append (as bs : List Operation) :
    meaning val (as ++ bs) = meaning val as * meaning val bs := by
  simp [meaning]

theorem meaning_cons (op : Operation) (ops : List Operation) :
    meaning val (op :: ops) = meaning val [op] * meaning val ops :=
  meaning_append [op] ops

@[simp] theorem meaning_compound (ops : List Operation) :
    meaning val [.compound ops] = meaning val ops := by
  simp [meaning]

@[simp] theorem meaning_gate (g : Gate) : meaning val [.gate g] = val (.gate g) := by
  simp [meaning, leaves]

/-- The meaning is the product of the meanings of the operations. -/
theorem meaning_eq_prod (ops : List Operation) :
    meaning val ops = (ops.map fun op => meaning val [op]).prod := by
  induction ops with
  | nil => rfl
  | cons op rest ih => rw [meaning_cons, ih, List.map_cons, List.prod_cons]

theorem leaves_of_isIdentity {op : Operation} (h : op.isIdentity = true) : op.leaves = [op] := by
  cases op with
  | compound children => cases h
  | gate g => rfl
  | effect e => rfl
  | conditional cond body => rfl

theorem meaning_of_isIdentity (hone : ∀ leaf, leaf.isIdentity = true → val leaf = 1)
    {op : Operation} (h : op.isIdentity = true) : meaning val [op] = 1 := by
  simp [meaning, leaves_of_isIdentity h, hone op h]

/-- Identities do not count. -/
theorem meaning_stripAll (hone : ∀ leaf, leaf.isIdentity = true → val leaf = 1)
    (ops : List Operation) : meaning val (stripAll ops) = meaning val ops := by
  rw [meaning, meaning, leavesOfAll_stripAll]
  induction leavesOfAll ops with
  | nil => rfl
  | cons leaf rest ih =>
    by_cases hid : leaf.isIdentity = true
    · rw [List.filter_cons_of_neg (by simp [hid]), ih, List.map_cons, List.prod_cons,
        hone leaf hid, one_mul]
    · rw [List.filter_cons_of_pos (by simp [hid]), List.map_cons, List.prod_cons, ih,
        List.map_cons, List.prod_cons]

theorem commute_meaning {x : M} {ops : List Operation}
    (h : ∀ leaf ∈ leavesOfAll ops, Commute x (val leaf)) : Commute x (meaning val ops) := by
  refine Commute.list_prod_right _ x fun y hy => ?_
  obtain ⟨leaf, hleaf, rfl⟩ := List.mem_map.1 hy
  exact h leaf hleaf

/-! ## Two factors changed together -/

/-- Two factors of a product may be changed if their product stays the same and
the second one, old and new, commutes with what stands between them. -/
theorem prod_set_set {vs : List M} {i j : Nat} (hij : i < j) {x y x' y' : M}
    (hx : vs[i]? = some x) (hy : vs[j]? = some y)
    (hmid : ∀ k z, i < k → k < j → vs[k]? = some z → Commute y z ∧ Commute y' z)
    (heq : x * y = x' * y') : ((vs.set i x').set j y').prod = vs.prod := by
  obtain ⟨hjlt, hyj⟩ := List.getElem?_eq_some_iff.1 hy
  obtain ⟨hilt, hxi⟩ := List.getElem?_eq_some_iff.1 hx
  set mid := (vs.drop (i + 1)).take (j - (i + 1)) with hmiddle
  have hmem : ∀ z ∈ mid, Commute y z ∧ Commute y' z := by
    intro z hz
    obtain ⟨k, hk⟩ := List.getElem?_of_mem hz
    have hklt : k < j - (i + 1) := by
      have := (List.getElem?_eq_some_iff.1 hk).1
      rw [hmiddle, List.length_take] at this
      omega
    rw [hmiddle, List.getElem?_take_of_lt hklt, List.getElem?_drop] at hk
    exact hmid (i + 1 + k) z (by omega) (by omega) hk
  -- the list is cut at the two places
  have hsplit : vs = vs.take i ++ x :: (mid ++ y :: vs.drop (j + 1)) := by
    have htail : vs.drop (i + 1) = mid ++ vs.drop j := by
      have hcut := List.take_append_drop (j - (i + 1)) (vs.drop (i + 1))
      rw [List.drop_drop, Nat.add_sub_cancel' hij] at hcut
      exact hcut.symm
    rw [← hyj, ← List.drop_eq_getElem_cons hjlt, ← htail, ← hxi,
      ← List.drop_eq_getElem_cons hilt, List.take_append_drop]
  have hlen : (vs.take i).length = i := by
    rw [List.length_take]
    omega
  have hmidlen : mid.length = j - (i + 1) := by
    rw [hmiddle, List.length_take, List.length_drop]
    omega
  have hset : (vs.set i x').set j y' = vs.take i ++ x' :: (mid ++ y' :: vs.drop (j + 1)) := by
    have hfirst : vs.set i x' = vs.take i ++ x' :: (mid ++ y :: vs.drop (j + 1)) := by
      conv_lhs => rw [hsplit]
      rw [List.set_append_right _ _ (by omega), hlen, Nat.sub_self, List.set_cons_zero]
    rw [hfirst, List.set_append_right _ _ (by omega), hlen]
    obtain ⟨d, hd⟩ : ∃ d, j - i = d + 1 := ⟨j - i - 1, by omega⟩
    rw [hd, List.set_cons_succ, List.set_append_right _ _ (by omega)]
    have hzero : d - mid.length = 0 := by omega
    rw [hzero, List.set_cons_zero]
  have hy : Commute y mid.prod := Commute.list_prod_right _ _ fun z hz => (hmem z hz).1
  have hy' : Commute y' mid.prod := Commute.list_prod_right _ _ fun z hz => (hmem z hz).2
  have hpair : x' * (mid.prod * y') = x * (mid.prod * y) := by
    rw [← hy'.eq, ← hy.eq, ← mul_assoc, ← mul_assoc, heq]
  rw [hset]
  conv_rhs => rw [hsplit]
  simp only [List.prod_append, List.prod_cons]
  calc (vs.take i).prod * (x' * (mid.prod * (y' * (vs.drop (j + 1)).prod)))
      = (vs.take i).prod * (x' * (mid.prod * y') * (vs.drop (j + 1)).prod) := by
        simp only [mul_assoc]
    _ = (vs.take i).prod * (x * (mid.prod * y) * (vs.drop (j + 1)).prod) := by rw [hpair]
    _ = (vs.take i).prod * (x * (mid.prod * (y * (vs.drop (j + 1)).prod))) := by
        simp only [mul_assoc]

/-! ## Rearrangements -/

/-- No qubit is used by both operations. -/
def Independent (x y : Operation) : Prop := ∀ q, x.actsOn q = true → y.actsOn q = false

theorem Independent.symm {x y : Operation} (h : Independent x y) : Independent y x := by
  intro q hy
  by_contra hx
  rw [h q (by simpa using hx)] at hy
  cases hy

/-- Two lists with the same operations in the same order on every qubit. -/
def SameOrder (xs ys : List Operation) : Prop :=
  ∀ q, xs.filter (·.actsOn q) = ys.filter (·.actsOn q)

/-- The first operation of one list stands in the other one behind operations
that are independent of it. -/
theorem SameOrder.split {x : Operation} {xs ys : List Operation} (hx : ∃ q, x.actsOn q = true)
    (h : SameOrder (x :: xs) ys) :
    ∃ l₁ l₂, ys = l₁ ++ x :: l₂ ∧ (∀ y ∈ l₁, Independent x y) ∧ SameOrder xs (l₁ ++ l₂) := by
  obtain ⟨q, hq⟩ := hx
  -- the first operation of the other list that shares a qubit with `x`
  have hsome : (ys.find? fun y => x.qubits.toList.any (y.actsOn ·)).isSome := by
    rw [List.find?_isSome]
    have hin : x ∈ ys.filter (·.actsOn q) := by
      rw [← h q, List.filter_cons_of_pos hq]
      exact List.mem_cons_self
    exact ⟨x, List.mem_of_mem_filter hin, List.any_eq_true.2 ⟨q, mem_qubits.2 hq, hq⟩⟩
  obtain ⟨y, hy⟩ := Option.isSome_iff_exists.1 hsome
  obtain ⟨hshares, l₁, l₂, hys, hbefore⟩ := List.find?_eq_some_iff_append.1 hy
  have hindep : ∀ z ∈ l₁, Independent x z := by
    intro z hz r hr
    by_contra hzr
    have hno := hbefore z hz
    rw [Bool.not_eq_true', List.any_eq_false] at hno
    exact hno r (mem_qubits.2 hr) (by simpa using hzr)
  have hnone : ∀ {r : Qubit}, x.actsOn r = true → l₁.filter (·.actsOn r) = [] := by
    intro r hr
    rw [List.filter_eq_nil_iff]
    intro z hz
    simp [hindep z hz r hr]
  have hyx : y = x := by
    obtain ⟨r, hr, hyr⟩ := List.any_eq_true.1 hshares
    have hproj := h r
    rw [hys, List.filter_append, hnone (mem_qubits.1 hr), List.filter_cons_of_pos (mem_qubits.1 hr),
      List.nil_append, List.filter_cons_of_pos hyr] at hproj
    exact (List.cons.inj hproj).1.symm
  subst hyx
  refine ⟨l₁, l₂, hys, hindep, fun r => ?_⟩
  have hproj := h r
  rw [hys, List.filter_append] at hproj
  rw [List.filter_append]
  by_cases hr : y.actsOn r = true
  · rw [hnone hr, List.filter_cons_of_pos hr, List.filter_cons_of_pos hr, List.nil_append] at hproj
    rw [hnone hr, List.nil_append]
    exact (List.cons.inj hproj).2
  · rwa [List.filter_cons_of_neg hr, List.filter_cons_of_neg hr] at hproj

end QuantumCircuit
