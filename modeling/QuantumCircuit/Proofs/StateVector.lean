import Mathlib
import QuantumCircuit.Proofs.Action
import QuantumCircuit.Proofs.Expand

/-! State vectors. A state vector gives every assignment of values to the qubits an
amplitude in a commutative ring. A gate acts as a matrix, given by its rows: X and SWAP move
basis states, Z changes signs, and H mixes the two values of its target with a factor `h`.
If `2 * h * h = 1`, these matrices satisfy the laws that the rewrites of gates rest on. -/
namespace QuantumCircuit
open Operation

/-- An amplitude for every assignment of values to the qubits. -/
abbrev StateVector (R : Type*) := (Qubit → Bool) → R

variable {R : Type*} [CommRing R] {h : R} {g g' : Gate} {v w : Qubit → Bool} {ψ : StateVector R}

/-! ## Gates as matrices -/

namespace Gate

/-- The entries other than zero in the row of a gate at `v`, each with its column. Kinds other
than X, SWAP, Z and H count as identities. -/
def row (h : R) (g : Gate) (v : Qubit → Bool) : List (R × (Qubit → Bool)) :=
  match g.kind, g.targets with
  | .z, [t] => [(if g.enabled v && v t then -1 else 1, v)]
  | .h, [t] =>
    if g.enabled v then
      [(h, Function.update v t false), (if v t then -h else h, Function.update v t true)]
    else [(1, v)]
  | _, _ => [(1, g.permute v)]

/-- The state vector after the gate: the product with its matrix. -/
def run (h : R) (g : Gate) (ψ : StateVector R) : StateVector R := fun v =>
  ((g.row h v).map fun e => e.1 * ψ e.2).sum

/-- A Z gate with controls. -/
def controlledZ (controls : Controls) (target : Qubit) : Gate :=
  { kind := .z, controls, targets := [target] }

end Gate

/-! ## Operations -/

namespace Operation

mutual
/-- The state vector after an operation; what is no gate leaves it alone. -/
def evolve (h : R) : Operation → StateVector R → StateVector R
  | .gate g, ψ => g.run h ψ
  | .compound children, ψ => evolveAll h children ψ
  | .effect _, ψ => ψ
  | .conditional _ _, ψ => ψ

def evolveAll (h : R) : List Operation → StateVector R → StateVector R
  | [], ψ => ψ
  | op :: rest, ψ => evolveAll h rest (op.evolve h ψ)
end

end Operation

/-! ## Gates on other qubits -/

namespace Gate

theorem row_cases (h : R) (g : Gate) :
    (∃ t, g.actsOn t = true ∧
      ∀ v, g.row h v = [(if g.enabled v && v t then -1 else 1, v)]) ∨
    (∃ t, g.actsOn t = true ∧ ∀ v, g.row h v =
      if g.enabled v then
        [(h, Function.update v t false), (if v t then -h else h, Function.update v t true)]
      else [(1, v)]) ∨
    ∀ v, g.row h v = [(1, g.permute v)] := by
  unfold row
  split
  · next t _ ht => exact .inl ⟨t, by simp [actsOn, ht], fun _ => rfl⟩
  · next t _ ht => exact .inr (.inl ⟨t, by simp [actsOn, ht], fun _ => rfl⟩)
  · exact .inr (.inr fun _ => rfl)

/-- On the qubits of the gate the first assignment, elsewhere the second. -/
def overlay (g : Gate) (on off : Qubit → Bool) : Qubit → Bool :=
  fun q => if g.actsOn q then on q else off q

theorem enabled_congr (hv : ∀ q, g.actsOn q = true → w q = v q) : g.enabled w = g.enabled v := by
  have hmap := enabled_mapQubits (f := fun q => q) (g := g) (v := v) (w := w) fun c hc =>
    hv c.qubit (mem_operands.1 (List.mem_append_left _ (List.mem_map_of_mem hc)))
  rwa [mapQubits_id] at hmap

theorem permute_congr (hv : ∀ q, g.actsOn q = true → w q = v q) {q : Qubit}
    (hq : g.actsOn q = true) : g.permute w q = g.permute v q := by
  have hon : ∀ q, (Operation.gate g).actsOn q = true → w q = v q := hv
  have hexec := exec_congr (s := ⟨v, fun _ => false⟩) (t := ⟨w, fun _ => false⟩) rfl hon
  exact hexec.2 q hq

/-- A gate leaves the values of other qubits alone. -/
theorem row_of_not_actsOn {e : R × (Qubit → Bool)} (he : e ∈ g.row h v) {q : Qubit}
    (hq : g.actsOn q = false) : e.2 q = v q := by
  have hne : ∀ t, g.actsOn t = true → q ≠ t := by
    rintro t ht rfl
    rw [ht] at hq
    cases hq
  rcases row_cases h g with ⟨t, ht, hrow⟩ | ⟨t, ht, hrow⟩ | hrow
  · rw [hrow, List.mem_singleton] at he
    rw [he]
  · rw [hrow] at he
    split at he
    · simp only [List.mem_cons, List.not_mem_nil, or_false] at he
      rcases he with rfl | rfl <;> simp [hne t ht]
    · rw [List.mem_singleton.1 he]
  · rw [hrow, List.mem_singleton] at he
    rw [he]
    exact permute_of_not_actsOn hq

/-- The row depends on the values of the gate's own qubits; the values of the others are
handed through. -/
theorem row_overlay (hv : ∀ q, g.actsOn q = true → w q = v q) :
    g.row h w = (g.row h v).map fun e => (e.1, g.overlay e.2 w) := by
  have henabled := enabled_congr hv
  have hself : g.overlay v w = w := by
    funext q
    by_cases hq : g.actsOn q = true
    · simp [overlay, hq, hv q hq]
    · simp [overlay, hq]
  rcases row_cases h g with ⟨t, ht, hrow⟩ | ⟨t, ht, hrow⟩ | hrow
  · simp [hrow, henabled, hv t ht, hself]
  · have hupdate : ∀ b, g.overlay (Function.update v t b) w = Function.update w t b := by
      intro b
      funext q
      by_cases hqt : q = t
      · simp [overlay, hqt, ht]
      · have hq := congrFun hself q
        simpa [overlay, hqt] using hq
    rw [hrow, hrow, henabled]
    split
    · simp [hupdate, hv t ht]
    · simp [hself]
  · have hpermute : g.overlay (g.permute v) w = g.permute w := by
      funext q
      by_cases hq : g.actsOn q = true
      · simp [overlay, hq, permute_congr hv hq]
      · have hq' : g.actsOn q = false := by simpa using hq
        simp [overlay, hq', permute_of_not_actsOn hq']
    simp [hrow, hpermute]

/-- Two gates on different qubits: each sees the values of its qubits as they were. -/
theorem run_run (hapart : ∀ q, g.actsOn q = true → g'.actsOn q = false) :
    g'.run h (g.run h ψ) v = ((g'.row h v).map fun e' =>
      ((g.row h v).map fun e => e'.1 * (e.1 * ψ (g.overlay e.2 e'.2))).sum).sum := by
  rw [run]
  congr 1
  refine List.map_congr_left fun e' he' => ?_
  have hrow := row_overlay (h := h) (g := g) (v := v) (w := e'.2) fun q hq =>
    row_of_not_actsOn he' (hapart q hq)
  rw [run, hrow, List.map_map, ← List.sum_map_mul_left]
  rfl

theorem overlay_comm (hapart : ∀ q, g.actsOn q = true → g'.actsOn q = false)
    {e e' : R × (Qubit → Bool)} (he : e ∈ g.row h v) (he' : e' ∈ g'.row h v) :
    g.overlay e.2 e'.2 = g'.overlay e'.2 e.2 := by
  funext q
  by_cases hq : g.actsOn q = true
  · simp [overlay, hq, hapart q hq]
  · have hq₁ : g.actsOn q = false := by simpa using hq
    by_cases hq' : g'.actsOn q = true
    · simp [overlay, hq₁, hq']
    · have hq₂ : g'.actsOn q = false := by simpa using hq'
      simp [overlay, hq₁, hq₂, row_of_not_actsOn he hq₁, row_of_not_actsOn he' hq₂]

/-- Gates on different qubits can be exchanged. -/
theorem run_comm (hapart : ∀ q, g.actsOn q = true → g'.actsOn q = false) :
    g'.run h (g.run h ψ) = g.run h (g'.run h ψ) := by
  have hapart' : ∀ q, g'.actsOn q = true → g.actsOn q = false := by
    intro q hq
    by_contra hne
    rw [hapart q (by simpa using hne)] at hq
    cases hq
  funext v
  have hswap := Multiset.sum_map_sum_map (↑(g'.row h v)) (↑(g.row h v))
    (f := fun (e' e : R × (Qubit → Bool)) => e'.1 * (e.1 * ψ (g.overlay e.2 e'.2)))
  simp only [Multiset.map_coe, Multiset.sum_coe] at hswap
  rw [run_run hapart, run_run hapart', hswap]
  congr 1
  refine List.map_congr_left fun e he => ?_
  congr 1
  refine List.map_congr_left fun e' he' => ?_
  rw [overlay_comm hapart he he', mul_left_comm]

/-! ## The gates one by one -/

theorem run_of_permutes (hz : g.kind ≠ .z) (hh : g.kind ≠ .h) (ψ : StateVector R)
    (v : Qubit → Bool) : g.run h ψ v = ψ (g.permute v) := by
  have hrow : g.row h v = [(1, g.permute v)] := by
    unfold row
    split
    · next hk _ => exact absurd hk hz
    · next hk _ => exact absurd hk hh
    · rfl
  simp [run, hrow]

theorem run_cnot (a b : Qubit) (ψ : StateVector R) (v : Qubit → Bool) :
    (cnot a b).run h ψ v = ψ ((cnot a b).permute v) :=
  run_of_permutes (by simp [cnot, controlled]) (by simp [cnot, controlled]) ψ v

theorem run_swap (cs : Controls) (a b : Qubit) (ψ : StateVector R) (v : Qubit → Bool) :
    run h { kind := .swap, controls := cs, targets := [a, b] } ψ v =
      ψ (permute { kind := .swap, controls := cs, targets := [a, b] } v) :=
  run_of_permutes (by simp) (by simp) ψ v

section target
variable {cs : Controls} {t : Qubit}

theorem holds_update (ht : t ∉ cs.qubits) (v : Qubit → Bool) (b : Bool) :
    cs.toList.all (·.holds (Function.update v t b)) = cs.toList.all (·.holds v) := by
  rw [Bool.eq_iff_iff, List.all_eq_true, List.all_eq_true]
  refine forall₂_congr fun c hc => ?_
  have hne : c.qubit ≠ t := fun heq => ht (heq ▸ List.mem_map_of_mem hc)
  simp [Control.holds, hne]

theorem run_hadamard_update (t : Qubit) (ψ : StateVector R) (v : Qubit → Bool) (b : Bool) :
    (hadamard t).run h ψ (Function.update v t b) =
      h * ψ (Function.update v t false) +
        (if b then -h else h) * ψ (Function.update v t true) := by
  have hrow : ∀ v, (hadamard t).row h v =
    [(h, Function.update v t false), (if v t then -h else h, Function.update v t true)] :=
    fun _ => rfl
  simp [run, hrow]

theorem run_controlledZ (cs : Controls) (t : Qubit) (ψ : StateVector R) (v : Qubit → Bool) :
    (controlledZ cs t).run h ψ v =
      if cs.toList.all (·.holds v) && v t then -ψ v else ψ v := by
  have hrow : (controlledZ cs t).row h v =
    [(if cs.toList.all (·.holds v) && v t then -1 else 1, v)] := rfl
  rw [run, hrow]
  split <;> simp

theorem permute_controlledX (cs : Controls) (t : Qubit) (v : Qubit → Bool) :
    (controlledX cs t).permute v =
      if cs.toList.all (·.holds v) then Function.update v t (!v t) else v := by
  have hact : (controlledX cs t).act v = Function.update v t (!v t) := by
    funext q
    by_cases hq : q = t <;> simp [act, controlledX, hq]
  rw [permute, hact]
  rfl

theorem run_controlledX (cs : Controls) (t : Qubit) (ψ : StateVector R) (v : Qubit → Bool) :
    (controlledX cs t).run h ψ v = ψ ((controlledX cs t).permute v) :=
  run_of_permutes (by simp [controlledX]) (by simp [controlledX]) ψ v

omit [CommRing R] in
/-- Two state vectors are equal if they are for both values of one qubit. -/
theorem ext_at (t : Qubit) {φ χ : StateVector R}
    (hφ : ∀ v b, φ (Function.update v t b) = χ (Function.update v t b)) : φ = χ := by
  funext v
  simpa using hφ v (v t)

/-- Two Hadamard gates on one qubit cancel. -/
theorem run_hadamard_hadamard (hh : 2 * h * h = 1) (t : Qubit) (ψ : StateVector R) :
    (hadamard t).run h ((hadamard t).run h ψ) = ψ := by
  refine ext_at t fun v b => ?_
  simp only [run_hadamard_update]
  cases b
  · simp only [Bool.false_eq_true, if_false, if_true]
    linear_combination ψ (Function.update v t false) * hh
  · simp only [Bool.false_eq_true, if_false, if_true]
    linear_combination ψ (Function.update v t true) * hh

/-- Between Hadamard gates on its target a controlled Z is a controlled X. -/
theorem run_hadamard_controlledZ (hh : 2 * h * h = 1) (ht : t ∉ cs.qubits)
    (ψ : StateVector R) :
    (hadamard t).run h ((controlledZ cs t).run h ((hadamard t).run h ψ)) =
      (controlledX cs t).run h ψ := by
  refine ext_at t fun v b => ?_
  simp only [run_hadamard_update, run_controlledZ, run_controlledX, permute_controlledX,
    holds_update ht, Function.update_idem, Function.update_self]
  -- the controls hold or not, whatever the target is
  cases cs.toList.all (·.holds v) <;> cases b <;>
    simp only [Bool.false_eq_true, Bool.and_true, Bool.and_false, Bool.not_true, Bool.not_false,
      if_false, if_true]
  · linear_combination ψ (Function.update v t false) * hh
  · linear_combination ψ (Function.update v t true) * hh
  · linear_combination ψ (Function.update v t true) * hh
  · linear_combination ψ (Function.update v t false) * hh

end target

theorem all_holds_insert (cs : Controls) (c : Control) (v : Qubit → Bool) :
    (cs.insert c).toList.all (·.holds v) = (c.holds v && cs.toList.all (·.holds v)) := by
  rw [Bool.eq_iff_iff, Bool.and_eq_true, List.all_eq_true, List.all_eq_true]
  simp only [OrderedSet.mem_toList, OrderedSet.mem_insert, forall_eq_or_imp]

/-- In a controlled Z a positive control and the target can change places. -/
theorem run_controlledZ_comm (cs : Controls) (a b : Qubit) (ψ : StateVector R) :
    (controlledZ (cs.insert (.pos a)) b).run h ψ =
      (controlledZ (cs.insert (.pos b)) a).run h ψ := by
  funext v
  rw [run_controlledZ, run_controlledZ, all_holds_insert, all_holds_insert]
  cases cs.toList.all (·.holds v) <;> cases hv : v a <;> cases hw : v b <;>
    simp [Control.holds, Control.pos, Control.isPositive, hv, hw]

/-! ## The laws -/

section laws
variable {a b : Qubit} {cs : Controls}

/-- Hadamard gates on both qubits turn a controlled X around. -/
theorem run_hadamard_turn (hh : 2 * h * h = 1) (hne : a ≠ b) (ha : a ∉ cs.qubits)
    (hb : b ∉ cs.qubits) (ψ : StateVector R) :
    (hadamard b).run h ((hadamard a).run h ((controlledX (cs.insert (.pos a)) b).run h
      ((hadamard b).run h ((hadamard a).run h ψ)))) =
      (controlledX (cs.insert (.pos b)) a).run h ψ := by
  have hapart : ∀ q, (hadamard b).actsOn q = true → (hadamard a).actsOn q = false := by
    intro q hq
    have hsingle : ∀ t, (hadamard t).IsSingle t := fun _ => rfl
    have hqb := (hsingle b).actsOn_iff.1 hq
    rw [← Bool.not_eq_true, (hsingle a).actsOn_iff, hqb]
    exact hne.symm
  have hb' : b ∉ Controls.qubits (cs.insert (.pos a)) := by
    rw [Controls.mem_qubits_insert]
    rintro (heq | hmem)
    · exact hne heq.symm
    · exact hb hmem
  have ha' : a ∉ Controls.qubits (cs.insert (.pos b)) := by
    rw [Controls.mem_qubits_insert]
    rintro (heq | hmem)
    · exact hne heq
    · exact ha hmem
  rw [← run_hadamard_controlledZ hh hb', run_hadamard_hadamard hh, run_comm hapart,
    run_hadamard_hadamard hh, run_controlledZ_comm, run_hadamard_controlledZ hh ha']

theorem permute_cnot_eq (a b : Qubit) (v : Qubit → Bool) :
    (cnot a b).permute v = Function.update v b (v b ^^ v a) := by
  funext q
  rw [permute_cnot, Function.update_apply]

/-- A controlled SWAP is three CNOTs, the middle one with the controls. -/
theorem permute_controlled_swap (hne : a ≠ b) (hb : b ∉ cs.qubits) (v : Qubit → Bool) :
    (cnot a b).permute ((controlledX (cs.insert (.pos b)) a).permute ((cnot a b).permute v)) =
      permute { kind := .swap, controls := cs, targets := [a, b] } v := by
  have hswap : permute { kind := .swap, controls := cs, targets := [a, b] } v =
      if cs.toList.all (·.holds v) then
        fun q => if q = a then v b else if q = b then v a else v q
      else v := rfl
  simp only [permute_cnot_eq, permute_controlledX, all_holds_insert, hswap, holds_update hb]
  funext q
  cases cs.toList.all (·.holds v) <;> cases hva : v a <;> cases hvb : v b <;>
    by_cases hqa : q = a <;> by_cases hqb : q = b <;>
    simp_all [Control.holds, Control.pos, Control.isPositive, Function.update_apply]

theorem run_inverse (hh : 2 * h * h = 1) {k l : Kind} (hkl : (k, l) ∈ inversePairs) (t : Qubit)
    (ψ : StateVector R) : (ofKind l [t]).run h ((ofKind k [t]).run h ψ) = ψ := by
  have hpairs : ∀ p ∈ inversePairs, (p.1 = .h ↔ p.2 = .h) ∧ (p.1 = .z ↔ p.2 = .z) ∧
      (p.2, p.1) ∈ inversePairs := by decide
  obtain ⟨hkh, hkz, hback⟩ : (k = .h ↔ l = .h) ∧ (k = .z ↔ l = .z) ∧ (l, k) ∈ inversePairs :=
    hpairs (k, l) hkl
  by_cases hl : l = .h
  · rw [hl, hkh.2 hl]
    exact run_hadamard_hadamard hh t ψ
  · by_cases hz : l = .z
    · rw [hz, hkz.2 hz]
      funext v
      have hrun : ∀ φ : StateVector R, (ofKind .z [t]).run h φ v = if v t then -φ v else φ v :=
        fun φ => run_controlledZ ∅ t φ v
      rw [hrun, hrun]
      split <;> simp
    · funext v
      rw [run_of_permutes hz hl, run_of_permutes (mt hkz.1 hz) (mt hkh.1 hl),
        permute_inverse hback]

theorem run_cnot_cnot (hne : a ≠ b) (ψ : StateVector R) :
    (cnot a b).run h ((cnot a b).run h ψ) = ψ := by
  funext v
  rw [run_cnot, run_cnot, permute_cnot_cnot hne]

theorem run_swap_comm (hne : a ≠ b) (ψ : StateVector R) :
    (swap a b).run h ψ = (swap b a).run h ψ := by
  funext v
  have hrun : ∀ a b, (swap a b).run h ψ v = ψ ((swap a b).permute v) := fun a b =>
    run_swap ∅ a b ψ v
  rw [hrun, hrun, permute_swap_comm hne]

theorem run_controlled_swap (hne : a ≠ b) (hb : b ∉ cs.qubits) (ψ : StateVector R) :
    run h { kind := .swap, controls := cs, targets := [a, b] } ψ =
      (cnot a b).run h ((controlledX (cs.insert (.pos b)) a).run h ((cnot a b).run h ψ)) := by
  funext v
  rw [run_cnot, run_controlledX, run_cnot, permute_controlled_swap hne hb, run_swap]

end laws

theorem run_of_isIdentity (hg : g.kind = .i) : g.run h ψ = ψ := by
  have hact : ∀ v, g.act v = v := by
    intro v
    funext q
    simp [act, hg]
  funext v
  rw [run_of_permutes (by simp [hg]) (by simp [hg]), permute, hact, ite_self]

end Gate

/-- Gates as maps of state vectors, run from left to right in a product. -/
def vectorModel (hh : 2 * h * h = 1) : GateModel (Function.End (StateVector R))ᵐᵒᵖ where
  eval g := .op (g.run h)
  commute hapart := congrArg MulOpposite.op (funext fun _ => Gate.run_comm hapart)
  identity hg := congrArg MulOpposite.op (funext fun _ => Gate.run_of_isIdentity hg)
  params _ _ _ := rfl
  inverse t hkl := congrArg MulOpposite.op (funext (Gate.run_inverse hh hkl t))
  cnot_cnot hne := congrArg MulOpposite.op (funext (Gate.run_cnot_cnot (h := h) hne))
  swap_comm hne := congrArg MulOpposite.op (funext (Gate.run_swap_comm hne))
  cnot_three {_ b} hne := congrArg MulOpposite.op (funext fun ψ =>
    (Gate.run_controlled_swap hne (show b ∉ Controls.qubits ∅ from List.not_mem_nil) ψ).symm)
  controlled_swap hne _ hb _ :=
    congrArg MulOpposite.op (funext (Gate.run_controlled_swap hne hb))
  hadamard_turn hne ha hb _ :=
    congrArg MulOpposite.op (funext (Gate.run_hadamard_turn hh hne ha hb))

/-! ## Circuits -/

section meaning
variable (hh : 2 * h * h = 1)

theorem meaning_vectorModel_of {ops : List Operation}
    (hops : ∀ op ∈ ops, meaning (vectorModel hh).val [op] = .op (op.evolve h)) :
    meaning (vectorModel hh).val ops = .op (evolveAll h ops) := by
  induction ops with
  | nil => rfl
  | cons op rest ih =>
    rw [meaning_cons, hops op List.mem_cons_self, ih fun o ho => hops o (List.mem_cons_of_mem _ ho)]
    rfl

/-- The product over the leaves is the map of state vectors that the operations carry out. -/
theorem meaning_vectorModel (ops : List Operation) :
    meaning (vectorModel hh).val ops = .op (evolveAll h ops) := by
  have hop : ∀ op, meaning (vectorModel hh).val [op] = .op (op.evolve h) := by
    intro op
    induction op using inductionOn with
    | gate g =>
      rw [meaning_gate]
      rfl
    | effect e => rfl
    | conditional cond body _ => rfl
    | compound children ih =>
      rw [meaning_compound, meaning_vectorModel_of hh ih]
      rfl
  exact meaning_vectorModel_of hh fun op _ => hop op

end meaning
end QuantumCircuit
