import Mathlib.Data.List.Induction
import QuantumCircuit.Proofs.WellFormed

/-! What makes a circuit dynamic. Of a measured qubit only the gates behind its last
measurement are looked for, so a gate that stands between two measurements of its qubit does
not count. If no qubit is measured twice, every gate on a measured qubit counts. -/
namespace QuantumCircuit
namespace Dynamic
open Operation

/-- A gate on a qubit that has been measured by an operation in front of it. -/
structure Disturbs (q : Qubit) (front : List Operation) (g : Operation) : Prop where
  isGate : g.isGate = true
  actsOn : g.actsOn q = true
  measured : ∃ m ∈ front, m.isMeasure = true ∧ m.actsOn q = true

/-- Some gate disturbs the qubit. -/
def Disturbed (q : Qubit) (leaves : List Operation) : Prop :=
  ∃ front g after, leaves = front ++ g :: after ∧ Disturbs q front g

/-- Some gate disturbs the qubit, and the qubit is not measured behind it. -/
def LeftDisturbed (q : Qubit) (leaves : List Operation) : Prop :=
  ∃ front g after, leaves = front ++ g :: after ∧ Disturbs q front g ∧
    ∀ o ∈ after, o.isMeasure = true → o.actsOn q = false

/-- Some operation resets a qubit or is conditional. -/
def HasFeedback (leaves : List Operation) : Prop :=
  ∃ op ∈ leaves, op.isReset = true ∨ op.isConditional = true

theorem LeftDisturbed.disturbed {q : Qubit} {leaves : List Operation} (h : LeftDisturbed q leaves) :
    Disturbed q leaves := by
  obtain ⟨front, g, after, heq, hdisturbs, -⟩ := h
  exact ⟨front, g, after, heq, hdisturbs⟩

/-- A qubit that is measured only once is not measured again behind the gate. -/
theorem Disturbed.leftDisturbed {q : Qubit} {leaves : List Operation} (h : Disturbed q leaves)
    (honce : leaves.countP (fun o => o.isMeasure && o.actsOn q) ≤ 1) : LeftDisturbed q leaves := by
  obtain ⟨front, g, after, rfl, hdisturbs⟩ := h
  refine ⟨front, g, after, rfl, hdisturbs, fun o ho hmeasure => ?_⟩
  obtain ⟨m, hm, hm'⟩ := hdisturbs.measured
  rw [Bool.eq_false_iff]
  intro hacts
  have hfront : 0 < front.countP (fun o => o.isMeasure && o.actsOn q) :=
    List.countP_pos_iff.2 ⟨m, hm, by simp [hm']⟩
  have hafter : 0 < (g :: after).countP (fun o => o.isMeasure && o.actsOn q) :=
    List.countP_pos_iff.2 ⟨o, List.mem_cons_of_mem _ ho, by simp [hmeasure, hacts]⟩
  rw [List.countP_append] at honce
  omega

theorem disturbs_iff {q : Qubit} {front : List Operation} {g : Operation} :
    Disturbs q front g ↔ g.isGate = true ∧ g.actsOn q = true ∧
      (front.filter (·.actsOn q)).any isMeasure = true := by
  have hany : (front.filter (·.actsOn q)).any isMeasure = true ↔
      ∃ m ∈ front, m.isMeasure = true ∧ m.actsOn q = true := by
    simp [List.any_eq_true, and_comm]
  rw [hany]
  exact ⟨fun h => ⟨h.isGate, h.actsOn, h.measured⟩, fun h => ⟨h.1, h.2.1, h.2.2⟩⟩

theorem isGate_eq_false_of_isMeasure {op : Operation} (h : op.isMeasure = true) :
    op.isGate = false := by
  cases op with
  | effect e => rfl
  | gate g => cases h
  | compound children => cases h
  | conditional cond body => cases h

/-! ## Lanes from their end -/

theorem gateAfterMeasure_concat (lane : List Operation) (op : Operation) :
    gateAfterMeasure (lane ++ [op]) =
      (!op.isMeasure && (op.isGate && lane.any isMeasure || gateAfterMeasure lane)) := by
  rw [gateAfterMeasure, gateAfterMeasure]
  cases hop : op.isMeasure with
  | true => simp [hop]
  | false =>
    simp only [List.any_append, List.any_cons, hop, List.any_nil, Bool.or_false,
      List.reverse_append, List.reverse_cons, List.reverse_nil, List.nil_append,
      List.singleton_append, List.takeWhile_cons, Bool.not_false, ↓reduceIte, Bool.true_and]
    cases lane.any isMeasure <;> simp

/-- One more leaf leaves the qubit disturbed if it disturbs the qubit itself, or if the qubit
was left disturbed and is not measured by it. -/
theorem leftDisturbed_concat {q : Qubit} {leaves : List Operation} {op : Operation} :
    LeftDisturbed q (leaves ++ [op]) ↔
      Disturbs q leaves op ∨
        LeftDisturbed q leaves ∧ (op.isMeasure = true → op.actsOn q = false) := by
  constructor
  · rintro ⟨front, g, after, heq, hdisturbs, hafter⟩
    rcases List.eq_nil_or_concat after with rfl | ⟨after, last, rfl⟩
    · obtain ⟨rfl, hop⟩ := List.append_inj' heq rfl
      obtain rfl : op = g := List.singleton_inj.1 hop
      exact .inl hdisturbs
    · rw [List.concat_eq_append] at heq hafter
      have hcut : leaves ++ [op] = (front ++ g :: after) ++ [last] := by simpa using heq
      obtain ⟨rfl, hop⟩ := List.append_inj' hcut rfl
      obtain rfl : op = last := List.singleton_inj.1 hop
      refine .inr ⟨⟨front, g, after, rfl, hdisturbs, ?_⟩, hafter op (by simp)⟩
      exact fun o ho => hafter o (List.mem_append_left _ ho)
  · rintro (hdisturbs | ⟨⟨front, g, after, rfl, hdisturbs, hafter⟩, hop⟩)
    · exact ⟨leaves, op, [], rfl, hdisturbs, fun o ho => absurd ho List.not_mem_nil⟩
    · refine ⟨front, g, after ++ [op], by simp, hdisturbs, ?_⟩
      intro o ho
      rcases List.mem_append.1 ho with ho | ho
      · exact hafter o ho
      · rw [List.mem_singleton.1 ho]
        exact hop

/-- A gate is found on the lane of a qubit if the qubit is left disturbed. -/
theorem gateAfterMeasure_filter_iff {q : Qubit} {leaves : List Operation} :
    gateAfterMeasure (leaves.filter (·.actsOn q)) = true ↔ LeftDisturbed q leaves := by
  -- The lane is read from its end, so the induction adds leaves there.
  induction leaves using List.reverseRecOn with
  | nil =>
    constructor
    · intro h
      cases h
    · rintro ⟨front, g, after, heq, -⟩
      cases front <;> cases heq
  | append_singleton leaves op ih =>
    rw [leftDisturbed_concat, ← ih, List.filter_append, disturbs_iff]
    by_cases hacts : op.actsOn q = true
    · rw [List.filter_cons_of_pos hacts, List.filter_nil, gateAfterMeasure_concat]
      cases hmeasure : op.isMeasure with
      | true => simp [isGate_eq_false_of_isMeasure hmeasure, hacts]
      | false => simp [hacts]
    · rw [List.filter_cons_of_neg hacts, List.filter_nil, List.append_nil]
      simp [hacts]

end Dynamic

/-! ## The answer -/

namespace Circuit
open Operation QuantumCircuit.Dynamic
variable {c : Circuit}

theorem isDynamic_of_wellFormed (hwell : ∀ op ∈ nodesOfAll c.ops, op.isWellFormed = true) :
    c.isDynamic = .ok (c.flatten.ops.any isFeedback ||
      (qubitsOfAll c.ops).toList.any fun q => gateAfterMeasure (leavesOn q c.ops)) := by
  have hcheck : ∀ op ∈ c.ops, op.check passName = .ok () := fun op hop =>
    check_eq_ok_iff.2 fun node hnode => hwell node (mem_nodesOfAll.2 ⟨op, hop, hnode⟩)
  rw [isDynamic, findFeedback_of_check hcheck, flatten]
  cases (leavesOfAll c.ops).any isFeedback <;> rfl

theorem any_isFeedback_iff {leaves : List Operation} :
    leaves.any isFeedback = true ↔ HasFeedback leaves := by
  simp [isFeedback, HasFeedback, or_comm]

/-- A qubit that is left disturbed is a qubit of some operation. -/
theorem any_gateAfterMeasure_iff :
    ((qubitsOfAll c.ops).toList.any fun q => gateAfterMeasure (leavesOn q c.ops)) = true ↔
      ∃ q, LeftDisturbed q c.flatten.ops := by
  rw [List.any_eq_true]
  constructor
  · rintro ⟨q, -, hq⟩
    exact ⟨q, gateAfterMeasure_filter_iff.1 hq⟩
  · rintro ⟨q, hq⟩
    refine ⟨q, ?_, gateAfterMeasure_filter_iff.2 hq⟩
    obtain ⟨front, g, after, heq, hdisturbs, -⟩ := hq
    have hleaf : g ∈ leavesOfAll c.ops := by
      rw [show leavesOfAll c.ops = front ++ g :: after from heq]
      simp
    obtain ⟨op, hop, hmem⟩ := mem_leavesOfAll.1 hleaf
    refine mem_qubitsOfAll.2 ⟨op, hop, mem_qubits.2 ?_⟩
    exact actsOn_iff_leaf.2 ⟨g, hmem, hdisturbs.actsOn⟩

/-- A circuit of well-formed operations is dynamic exactly if it has feedback or some qubit is
left disturbed, and it is static otherwise. A dynamic circuit without feedback always has a
gate on a measured qubit; the converse holds if no qubit is measured twice. -/
theorem isDynamic_exact (hwell : ∀ op ∈ nodesOfAll c.ops, op.isWellFormed = true) :
    (c.isDynamic = .ok true ↔
        HasFeedback c.flatten.ops ∨ ∃ q, LeftDisturbed q c.flatten.ops) ∧
      (c.isDynamic ≠ .ok true → c.isDynamic = .ok false) ∧
      (c.isDynamic = .ok true → HasFeedback c.flatten.ops ∨ ∃ q, Disturbed q c.flatten.ops) ∧
      ((∀ q, c.flatten.ops.countP (fun o => o.isMeasure && o.actsOn q) ≤ 1) →
        (c.isDynamic = .ok true ↔
          HasFeedback c.flatten.ops ∨ ∃ q, Disturbed q c.flatten.ops)) := by
  have hexact : c.isDynamic = .ok true ↔
      HasFeedback c.flatten.ops ∨ ∃ q, LeftDisturbed q c.flatten.ops := by
    rw [isDynamic_of_wellFormed hwell, Except.ok.injEq, Bool.or_eq_true, any_isFeedback_iff,
      any_gateAfterMeasure_iff]
  have hdisturbed : c.isDynamic = .ok true →
      HasFeedback c.flatten.ops ∨ ∃ q, Disturbed q c.flatten.ops :=
    fun h => (hexact.1 h).imp_right fun hq => hq.imp fun _ => LeftDisturbed.disturbed
  refine ⟨hexact, fun hnot => ?_, hdisturbed, fun honce => ⟨hdisturbed, fun h => ?_⟩⟩
  · rw [isDynamic_of_wellFormed hwell] at hnot ⊢
    exact congrArg Except.ok (Bool.eq_false_iff.2 fun h => hnot (congrArg Except.ok h))
  · exact hexact.2 (h.imp_right fun hq => hq.imp fun q hq => hq.leftDisturbed (honce q))

/-- Two qubits are measured together, and one of them then controls a gate inside a compound. -/
def listened : Circuit :=
  { Circuit.withSize "listened" 3 3 with
    ops := [.compound [.gate (.ofKind .h [⟨0⟩]), .effect ⟨.measure, [⟨0⟩, ⟨1⟩], [⟨0⟩, ⟨1⟩]⟩],
      .effect ⟨.barrier, [⟨0⟩, ⟨1⟩, ⟨2⟩], []⟩,
      .compound [.compound [.gate (.cnot ⟨1⟩ ⟨2⟩)], .effect ⟨.measure, [⟨2⟩], [⟨2⟩]⟩]] }

theorem isDynamic_exact_listened :
    (∀ op ∈ nodesOfAll listened.ops, op.isWellFormed = true) ∧
      (∀ q, listened.flatten.ops.countP (fun o => o.isMeasure && o.actsOn q) ≤ 1) ∧
      listened.isDynamic = .ok true ∧ ∃ q, Disturbed q listened.flatten.ops := by
  have hwell : ∀ op ∈ nodesOfAll listened.ops, op.isWellFormed = true := by decide
  have honce : ∀ q, listened.flatten.ops.countP (fun o => o.isMeasure && o.actsOn q) ≤ 1 := by
    intro q
    by_cases hq : q = ⟨2⟩
    · subst hq
      decide
    · have hcount : listened.flatten.ops.countP (fun o => o.isMeasure && o.actsOn q) =
          if q = ⟨0⟩ ∨ q = ⟨1⟩ then 1 else 0 := by
        simp [listened, flatten, leavesOfAll, leaves, List.countP_cons, isMeasure, actsOn, hq]
      rw [hcount]
      split <;> decide
  have hdisturbed : Disturbed ⟨1⟩ listened.flatten.ops :=
    ⟨[.gate (.ofKind .h [⟨0⟩]), .effect ⟨.measure, [⟨0⟩, ⟨1⟩], [⟨0⟩, ⟨1⟩]⟩,
        .effect ⟨.barrier, [⟨0⟩, ⟨1⟩, ⟨2⟩], []⟩], .gate (.cnot ⟨1⟩ ⟨2⟩), _, rfl, by decide,
      by decide, _, List.mem_cons_of_mem _ List.mem_cons_self, by decide, by decide⟩
  have hdynamic := ((isDynamic_exact hwell).2.2.2 honce).2 (.inr ⟨_, hdisturbed⟩)
  exact ⟨hwell, honce, hdynamic, _, hdisturbed⟩

/-- A qubit is measured, flipped and measured again. -/
def flipped : Circuit :=
  { Circuit.withSize "flipped" 1 2 with
    ops := [.effect ⟨.measure, [⟨0⟩], [⟨0⟩]⟩, .gate (.ofKind .x [⟨0⟩]),
      .effect ⟨.measure, [⟨0⟩], [⟨1⟩]⟩] }

/-- A gate on a measured qubit goes unnoticed if the qubit is measured once more. -/
theorem isDynamic_second_measurement :
    Disturbed ⟨0⟩ flipped.flatten.ops ∧ flipped.isDynamic = .ok false ∧
      { flipped with ops := flipped.ops.dropLast }.isDynamic = .ok true := by
  refine ⟨⟨[.effect ⟨.measure, [⟨0⟩], [⟨0⟩]⟩], .gate (.ofKind .x [⟨0⟩]), _, rfl, rfl, rfl, ?_⟩,
    by decide, by decide⟩
  exact ⟨_, List.mem_cons_self, rfl, rfl⟩

end Circuit
end QuantumCircuit
