import Mathlib.Data.List.Nodup
import QuantumCircuit.Circuit.Builder
import QuantumCircuit.Lanes.Build
import QuantumCircuit.Proofs.Leaves

/-! What the checks on operations say: a gate that passes has its number of
targets and uses no qubit twice, and an operation passes when its leaves do. -/
namespace QuantumCircuit

theorem firstRepeated?_eq_none_iff {seen l : List Qubit} :
    firstRepeated? seen l = none ↔ l.Nodup ∧ ∀ q ∈ l, q ∉ seen := by
  induction l generalizing seen with
  | nil => simp [firstRepeated?]
  | cons q rest ih =>
    rw [firstRepeated?]
    by_cases hq : q ∈ seen
    · simp [hq]
    · rw [if_neg hq, ih, List.nodup_cons]
      constructor
      · rintro ⟨hnodup, hrest⟩
        refine ⟨⟨fun hmem => hrest q hmem List.mem_cons_self, hnodup⟩, ?_⟩
        intro r hr
        rcases List.mem_cons.1 hr with rfl | hr
        · exact hq
        · exact fun hseen => hrest r hr (List.mem_cons_of_mem _ hseen)
      · rintro ⟨⟨hnot, hnodup⟩, hall⟩
        refine ⟨hnodup, ?_⟩
        intro r hr hseen
        rcases List.mem_cons.1 hseen with rfl | hseen
        · exact hnot hr
        · exact hall r (List.mem_cons_of_mem _ hr) hseen

namespace Gate

/-- A gate passes the check when it has its number of targets and no qubit
twice. -/
theorem validate_eq_ok_iff {g : Gate} :
    g.validate = .ok () ↔ g.kind.numTargets = some g.targets.length ∧ g.operands.Nodup := by
  rw [validate]
  cases hk : g.kind.numTargets with
  | none => simp
  | some expected =>
    dsimp only
    by_cases hlen : g.targets.length = expected
    · rw [if_neg (not_not.2 hlen)]
      have hiff := @firstRepeated?_eq_none_iff [] g.operands
      cases hrep : firstRepeated? [] g.operands with
      | none =>
        rw [hrep] at hiff
        simp [hlen, (hiff.1 rfl).1]
      | some q =>
        have hnot : ¬ g.operands.Nodup := by
          intro hnodup
          have := hiff.2 ⟨hnodup, by simp⟩
          rw [hrep] at this
          cases this
        simp [hnot]
    · have hne : expected ≠ g.targets.length := fun h => hlen h.symm
      simp [hlen, hne]

variable {g : Gate}

theorem mem_operands {q : Qubit} : q ∈ g.operands ↔ g.actsOn q = true := by
  simp [operands, actsOn, Controls.qubits, or_comm]

theorem isGate_of_valid (h : g.validate = .ok ()) : g.kind.isGate = true := by
  rw [Kind.isGate, (validate_eq_ok_iff.1 h).1]
  rfl

theorem targets_ne_nil_of_valid (h : g.validate = .ok ()) : g.targets ≠ [] := by
  intro hnil
  have htargets := (validate_eq_ok_iff.1 h).1
  rw [hnil] at htargets
  cases hk : g.kind <;> simp [hk, Kind.numTargets] at htargets

/-- A gate that passes the check acts on some qubit. -/
theorem exists_actsOn_of_valid (h : g.validate = .ok ()) : ∃ q, g.actsOn q = true := by
  cases ht : g.targets with
  | nil => exact absurd ht (targets_ne_nil_of_valid h)
  | cons q rest => exact ⟨q, by simp [actsOn, ht]⟩

end Gate

namespace Operation

theorem validate_compound_iff {children : List Operation} :
    (Operation.compound children).validate = .ok () ↔ ∀ op ∈ children, op.validate = .ok () :=
  validateAll_eq_ok_iff

/-- A condition passes the check on a gate that does. -/
theorem validate_conditional_iff {cond : Condition} {body : Operation} :
    (Operation.conditional cond body).validate = .ok () ↔
      ∃ g, body = .gate g ∧ g.validate = .ok () := by
  constructor
  · intro h
    cases body with
    | gate g =>
      refine ⟨g, rfl, ?_⟩
      by_cases hwell : g.kind.isGate = true
      · simpa [validate, isGate, asGate?, isWellFormed, hwell] using h
      · simp [validate, isGate, asGate?, isWellFormed, hwell] at h
    | compound children => cases h
    | effect e => cases h
    | conditional cond' body' => cases h
  · rintro ⟨g, rfl, hg⟩
    simpa [validate, isGate, asGate?, isWellFormed, Gate.isGate_of_valid hg] using hg

/-- An operation passes the check when all its leaves do. -/
theorem validate_iff_leaves {op : Operation} :
    op.validate = .ok () ↔ ∀ leaf ∈ op.leaves, leaf.validate = .ok () := by
  induction op using inductionOn with
  | gate g => simp [leaves]
  | effect e => simp [leaves]
  | conditional cond body _ => simp [leaves]
  | compound children ih =>
    rw [validate_compound_iff, leaves_compound]
    constructor
    · intro h leaf hleaf
      obtain ⟨op, hop, hmem⟩ := mem_leavesOfAll.1 hleaf
      exact (ih op hop).1 (h op hop) leaf hmem
    · intro h op hop
      exact (ih op hop).2 fun leaf hleaf => h leaf (mem_leavesOfAll.2 ⟨op, hop, hleaf⟩)

theorem checkAll_eq_ok_iff {pass : String} {ops : List Operation} :
    checkAll pass ops = .ok () ↔ ∀ op ∈ ops, op.check pass = .ok () := by
  induction ops with
  | nil => simp [checkAll]
  | cons op rest ih =>
    rw [checkAll]
    split
    · next h => simp [h, ih]
    · next h => simp [h]

/-- An operation that passes the check on its shape is well formed. -/
theorem check_of_validate (pass : String) {op : Operation} (h : op.validate = .ok ()) :
    op.check pass = .ok () := by
  induction op using inductionOn with
  | gate g =>
    rw [check, if_pos (Gate.isGate_of_valid h)]
  | effect e =>
    have hwell : (Operation.effect e).isWellFormed = true := by
      by_contra hnot
      rw [validate, Effect.validate, if_pos (by simpa using hnot)] at h
      cases h
    rw [check, if_pos hwell]
  | conditional cond body _ =>
    obtain ⟨g, rfl, hg⟩ := validate_conditional_iff.1 h
    simp [check, isGate, asGate?, isWellFormed, Gate.isGate_of_valid hg]
  | compound children ih =>
    have hall := validate_compound_iff.1 h
    exact checkAll_eq_ok_iff.2 fun op hop => ih op hop (hall op hop)

end Operation
/-! ## Controls added to a gate -/

namespace Controls
variable {cs : Controls} {c : Control} {q : Qubit}

theorem mem_qubits_insert : q ∈ qubits (cs.insert c) ↔ q = c.qubit ∨ q ∈ cs.qubits := by
  simp only [qubits, List.mem_map, OrderedSet.mem_toList, OrderedSet.mem_insert]
  constructor
  · rintro ⟨d, rfl | hd, rfl⟩
    · exact .inl rfl
    · exact .inr ⟨d, hd, rfl⟩
  · rintro (rfl | ⟨d, hd, rfl⟩)
    · exact ⟨c, .inl rfl, rfl⟩
    · exact ⟨d, .inr hd, rfl⟩

theorem nodup_qubits_insert (h : cs.qubits.Nodup) (hc : c.qubit ∉ cs.qubits) :
    (qubits (cs.insert c)).Nodup := by
  have hmem : ∀ {d : Control}, d ∈ cs → d.qubit ∈ cs.qubits :=
    fun hd => List.mem_map_of_mem hd
  refine (cs.insert c).nodup.map_on ?_
  intro x hx y hy hxy
  rcases OrderedSet.mem_insert.1 hx with hx | hx <;>
    rcases OrderedSet.mem_insert.1 hy with hy | hy
  · exact hx.trans hy.symm
  · rw [← hx, hxy] at hc
    exact absurd (hmem hy) hc
  · rw [← hy, ← hxy] at hc
    exact absurd (hmem hx) hc
  · exact List.inj_on_of_nodup_map h hx hy hxy

end Controls

/-! ## Appending -/

namespace Circuit
variable {c c' : Circuit} {op : Operation}

theorem declares_of_checkOperands (h : c.checkOperands op = .ok ()) {q : Qubit}
    (hq : op.actsOn q = true) : c.declares q = true := by
  rw [checkOperands] at h
  split at h
  · cases h
  · next hnone =>
    have hfind := List.find?_eq_none.1 hnone q (Operation.mem_qubits.2 hq)
    simpa using hfind

/-- What is appended has passed both checks. -/
theorem push_eq_ok (h : c.push op = .ok c') :
    op.validate = .ok () ∧ c.checkOperands op = .ok () ∧ c' = { c with ops := c.ops ++ [op] } := by
  rw [push] at h
  split at h
  · cases h
  · next hvalid =>
    split at h
    · cases h
    · next hcheck => exact ⟨hvalid, hcheck, (Except.ok.inj h).symm⟩

end Circuit
end QuantumCircuit
