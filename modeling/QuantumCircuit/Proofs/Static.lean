import QuantumCircuit.Proofs.Deferral.Sources
import QuantumCircuit.Proofs.Nesting

/-! Circuits that become static. With the compounds opened, the resets gone and the
measurements deferred, a circuit has no feedback left if each of its conditional gates is
behind a measurement into its bit: that measurement, or another one into the same bit, has
taken the gate over. All measurements then stand at the end. -/
namespace QuantumCircuit

/-! ## What a renaming of the qubits does not change -/

namespace Operation
variable {op : Operation} {f : Qubit → Qubit}

end Operation

namespace Renaming
open Operation
variable {r : Renaming} {leaves : List Operation}

end Renaming

/-! ## Operations ready for a deferral -/

namespace Deferral
open Operation

/-- The operations have the right kinds and are neither compounds nor resets, and some qubit
is measured into the bit of a condition in front of it. -/
structure Deferrable (ops : List Operation) : Prop where
  shaped : ∀ o ∈ ops, o.check Dynamic.passName = .ok ()
  isCompound : ∀ o ∈ ops, o.isCompound = false
  isReset : ∀ o ∈ ops, o.isReset = false
  answered : ∀ before cond body after, ops = before ++ .conditional cond body :: after →
    ∃ q, (q, cond.register.start) ∈ measuredOfAll before

/-- A static operation: of the right kind, no compound and no feedback. -/
structure Inert (o : Operation) : Prop where
  shaped : o.check Dynamic.passName = .ok ()
  isCompound : o.isCompound = false
  isFeedback : Dynamic.isFeedback o = false

theorem inert_measuring (m : Qubit × Clbit) : Inert (measuring m) := ⟨rfl, rfl, rfl⟩

theorem isGate_of_check {pass : String} {cond : Condition} {body : Operation}
    (h : (Operation.conditional cond body).check pass = .ok ()) :
    ∃ g, body = .gate g ∧ g.kind.isGate = true := by
  rw [check] at h
  split at h
  · cases h
  · next hgate =>
    split at h
    · cases h
    · next hwell =>
      cases body with
      | gate g => exact ⟨g, rfl, by simpa [isWellFormed] using hwell⟩
      | compound children => simp [isGate, asGate?] at hgate
      | effect e => simp [isGate, asGate?] at hgate
      | conditional inner body => simp [isGate, asGate?] at hgate

variable {ops : List Operation}

/-- A condition that is behind a measurement into its bit is resolved, so no feedback is left. -/
theorem Deferrable.inert_of_mem_resolveAll (h : Deferrable ops) {o : Operation}
    (ho : o ∈ resolveAll firstUnrepeated? [] ops) : Inert o := by
  obtain ⟨before, op, after, hcut, rfl⟩ := mem_resolveAll ho
  have hmem : op ∈ ops := by simp [hcut]
  have hshaped := h.shaped op hmem
  cases op with
  | compound children => cases h.isCompound _ hmem
  | gate g => exact ⟨hshaped, rfl, rfl⟩
  | effect e =>
    have hfeedback : Dynamic.isFeedback (.effect e) = false := by
      rw [Dynamic.isFeedback, h.isReset _ hmem]
      rfl
    exact ⟨hshaped, rfl, hfeedback⟩
  | conditional cond body =>
    obtain ⟨g, rfl, hkind⟩ := isGate_of_check hshaped
    obtain ⟨q, hq⟩ := h.answered before cond _ after hcut
    obtain ⟨p, hp⟩ := exists_firstUnrepeated? (List.ne_nil_of_mem (mem_writers.2 hq))
    rw [List.nil_append, resolve, hp]
    exact ⟨if_pos hkind, rfl, rfl⟩

end Deferral

/-! ## Static circuits -/

namespace Dynamic
open Operation Deferral

theorem findFeedback_eq_false {ops : List Operation} (h : ∀ o ∈ ops, Inert o) :
    findFeedback ops = .ok false := by
  have hnone : ops.any isFeedback = false := by
    rw [List.any_eq_false]
    intro o ho
    simp [(h o ho).isFeedback]
  rw [findFeedback_of_check fun o ho => (h o ho).shaped,
    leavesOfAll_eq_self fun o ho => (h o ho).isCompound, hnone]

/-- Measurements at the end of a lane have no gate behind them. -/
theorem gateAfterMeasure_append {as bs : List Operation} (ha : ∀ o ∈ as, o.isMeasure = false)
    (hb : ∀ o ∈ bs, o.isMeasure = true) : gateAfterMeasure (as ++ bs) = false := by
  rcases List.eq_nil_or_concat bs with rfl | ⟨front, last, rfl⟩
  · have hnone : (as ++ []).any isMeasure = false := by
      rw [List.append_nil, List.any_eq_false]
      intro o ho
      simp [ha o ho]
    rw [gateAfterMeasure, hnone, Bool.false_and]
  · have hlast : last.isMeasure = true := hb last (by simp)
    simp [gateAfterMeasure, hlast]

/-- A list of operations without feedback in which the measurements stand at the end. -/
theorem isDynamic_eq_false {c : Circuit} {body : List Operation} {ms : List (Qubit × Clbit)}
    (hops : c.ops = body ++ ms.map measuring) (hinert : ∀ o ∈ body, Inert o)
    (hbody : ∀ o ∈ body, o.isMeasure = false) : c.isDynamic = .ok false := by
  have hmeasuring : ∀ o ∈ ms.map measuring, Inert o ∧ o.isMeasure = true := by
    intro o ho
    obtain ⟨m, -, rfl⟩ := List.mem_map.1 ho
    exact ⟨inert_measuring m, rfl⟩
  have hfeedback : findFeedback c.ops = .ok false := by
    refine findFeedback_eq_false fun o ho => ?_
    rw [hops, List.mem_append] at ho
    exact ho.elim (hinert o) fun ho => (hmeasuring o ho).1
  have hlane : ∀ q, gateAfterMeasure (leavesOn q c.ops) = false := by
    intro q
    rw [hops, leavesOn_append, leavesOn, leavesOn,
      leavesOfAll_eq_self fun o ho => (hinert o ho).isCompound,
      leavesOfAll_eq_self fun o ho => (hmeasuring o ho).1.isCompound]
    exact gateAfterMeasure_append (fun o ho => hbody o (List.mem_filter.1 ho).1)
      fun o ho => (hmeasuring o (List.mem_filter.1 ho).1).2
  rw [Circuit.isDynamic, hfeedback]
  simp [hlane]

end Dynamic

theorem Deferral.Deferrable.isDynamic {c out : Circuit} (h : Deferrable c.ops)
    (hdone : c.deferMeasurements = .done out) : out.isDynamic = .ok false := by
  obtain ⟨body, stays, moved, hsplit, hops⟩ := splits_deferMeasurements hdone
  refine Dynamic.isDynamic_eq_false hops (fun o ho => ?_) fun o ho => hsplit.isMeasure_body ho
  exact h.inert_of_mem_resolveAll (List.mem_filter.1 (hsplit.body.mem_iff.1 ho)).1

namespace Circuit
open Operation Deferral
variable {c : Circuit}

/-- A qubit is measured and reset; the last word is in use, and so is the qubit with the
number of the count. -/
def lastWordUsed : Circuit :=
  { Circuit.withSize "last" 1 1 with
    numQubits := 3
    initial := .ofList [(⟨0⟩, ⟨0⟩), (⟨3⟩, ⟨3⟩), (⟨4294967295⟩, ⟨4294967295⟩)]
    output := .ofList [(⟨0⟩, ⟨0⟩), (⟨3⟩, ⟨3⟩), (⟨4294967295⟩, ⟨4294967295⟩)]
    ops := [measuring (⟨0⟩, ⟨0⟩), .effect ⟨.reset, [⟨0⟩], []⟩] }

theorem eliminateResets_lastWordUsed :
    lastWordUsed.flatten.eliminateResets =
      .failed (.circuit (.duplicateQubit ⟨3⟩ none)) { lastWordUsed with ops := [] } :=
  eliminateResets_of_last_word (by decide) (by decide) (by decide)

end Circuit
end QuantumCircuit
