import QuantumCircuit.Proofs.Deferral.Sources
import QuantumCircuit.Proofs.Ordered

/-! The measurements that a deferral keeps. There is one entry for each qubit that has been
measured, so a measurement takes the place of an earlier one of the same qubit; only a
measurement that has come to be the last operation is left beside it. What is lost is a
result that the same qubit gave to another bit earlier. -/
namespace QuantumCircuit
namespace Deferral
open Operation

section splits
variable {ops body : List Operation} {stays moved ms : List (Qubit × Clbit)} {q : Qubit} {b : Clbit}

theorem Splits.measuredOfAll_output (h : Splits ops body stays moved) :
    measuredOfAll (body ++ ms.map measuring) = ms := by
  have hbody : measuredOfAll body = [] :=
    List.flatMap_eq_nil_iff.2 fun o ho => measured_of_not_isMeasure (h.isMeasure_body ho)
  rw [measuredOfAll_append, hbody, measuredOfAll_map_measuring, List.nil_append]

/-- The last measurement of a qubit stays, or it is the last of those that are moved. -/
theorem Splits.last_measured (h : Splits ops body stays moved)
    (hlast : lastValue? q (measuredOfAll ops) = some b) :
    lastValue? q moved = some b ∨ (q, b) ∈ stays := by
  rw [h.measured, lastValue?_append] at hlast
  rcases Option.or_eq_some_iff.1 hlast with hstays | ⟨-, hmoved⟩
  · exact .inr (mem_of_lastValue? hstays)
  · exact .inl hmoved

end splits

/-- Of the measurements of a circuit all but at most one are moved to the end, and of those
that are moved one a qubit is kept, the last. So a deferral adds no measurement, keeps the
last one of every qubit, and keeps all of them if no qubit is measured into two bits. -/
theorem measured_deferMeasurements {c out : Circuit} (hdone : c.deferMeasurements = .done out) :
    (∃ moved stays, measuredOfAll c.ops = moved ++ stays ∧ stays.length ≤ 1 ∧
        ∀ q b, (q, b) ∈ measuredOfAll out.ops ↔ lastValue? q moved = some b ∨ (q, b) ∈ stays) ∧
      (∀ q b, (q, b) ∈ measuredOfAll out.ops → (q, b) ∈ measuredOfAll c.ops) ∧
      (∀ q b, lastValue? q (measuredOfAll c.ops) = some b → (q, b) ∈ measuredOfAll out.ops) ∧
      ((∀ q b b', (q, b) ∈ measuredOfAll c.ops → (q, b') ∈ measuredOfAll c.ops → b = b') →
        ∀ q b, (q, b) ∈ measuredOfAll c.ops → (q, b) ∈ measuredOfAll out.ops) := by
  obtain ⟨body, stays, moved, hsplit, hops⟩ := splits_deferMeasurements hdone
  have hiff : ∀ q b, (q, b) ∈ measuredOfAll out.ops ↔
      lastValue? q moved = some b ∨ (q, b) ∈ stays := by
    intro q b
    rw [hops, hsplit.measuredOfAll_output, List.mem_append, OrderedMap.mem_entries,
      OrderedMap.get?_ofList, or_comm]
  have hlast : ∀ q b, lastValue? q (measuredOfAll c.ops) = some b →
      (q, b) ∈ measuredOfAll out.ops :=
    fun q b h => (hiff q b).2 (hsplit.last_measured h)
  refine ⟨⟨moved, stays, hsplit.measured, hsplit.atMostOne, hiff⟩, ?_, hlast, ?_⟩
  · intro q b h
    rw [hsplit.measured, List.mem_append]
    exact ((hiff q b).1 h).imp_left mem_of_lastValue?
  · intro hone q b h
    obtain ⟨b', hb'⟩ := exists_lastValue? h
    obtain rfl := hone q b b' h (mem_of_lastValue? hb')
    exact hlast q b hb'

/-- A qubit is measured into one bit, and later another one into another bit, with the
first measured again at the end. -/
def checkpoints : Circuit :=
  { Circuit.withSize "checkpoints" 2 2 with
    ops := [measuring (⟨1⟩, ⟨0⟩), .gate (.ofKind .h [⟨1⟩]), measuring (⟨0⟩, ⟨1⟩),
      .gate (.ofKind .x [⟨0⟩]), measuring (⟨1⟩, ⟨0⟩)] }

theorem measured_deferMeasurements_checkpoints :
    ∃ out, checkpoints.deferMeasurements = .done out ∧
      out.ops = [.gate (.ofKind .h [⟨1⟩]), .gate (.ofKind .x [⟨0⟩]), measuring (⟨1⟩, ⟨0⟩),
        measuring (⟨0⟩, ⟨1⟩), measuring (⟨1⟩, ⟨0⟩)] ∧
      ∀ q b, (q, b) ∈ measuredOfAll checkpoints.ops → (q, b) ∈ measuredOfAll out.ops := by
  have hone : ∀ m ∈ measuredOfAll checkpoints.ops, ∀ n ∈ measuredOfAll checkpoints.ops,
      m.1 = n.1 → m.2 = n.2 := by
    decide
  refine ⟨_, by cbv, by cbv, ?_⟩
  have hkept := measured_deferMeasurements (c := checkpoints) (by cbv)
  exact hkept.2.2.2 fun q b b' h h' => hone _ h _ h' rfl

/-- A qubit is measured into two bits. -/
def twice : Circuit :=
  { Circuit.withSize "twice" 2 2 with
    ops := [measuring (⟨0⟩, ⟨0⟩), measuring (⟨0⟩, ⟨1⟩), .gate (.ofKind .h [⟨1⟩])] }

/-- A qubit that is measured into a second bit no longer gives its value to the first. -/
theorem deferMeasurements_drops_first_bit :
    (⟨0⟩, ⟨0⟩) ∈ measuredOfAll twice.ops ∧
      ∃ out, twice.deferMeasurements = .done out ∧ measuredOfAll out.ops = [(⟨0⟩, ⟨1⟩)] :=
  ⟨by decide, _, by cbv, by cbv⟩

end Deferral
end QuantumCircuit
