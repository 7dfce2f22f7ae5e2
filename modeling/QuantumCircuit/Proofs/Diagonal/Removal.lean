import Mathlib
import QuantumCircuit.Proofs.Diagonal.Steps
import QuantumCircuit.Proofs.Marks

/-! What goes in front of measurements, leaf by leaf. Besides identities only diagonal gates
without negative controls go, and between such a gate and the measurements at the end of its
qubits nothing is left on these. -/
namespace QuantumCircuit
namespace Diagonal
open Operation

variable {ops : List Operation} {w : Walk} {slot : ℕ} {op op' a : Operation}
  {removed : List Operation}

/-! ## Marks of a swept operation -/

theorem SweepsTo.forall₂_fades (h : SweepsTo op op' removed)
    (hphase : ∀ a ∈ removed, isPhase a = true) : List.Forall₂ Fades op.leaves op'.leaves := by
  obtain ⟨kept, hleaves, hleaves'⟩ := h
  rw [hleaves, hleaves']
  refine List.rel_append (List.forall₂_same.2 fun _ _ => .inl rfl) ?_
  rw [List.forall₂_map_right_iff]
  exact List.forall₂_same.2 fun a ha => .inr (isIdentity_retag (hphase a ha))

theorem SweepsTo.marks_eq (h : SweepsTo op op' removed)
    (hphase : ∀ a ∈ removed, isPhase a = true) :
    ∃ kept, op.leaves = kept ++ removed ∧
      marks op op' = kept.map (fun a => (a, a.isIdentity)) ++ removed.map (fun a => (a, true)) := by
  obtain ⟨kept, hleaves, hleaves'⟩ := h
  refine ⟨kept, hleaves, ?_⟩
  rw [marks, hleaves, hleaves', List.zipWith_append rfl, List.zipWith_self,
    List.zipWith_map_right, List.zipWith_self]
  refine congrArg _ (List.map_congr_left fun a ha => ?_)
  rw [isIdentity_retag (hphase a ha)]

/-- Behind a leaf that has been swept all leaves of its operation have been. -/
theorem SweepsTo.behind (h : SweepsTo op op' removed)
    (hphase : ∀ a ∈ removed, isPhase a = true) {bs cs : List (Operation × Bool)}
    (hcut : marks op op' = bs ++ (a, true) :: cs) (hid : a.isIdentity = false) :
    a ∈ removed ∧ ∀ b ∈ cs, b.2 = true := by
  obtain ⟨kept, -, hmarks⟩ := h.marks_eq hphase
  have hgone : ∀ b ∈ removed.map (fun a => (a, true)), b.1 ∈ removed ∧ b.2 = true := by
    rw [List.forall_mem_map]
    exact fun a ha => ⟨ha, rfl⟩
  rw [hmarks] at hcut
  rcases List.append_eq_append_iff.1 hcut with ⟨ds, -, hremoved⟩ | ⟨ds, hkept, hremoved⟩
  · rw [hremoved] at hgone
    exact ⟨(hgone (a, true) (by simp)).1, fun b hb => (hgone b (by simp [hb])).2⟩
  · cases ds with
    | nil =>
      rw [List.nil_append] at hremoved
      rw [← hremoved] at hgone
      exact ⟨(hgone (a, true) (by simp)).1, fun b hb => (hgone b (by simp [hb])).2⟩
    | cons d ds =>
      -- In the part that is kept only identities carry a mark.
      cases hremoved
      have hmem : (a, true) ∈ kept.map fun a => (a, a.isIdentity) := by
        rw [hkept]
        simp
      obtain ⟨a', -, heq⟩ := List.mem_map.1 hmem
      obtain ⟨rfl, htrue⟩ := Prod.mk.inj heq
      cases hid.symm.trans htrue

theorem Inv.fadeAll (h : Inv ops w) : FadeAll ops w.ops := by
  refine List.forall₂_iff_get.2 ⟨h.length.symm, fun i hi hi' => ?_⟩
  obtain ⟨removed, hsweep, hremoved⟩ :=
    h.swept (List.getElem?_eq_getElem hi) (List.getElem?_eq_getElem hi')
  exact hsweep.forall₂_fades fun a ha => (hremoved a ha).1

/-! ## The last operation on a qubit -/

/-- The marked leaves come to a measurement that stays and is the last operation on the
qubit, and all of them that act on the qubit before it go. -/
def MeasuredNext (ops : List Operation) (p : Qubit) (rest : List (Operation × Bool)) : Prop :=
  ∃ between m after, rest = between ++ (m, false) :: after ∧ m.isMeasure = true ∧
    (ops.filter (·.actsOn p)).getLast? = some m ∧
    (∀ b ∈ between, b.1.actsOn p = true → b.2 = true) ∧ ∀ b ∈ after, b.1.actsOn p = false

/-- Leaves in front that all go do not count. -/
theorem MeasuredNext.append {p : Qubit} {cs rest : List (Operation × Bool)}
    (h : MeasuredNext ops p rest) (hcs : ∀ b ∈ cs, b.2 = true) :
    MeasuredNext ops p (cs ++ rest) := by
  obtain ⟨between, m, after, rfl, hmeasure, hlast, hbetween, hafter⟩ := h
  refine ⟨cs ++ between, m, after, (List.append_assoc ..).symm, hmeasure, hlast,
    fun b hb hacts => ?_, hafter⟩
  rcases List.mem_append.1 hb with hb | hb
  · exact hcs b hb
  · exact hbetween b hb hacts

theorem getLast?_filter {q : Qubit} {m : ℕ} (hlast : (slotsOn q 0 ops).getLast? = some m)
    (hop : ops[m]? = some op) : (ops.filter (·.actsOn q)).getLast? = some op := by
  obtain ⟨o, ho, hacts⟩ := mem_slotsOn.1 (List.mem_of_getLast? hlast)
  cases hop.symm.trans ho
  obtain ⟨hlt, hget⟩ := List.getElem?_eq_some_iff.1 hop
  have hnone : (ops.drop (m + 1)).filter (·.actsOn q) = [] := by
    refine List.filter_eq_nil_iff.2 fun o ho hacts => ?_
    obtain ⟨k, hk⟩ := List.mem_iff_getElem?.1 ho
    rw [List.getElem?_drop] at hk
    have hle := le_of_getLast? hlast (mem_slotsOn.2 ⟨o, hk, hacts⟩)
    omega
  have hcut : ops = ops.take m ++ op :: ops.drop (m + 1) := by
    rw [← hget, ← List.drop_eq_getElem_cons hlt, List.take_append_drop]
  rw [hcut, List.filter_append, List.filter_cons_of_pos hacts, hnone, List.getLast?_concat]

theorem marks_of_isMeasure (h : Inv ops w) (hop : ops[slot]? = some op)
    (hop' : w.ops[slot]? = some op') (hmeasure : op.isMeasure = true) :
    marks op op' = [(op, false)] := by
  obtain ⟨removed, hsweep, hremoved⟩ := h.swept hop hop'
  have hleaf : op.leaves = [op] ∧ isPhase op = false ∧ op.isIdentity = false := by
    cases op with
    | effect e =>
      have hkind : e.kind = .measure := of_decide_eq_true hmeasure
      exact ⟨rfl, rfl, by simp [isIdentity, hkind]⟩
    | gate g => cases hmeasure
    | compound children => cases hmeasure
    | conditional cond body => cases hmeasure
  obtain ⟨kept, hleaves, hmarks⟩ := hsweep.marks_eq fun a ha => (hremoved a ha).1
  have hnil : removed = [] := by
    refine List.eq_nil_iff_forall_not_mem.2 fun a ha => ?_
    have hmem : a ∈ op.leaves := by
      rw [hleaves]
      exact List.mem_append_right _ ha
    rw [hleaf.1, List.mem_singleton] at hmem
    have hphase := (hremoved a ha).1
    rw [hmem, hleaf.2.1] at hphase
    cases hphase
  rw [hnil, List.append_nil, hleaf.1] at hleaves
  rw [hmarks, hnil, ← hleaves, List.map_nil, List.append_nil, List.map_singleton, hleaf.2.2]

/-- A leaf on a qubit stands at a slot of the lane, and it goes if the slot is swept. -/
theorem on_lane_of_marks {p : Qubit} {k : ℕ} {ms : List (Operation × Bool)} {b : Operation × Bool}
    (hms : (List.zipWith marks ops w.ops)[k]? = some ms) (hb : b ∈ ms)
    (hacts : b.1.actsOn p = true) :
    k ∈ slotsOn p 0 ops ∧ (Swept ops w.ops k → b.2 = true) := by
  obtain ⟨op, op', hop, hop', rfl⟩ := List.getElem?_zipWith_eq_some.1 hms
  obtain ⟨i, a', hi, hi', hmark⟩ := mem_marks hb
  have hmem := List.mem_of_getElem? hi
  refine ⟨mem_slotsOn.2 ⟨op, hop, actsOn_iff_leaf.2 ⟨b.1, hmem, hacts⟩⟩, ?_⟩
  rintro ⟨x, x', hx, hx', hphase, hmap⟩
  cases hop.symm.trans hx
  cases hop'.symm.trans hx'
  rw [hmap, List.getElem?_map, hi, Option.map_some] at hi'
  cases hi'
  rw [hmark]
  exact isIdentity_retag (hphase b.1 hmem)

/-- From a slot to the measurement at the end of a cleared lane all leaves on it go. -/
theorem Cleared.measuredNext (h : Inv ops w) {p : Qubit} (hcleared : Cleared ops w.ops p slot) :
    MeasuredNext ops p ((List.zipWith marks ops w.ops).drop (slot + 1)).flatten := by
  obtain ⟨m, ⟨hlast, op, hop, hmeasure⟩, hlt, hswept⟩ := hcleared
  have hltm : m < w.ops.length := by
    rw [h.length]
    exact (List.getElem?_eq_some_iff.1 hop).1
  have hmarks : (List.zipWith marks ops w.ops)[m]? = some [(op, false)] := by
    rw [← marks_of_isMeasure h hop (List.getElem?_eq_getElem hltm) hmeasure]
    exact List.getElem?_zipWith_eq_some.2 ⟨op, _, hop, List.getElem?_eq_getElem hltm, rfl⟩
  rw [drop_cut hmarks hlt, List.flatten_append, List.flatten_cons]
  refine ⟨_, op, _, rfl, hmeasure, getLast?_filter hlast hop, fun b hb hacts => ?_, fun b hb => ?_⟩
  · obtain ⟨k, ms, hk, hms, hb⟩ := mem_flatten_drop hb
    rw [List.getElem?_take] at hms
    split at hms
    · next hkm =>
      obtain ⟨hon, hgone⟩ := on_lane_of_marks hms hb hacts
      exact hgone (hswept k hon hk hkm)
    · cases hms
  · obtain ⟨k, ms, hk, hms, hb⟩ := mem_flatten_drop hb
    refine Bool.eq_false_iff.2 fun hacts => ?_
    exact absurd (le_of_getLast? hlast (on_lane_of_marks hms hb hacts).1) (by omega)

end Diagonal

namespace Circuit
open Operation Diagonal

/-- What is left is what the walk on the lanes that end in a measurement leaves, without
identities. -/
theorem run_of_removeDiagonalGates {c out : Circuit} (h : c.removeDiagonalGates = .done out) :
    ∃ lanes, Lanes.build c Diagonal.passName = .ok lanes ∧ out.ops =
      stripAll (Walk.run Diagonal.rule ⟨c.ops, ⟨lanes.rows.map (start c.ops)⟩⟩).ops := by
  rw [removeDiagonalGates, Walk.runOn] at h
  split at h
  · cases h
  · next lanes hlanes =>
    cases h
    exact ⟨lanes, hlanes, rfl⟩

/-- Every leaf of a circuit is kept as it is or goes. Identities go; besides them only
diagonal gates without negative controls do. On every qubit of such a gate the last operation
of the circuit is a measurement, and all leaves between the gate and it go as well. -/
theorem removeDiagonalGates_sound {c out : Circuit}
    (hvalid : ∀ op ∈ c.ops, op.validate = .ok ()) (h : c.removeDiagonalGates = .done out) :
    ∃ marked : List (Operation × Bool), marked.map (·.1) = leavesOfAll c.ops ∧
      leavesOfAll out.ops = (marked.filter (!·.2)).map (·.1) ∧
      (∀ m ∈ marked, m.1.isIdentity = true → m.2 = true) ∧
      ∀ before a rest, marked = before ++ (a, true) :: rest → a.isIdentity = false →
        isPhase a = true ∧ ∀ p, a.actsOn p = true → MeasuredNext c.ops p rest := by
  obtain ⟨lanes, hlanes, hout⟩ := run_of_removeDiagonalGates h
  have hinv := inv_run hvalid (inv_start hlanes)
  generalize Walk.run rule ⟨c.ops, ⟨lanes.rows.map (start c.ops)⟩⟩ = w at hout hinv
  refine ⟨(List.zipWith marks c.ops w.ops).flatten, flatten_marks hinv.fadeAll, ?_,
    fun m hm hid => ?_, fun before a rest hcut hid => ?_⟩
  · rw [hout, leavesOfAll_stripAll_marks hinv.fadeAll]
  · obtain ⟨ms, hms, hmem⟩ := List.mem_flatten.1 hm
    obtain ⟨i, op, op', hop, hop', rfl⟩ := exists_of_mem_zipWith_marks hms
    obtain ⟨removed, hsweep, hremoved⟩ := hinv.swept hop hop'
    obtain ⟨kept, -, hmarks⟩ := hsweep.marks_eq fun a ha => (hremoved a ha).1
    rw [hmarks] at hmem
    rcases List.mem_append.1 hmem with hmem | hmem
    · obtain ⟨a, -, rfl⟩ := List.mem_map.1 hmem
      exact hid
    · obtain ⟨a, -, rfl⟩ := List.mem_map.1 hmem
      rfl
  · obtain ⟨slot, bs, cs, hslot, rfl⟩ := flatten_cut hcut
    obtain ⟨op, op', hop, hop', hmarks⟩ := List.getElem?_zipWith_eq_some.1 hslot
    obtain ⟨removed, hsweep, hremoved⟩ := hinv.swept hop hop'
    obtain ⟨ha, hcs⟩ := hsweep.behind (fun a ha => (hremoved a ha).1) hmarks hid
    refine ⟨(hremoved a ha).1, fun p hp => ?_⟩
    exact (((hremoved a ha).2 p hp).measuredNext hinv).append hcs

/-- In front of the measurements stand a conditional gate and a compound of two diagonal
gates, a controlled gate on both qubits, and a compound that only ends in a diagonal gate. -/
def phasesInFront : Circuit :=
  { withSize "phasesInFront" 2 2 with
    ops := [.compound [.gate (.ofKind .h [⟨0⟩]), .gate (.ofKind .z [⟨0⟩])],
      .gate { Gate.ofKind .z [⟨1⟩] with controls := .ofList [.pos ⟨0⟩] },
      .compound [.gate (.ofKind .t [⟨1⟩]), .gate (.ofKind .s [⟨1⟩])],
      .conditional ⟨.single ⟨0⟩, 1⟩ (.gate (.ofKind .s [⟨0⟩])),
      .effect { kind := .measure, targets := [⟨0⟩], clbits := [⟨0⟩] },
      .effect { kind := .measure, targets := [⟨1⟩], clbits := [⟨1⟩] }] }

theorem removeDiagonalGates_sound_phasesInFront :
    ∃ (out : Circuit) (marked : List (Operation × Bool)),
      phasesInFront.removeDiagonalGates = .done out ∧
      out.ops = [.gate (.ofKind .h [⟨0⟩]),
        .effect { kind := .measure, targets := [⟨0⟩], clbits := [⟨0⟩] },
        .effect { kind := .measure, targets := [⟨1⟩], clbits := [⟨1⟩] }] ∧
      marked.map (·.1) = leavesOfAll phasesInFront.ops ∧
      leavesOfAll out.ops = (marked.filter (!·.2)).map (·.1) ∧
      ∀ before a rest, marked = before ++ (a, true) :: rest → a.isIdentity = false →
        isPhase a = true ∧ ∀ p, a.actsOn p = true → MeasuredNext phasesInFront.ops p rest := by
  have hvalid : ∀ op ∈ phasesInFront.ops, op.validate = .ok () := by
    decide
  have hdone : phasesInFront.removeDiagonalGates = .done { phasesInFront with
      ops := [.gate (.ofKind .h [⟨0⟩]),
        .effect { kind := .measure, targets := [⟨0⟩], clbits := [⟨0⟩] },
        .effect { kind := .measure, targets := [⟨1⟩], clbits := [⟨1⟩] }] } := by
    cbv
  obtain ⟨marked, hall, hkept, -, hgone⟩ := removeDiagonalGates_sound hvalid hdone
  exact ⟨_, marked, hdone, rfl, hall, hkept, hgone⟩

end Circuit
end QuantumCircuit
