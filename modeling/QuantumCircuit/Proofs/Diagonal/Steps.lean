import Mathlib.Data.List.TakeWhile
import QuantumCircuit.Proofs.Diagonal.Invariant

/-! The steps of the walk that sweeps diagonal gates, one for each kind of operation that a
lane may come back to. -/
namespace QuantumCircuit
namespace Diagonal
open Operation

variable {ops : List Operation} {w : Walk} {slot : Nat} {q : Qubit} {op op' : Operation} {g : Gate}

/-- An operation is swept as a whole when all its lanes have come back to it, and they go on
to their next slots. -/
theorem Inv.sweep (h : Inv ops w) {qs : List Qubit} (hqs : qs.Nodup) (hq : q ∈ qs)
    (hcur : w.ops[slot]? = some op) (hacts : ∀ r, op.actsOn r = true → r ∈ qs)
    (htop : ∀ r ∈ qs, w.lanes.top? r = some slot) (hphase : ∀ a ∈ op.leaves, isPhase a = true)
    (hleaves : op'.leaves = op.leaves.map (retag .i)) :
    Inv ops ⟨w.ops.set slot op', qs.foldl Lanes.pop w.lanes⟩ := by
  have hop : ops[slot]? = some op := (h.clean.top (htop q hq)).2.symm.trans hcur
  have hsweep : SweepsTo op op' op.leaves := ⟨[], rfl, hleaves⟩
  have hmono : ∀ j, Swept ops w.ops j → Swept ops (w.ops.set slot op') j :=
    fun j hj => hj.set hcur hop hsweep
  have hslot : Swept ops (w.ops.set slot op') slot :=
    ⟨op, op', hop, List.getElem?_set_self (List.getElem?_eq_some_iff.1 hcur).1, hphase, hleaves⟩
  refine h.write hcur hop hsweep (fun a ha => ⟨hphase a ha, fun p hp => ?_⟩) ?_
  · exact h.cleared (htop p (hacts p (actsOn_iff_leaf.2 ⟨a, ha, hp⟩)))
  · refine h.clean.advance hqs htop (fun r hr => ?_) (fun r j hd => hd.mono hmono)
      (fun r hgave => hgave.mono hmono) fun r _ _ _ => hslot
    obtain ⟨o, ho, hr⟩ := mem_slotsOn.1 hr.1
    cases ho.symm.trans hop
    exact hacts r hr

/-- Only the end of an operation on one qubit is swept, and the lane stops in it. -/
theorem Inv.sweepEnd (h : Inv ops w) (hq : w.lanes.top? q = some slot)
    (hcur : w.ops[slot]? = some op) (honly : ∀ r, op.actsOn r = true → r = q)
    (hstuck : Stuck ops q slot) {removed : List Operation} (hsweep : SweepsTo op op' removed)
    (hphase : ∀ a ∈ removed, isPhase a = true) :
    Inv ops ⟨w.ops.set slot op', w.lanes.clear q⟩ := by
  have hop : ops[slot]? = some op := (h.clean.top hq).2.symm.trans hcur
  have hmono : ∀ j, Swept ops w.ops j → Swept ops (w.ops.set slot op') j :=
    fun j hj => hj.set hcur hop hsweep
  refine h.write hcur hop hsweep (fun a ha => ⟨hphase a ha, fun p hp => ?_⟩) ?_
  · obtain ⟨kept, hleaves, -⟩ := hsweep
    rw [honly p (actsOn_iff_leaf.2 ⟨a, hleaves ▸ List.mem_append_right _ ha, hp⟩)]
    exact h.cleared hq
  · refine (h.giveUp hq hstuck).clean.set (fun r hr => ?_) (fun r j hd => hd.mono hmono)
      fun r hgave => hgave.mono hmono
    have hr' : slot ∈ (w.lanes.clear q).stack r := hr
    rw [Lanes.stack_clear] at hr'
    split at hr'
    · cases hr'
    · next hne =>
      obtain ⟨o, ho, hacts⟩ := mem_slotsOn.1 (h.clean.listed hr').1.1
      cases ho.symm.trans hop
      exact hne (honly r hacts)

section steps
variable {driveTo : Qubit → w.After → w.After} {u v : w.After} {b : Bool}

/-- The lane stops where the rule has no plan. -/
theorem idle_step (hu : Inv ops u.1) (hq : u.1.lanes.top? q = some slot)
    (hstuck : Stuck ops q slot) (hrun : Walk.runStages driveTo slot [] u = (v, b)) :
    Walk.Stepped (Inv ops) q slot {} u.1 v.1 b := by
  cases hrun
  exact .idle (hu.giveUp hq hstuck)

/-- An operation that goes as a whole. -/
theorem together_step (hnested : Walk.Nested (Inv ops) slot driveTo) (hu : Inv ops u.1)
    (hq : u.1.lanes.top? q = some slot) (hcur : u.1.ops[slot]? = some op)
    {used : OrderedSet Qubit} (hused : ∀ r, r ∈ used ↔ op.actsOn r = true)
    (hphase : ∀ a ∈ op.leaves, isPhase a = true)
    (hleaves : op'.leaves = op.leaves.map (retag .i))
    (hstuck : ∀ r, r ≠ q → op.actsOn r = true → Stuck ops q slot)
    (hrun : Walk.runStages driveTo slot (removeTogether q used op').stages u = (v, b)) :
    Walk.Stepped (Inv ops) q slot (removeTogether q used op') u.1 v.1 b := by
  refine .together hnested hu hq (used.nodup_erase_concat q) hrun (fun v' hv' hkeeps hback => ?_)
    fun v' hv' hkeeps htops => ?_
  · obtain ⟨r, hr, -⟩ := hback
    obtain ⟨hr, hne⟩ := OrderedSet.mem_erase.1 (OrderedSet.mem_toList.1 hr)
    exact hv'.giveUp (hkeeps.top hq) (hstuck r hne ((hused r).1 hr))
  · refine hv'.sweep (used.nodup_erase_concat q) (List.mem_append_right _ (List.mem_singleton_self q))
      ((hkeeps.ops slot (Nat.lt_succ_self slot)).trans hcur) (fun r hr => ?_) htops hphase hleaves
    by_cases hrq : r = q
    · exact List.mem_append_right _ (List.mem_singleton.2 hrq)
    · exact List.mem_append_left _ (OrderedSet.mem_erase.2 ⟨(hused r).2 hr, hrq⟩)

/-! ### Gates -/

/-- A lane with a negative control at the slot has not gone over it. -/
theorem Inv.le_of_negative (h : Inv ops w) (hcur : w.ops[slot]? = some op)
    (hop : ops[slot]? = some op) (hg : gateOf? op = some g) {r : Qubit}
    (hneg : .neg r ∈ g.controls) : ∀ s, w.lanes.top? r = some s → slot ≤ s := by
  intro s hs
  refine Nat.le_of_not_lt fun hlt => ?_
  obtain ⟨-, m, hends, -⟩ := (h.clean.top hs).1
  have hacts : op.actsOn r = true := by
    rw [actsOn_of_gateOf? hg, ← Gate.mem_operands]
    exact List.mem_append_left _ (List.mem_map_of_mem hneg)
  have hlast : (slotsOn r 0 ops).getLast? ≠ some slot := by
    intro hlast
    obtain ⟨hm, o, ho, hmeasure⟩ := hends
    cases hlast.symm.trans hm
    cases hop.symm.trans ho
    rcases gateOf?_eq_some_iff.1 hg with rfl | ⟨cond, rfl⟩ <;> cases hmeasure
  obtain ⟨o, -, ho, -, hphase, -⟩ := h.clean.behind hs hlt (mem_slotsOn.2 ⟨op, hop, hacts⟩) hlast
  cases hop.symm.trans ho
  have hpositive := (isPhase_iff hg).1 (hphase op (by simp [leaves_of_gateOf? hg]))
  cases hpositive.2 _ hneg

/-- The lane of a negative control is given up from another lane. -/
theorem Inv.halt (h : Inv ops w) (hq : w.lanes.top? q = some slot) (hop : ops[slot]? = some op)
    (hg : gateOf? op = some g) (hdiag : g.kind.isDiagonal = true) {r : Qubit}
    (hneg : .neg r ∈ g.controls) (hr : r ≠ q) :
    Inv ops { w with lanes := w.lanes.clear r } := by
  refine ⟨h.clean.clear fun _ => .halted ⟨slot, op, g, hop, hg, hdiag, hneg, q, hr.symm, ?_,
    h.cleared hq⟩, h.length, h.swept⟩
  obtain ⟨o, ho, hacts⟩ := mem_slotsOn.1 (h.clean.top hq).1.1
  cases hop.symm.trans ho
  rwa [← actsOn_of_gateOf? hg]

theorem stuck_of_gateOf? (hop : ops[slot]? = some op) (hg : gateOf? op = some g)
    (h : ¬ AloneOn q g) : Stuck ops q slot := by
  intro g' hg'
  cases hop.symm.trans hg'
  cases hg
  exact h

/-- The lane stops at a diagonal gate with a negative control, and so does the control's. -/
theorem halt_step (hw : Inv ops w) (hq : w.lanes.top? q = some slot)
    (hcur : w.ops[slot]? = some op) (hg : gateOf? op = some g)
    (hdiag : g.kind.isDiagonal = true) {r : Qubit} (hneg : .neg r ∈ g.controls) :
    Walk.Stepped (Inv ops) q slot { halt := [r] } w { w with lanes := w.lanes.clear r } true := by
  have hop : ops[slot]? = some op := (hw.clean.top hq).2.symm.trans hcur
  have hstuck : Stuck ops q slot := by
    refine stuck_of_gateOf? hop hg fun hlone => ?_
    rw [hlone.2.1] at hneg
    exact OrderedSet.not_mem_empty hneg
  refine ⟨Walk.keeps_clear (hw.le_of_negative hcur hop hg hneg), fun _ => ?_,
    fun _ _ hrs => by cases hrs⟩
  by_cases hr : r = q
  · -- The lane is given up at its own gate; the second time nothing is left of it.
    have hgave := hw.giveUp hq hstuck
    rw [← hr] at hgave ⊢
    exact ⟨hgave.clean.clear fun hne => absurd (by simp) hne, hgave.length, hgave.swept⟩
  · refine (hw.halt hq hop hg hdiag hneg hr).giveUp ?_ hstuck
    show (w.lanes.clear r).top? q = some slot
    rw [Lanes.top?, Lanes.stack_clear, if_neg (Ne.symm hr)]
    exact hq

theorem gate_step (hnested : Walk.Nested (Inv ops) slot driveTo) (hw : Inv ops w)
    (hq : w.lanes.top? q = some slot) (hcur : w.ops[slot]? = some op)
    (hg : gateOf? op = some g)
    (hu : u.1 = { w with lanes := (gatePlan q op g).halt.foldl Lanes.clear w.lanes })
    (hrun : Walk.runStages driveTo slot (gatePlan q op g).stages u = (v, b)) :
    Walk.Stepped (Inv ops) q slot (gatePlan q op g) w v.1 b := by
  have hop : ops[slot]? = some op := (hw.clean.top hq).2.symm.trans hcur
  by_cases hdiag : g.kind.isDiagonal = true
  · cases hfind : g.controls.toList.find? (!·.isPositive) with
    | some c =>
      have hplan : gatePlan q op g = { halt := [c.qubit] } := by
        rw [gatePlan, if_pos hdiag, hfind]
      have hneg : .neg c.qubit ∈ g.controls := by
        have hmem := List.mem_of_find?_eq_some hfind
        have hsign := List.find?_some hfind
        obtain ⟨p, polarity⟩ := c
        cases polarity with
        | negative => exact hmem
        | positive => cases hsign
      rw [hplan] at hu hrun ⊢
      cases hrun
      rw [hu]
      exact halt_step hw hq hcur hg hdiag hneg
    | none =>
      have hplan : gatePlan q op g = removeTogether q (.ofList g.operands) (op.retag .i) := by
        rw [gatePlan, if_pos hdiag, hfind]
      rw [hplan] at hu hrun ⊢
      refine .of_no_halt rfl hu fun hsame => ?_
      rw [← hsame] at hw hq hcur
      have hpositive : ∀ c ∈ g.controls, c.isPositive = true := by
        intro c hc
        simpa using List.find?_eq_none.1 hfind c hc
      refine together_step hnested hw hq hcur (fun r => ?_) (fun a ha => ?_) ?_
        (fun r hr hacts => ?_) hrun
      · rw [OrderedSet.mem_ofList, Gate.mem_operands, actsOn_of_gateOf? hg]
      · rw [leaves_of_gateOf? hg] at ha
        rw [List.mem_singleton.1 ha]
        exact (isPhase_iff hg).2 ⟨hdiag, hpositive⟩
      · rw [leaves_retag_of_gateOf? hg, leaves_of_gateOf? hg]
        rfl
      · refine stuck_of_gateOf? hop hg fun hlone => hr ?_
        rw [actsOn_of_gateOf? hg, Gate.actsOn, hlone.2.2, hlone.2.1] at hacts
        simpa [EmptyCollection.emptyCollection, OrderedSet.empty] using hacts
  · have hplan : gatePlan q op g = {} := by
      rw [gatePlan, if_neg hdiag]
    rw [hplan] at hu hrun ⊢
    refine .of_no_halt rfl hu fun hsame => ?_
    rw [← hsame] at hw hq
    exact idle_step hw hq (stuck_of_gateOf? hop hg fun hlone => hdiag hlone.1) hrun

/-! ### Compounds -/

variable {children : List Operation}

theorem stuck_of_not_gate (hop : ops[slot]? = some op) (h : op.isGate = false) :
    Stuck ops q slot := by
  intro g hg
  cases hop.symm.trans hg
  cases h

theorem isDiagonalGate_iff {a : Operation} :
    isDiagonalGate a = true ↔ ∃ g, a = .gate g ∧ g.kind.isDiagonal = true := by
  cases a <;> simp [isDiagonalGate]

theorem isPlainDiagonal_iff {a : Operation} :
    isPlainDiagonal a = true ↔ isDiagonalGate a = true ∧ isPhase a = true := by
  cases a <;> simp [isPlainDiagonal, isDiagonalGate, isPhase, gateOf?]

theorem leavesOfAll_gates {gates : List Operation} (h : ∀ a ∈ gates, isDiagonalGate a = true) :
    leavesOfAll gates = gates ∧
      leavesOfAll (gates.map (retag .i)) = gates.map (retag .i) := by
  constructor
  · refine leavesOfAll_eq_self fun a ha => ?_
    obtain ⟨g, rfl, -⟩ := isDiagonalGate_iff.1 (h a ha)
    rfl
  · refine leavesOfAll_eq_self (List.forall_mem_map.2 fun a ha => ?_)
    obtain ⟨g, rfl, -⟩ := isDiagonalGate_iff.1 (h a ha)
    rfl

/-- A compound on one qubit is cut in front of the diagonal gates at its end. -/
theorem exists_trailing_split (children : List Operation) :
    ∃ front back, children = front ++ back ∧ (∀ a ∈ back, isDiagonalGate a = true) ∧
      singleQubitPlan children =
        { stages := [⟨[], .compound (front ++ back.map (retag .i))⟩]
          advance := if front.isEmpty then some [] else none } := by
  have hcut : children = (children.reverse.dropWhile isDiagonalGate).reverse ++
      (children.reverse.takeWhile isDiagonalGate).reverse := by
    rw [← List.reverse_append, List.takeWhile_append_dropWhile, List.reverse_reverse]
  have hback : ∀ a ∈ (children.reverse.takeWhile isDiagonalGate).reverse,
      isDiagonalGate a = true := fun a ha => List.mem_takeWhile_imp (List.mem_reverse.1 ha)
  have hlength := congrArg List.length hcut
  rw [List.length_append, List.length_reverse, List.length_reverse] at hlength
  rw [singleQubitPlan]
  generalize children.reverse.dropWhile isDiagonalGate = kept at hcut hlength
  generalize children.reverse.takeWhile isDiagonalGate = run at hcut hlength hback
  have hfront : children.length - run.length = kept.reverse.length := by
    rw [List.length_reverse]
    omega
  refine ⟨kept.reverse, run.reverse, hcut, hback, ?_⟩
  rw [hfront, hcut, List.take_left, List.drop_left]

/-- A gate on one qubit has no controls. -/
theorem isPhase_of_single (hvalid : g.validate = .ok ()) (hdiag : g.kind.isDiagonal = true)
    (honly : ∀ r, g.actsOn r = true → r = q) : isPhase (.gate g) = true := by
  refine (isPhase_iff rfl).2 ⟨hdiag, fun c hc => ?_⟩
  have hmem : ∀ r ∈ g.operands, r = q := fun r hr => honly r (Gate.mem_operands.1 hr)
  obtain ⟨t, ht⟩ := List.exists_mem_of_ne_nil _ (Gate.targets_ne_nil_of_valid hvalid)
  have hcontrol : c.qubit ∈ g.controls.qubits := List.mem_map_of_mem hc
  have hnodup := (Gate.validate_eq_ok_iff.1 hvalid).2
  rw [Gate.operands, List.nodup_append] at hnodup
  refine absurd ?_ (hnodup.2.2 c.qubit hcontrol t ht)
  rw [hmem _ (List.mem_append_left _ hcontrol), hmem _ (List.mem_append_right _ ht)]

theorem single_step (hu : Inv ops u.1) (hq : u.1.lanes.top? q = some slot)
    (hcur : u.1.ops[slot]? = some (.compound children))
    (hvalid : ∀ child ∈ children, child.validate = .ok ())
    (honly : ∀ r, (Operation.compound children).actsOn r = true → r = q)
    (hrun : Walk.runStages driveTo slot (singleQubitPlan children).stages u = (v, b)) :
    Walk.Stepped (Inv ops) q slot (singleQubitPlan children) u.1 v.1 b := by
  have hop : ops[slot]? = some (.compound children) := (hu.clean.top hq).2.symm.trans hcur
  obtain ⟨front, back, rfl, hback, hplan⟩ := exists_trailing_split children
  have hphase : ∀ a ∈ back, isPhase a = true := by
    intro a ha
    obtain ⟨g, rfl, hdiag⟩ := isDiagonalGate_iff.1 (hback a ha)
    refine isPhase_of_single (q := q) (hvalid _ (List.mem_append_right _ ha)) hdiag fun r hr => ?_
    exact honly r (actsOn_compound.2 ⟨_, List.mem_append_right _ ha, hr⟩)
  obtain ⟨hleaves, hleaves'⟩ := leavesOfAll_gates hback
  have hsweep : SweepsTo (.compound (front ++ back)) (.compound (front ++ back.map (retag .i)))
      back := by
    refine ⟨leavesOfAll front, ?_, ?_⟩
    · rw [leaves_compound, leavesOfAll_append, hleaves]
    · rw [leaves_compound, leavesOfAll_append, hleaves']
  rw [hplan] at hrun ⊢
  cases hrun
  refine ⟨Walk.keeps_set _ _ _ _, fun _ => ?_, fun _ rs hrs => ?_⟩
  · exact hu.sweepEnd hq hcur honly (stuck_of_not_gate hop rfl) hsweep hphase
  · have hempty : front = [] ∧ rs = [] := by
      cases front with
      | nil =>
        cases hrs
        exact ⟨rfl, rfl⟩
      | cons a rest => cases hrs
    obtain ⟨rfl, rfl⟩ := hempty
    have htop : ∀ r ∈ [] ++ [q], u.1.lanes.top? r = some slot := by
      intro r hr
      rw [List.mem_singleton.1 hr]
      exact hq
    refine ⟨htop, List.nodup_singleton q, hu.sweep (List.nodup_singleton q)
      (List.mem_singleton_self q) hcur (fun r hr => List.mem_singleton.2 (honly r hr)) htop ?_ ?_⟩
    · rw [List.nil_append, leaves_compound, hleaves]
      exact hphase
    · rw [List.nil_append, List.nil_append, leaves_compound, leaves_compound, hleaves, hleaves']

theorem compound_step (hnested : Walk.Nested (Inv ops) slot driveTo) (hu : Inv ops u.1)
    (hq : u.1.lanes.top? q = some slot) (hcur : u.1.ops[slot]? = some (.compound children))
    (hvalid : ∀ child ∈ children, child.validate = .ok ())
    (hrun : Walk.runStages driveTo slot (compoundPlan q children).stages u = (v, b)) :
    Walk.Stepped (Inv ops) q slot (compoundPlan q children) u.1 v.1 b := by
  have hop : ops[slot]? = some (.compound children) := (hu.clean.top hq).2.symm.trans hcur
  have hstuck : Stuck ops q slot := stuck_of_not_gate hop rfl
  by_cases hsize : (Operation.compound children).qubits.size ≤ 1
  · have hplan : compoundPlan q children = singleQubitPlan children := by
      rw [compoundPlan]
      exact if_pos hsize
    rw [hplan] at hrun ⊢
    refine single_step hu hq hcur hvalid (fun r hr => ?_) hrun
    obtain ⟨o, ho, hacts⟩ := mem_slotsOn.1 (hu.clean.top hq).1.1
    cases hop.symm.trans ho
    by_contra hne
    have htwo : [r, q].length ≤ (Operation.compound children).qubits.size := by
      refine OrderedSet.length_le_size (by simpa using hne) fun p hp => mem_qubits.2 ?_
      rcases List.mem_pair.1 hp with rfl | rfl
      · exact hr
      · exact hacts
    exact absurd (Nat.le_trans htwo hsize) (by simp)
  · by_cases hall : children.all isPlainDiagonal = true
    · have hplan : compoundPlan q children = removeTogether q (Operation.compound children).qubits
          (.compound (children.map (retag .i))) := by
        rw [compoundPlan]
        exact (if_neg hsize).trans (if_pos hall)
      have hplain : ∀ a ∈ children, isDiagonalGate a = true ∧ isPhase a = true :=
        fun a ha => isPlainDiagonal_iff.1 (List.all_eq_true.1 hall a ha)
      obtain ⟨hleaves, hleaves'⟩ := leavesOfAll_gates fun a ha => (hplain a ha).1
      rw [hplan] at hrun ⊢
      refine together_step hnested hu hq hcur (fun r => mem_qubits) ?_ ?_ (fun _ _ _ => hstuck) hrun
      · rw [leaves_compound, hleaves]
        exact fun a ha => (hplain a ha).2
      · rw [leaves_compound, leaves_compound, hleaves, hleaves']
    · have hplan : compoundPlan q children = {} := by
        rw [compoundPlan]
        exact (if_neg hsize).trans (if_neg hall)
      rw [hplan] at hrun ⊢
      exact idle_step hu hq hstuck hrun

end steps

/-! ## The whole walk -/

theorem halt_compoundPlan (q : Qubit) (children : List Operation) :
    (compoundPlan q children).halt = [] := by
  rw [compoundPlan]
  split
  · rfl
  · split <;> rfl

theorem maintains (hvalid : ∀ op ∈ ops, op.validate = .ok ()) :
    Walk.Maintains rule (Inv ops) := by
  refine ⟨fun {w q slot} hw htop hcur => ?_,
    fun {w q slot op} hw htop hcur driveTo u v b hnested hu hrun => ?_⟩
  · obtain ⟨hlisted, hsame⟩ := hw.clean.top htop
    obtain ⟨op, hop, -⟩ := mem_slotsOn.1 hlisted.1
    cases hcur.symm.trans (hsame.trans hop)
  · have hop : ops[slot]? = some op := (hw.clean.top htop).2.symm.trans hcur
    cases hg : gateOf? op with
    | some g =>
      rw [rule_of_gateOf? hg] at hu hrun ⊢
      exact gate_step hnested hw htop hcur hg hu hrun
    | none =>
      cases op with
      | gate g => cases hg
      | effect e =>
        refine .of_no_halt rfl hu fun hsame => ?_
        rw [← hsame] at hw htop
        exact idle_step hw htop (stuck_of_not_gate hop rfl) hrun
      | conditional cond body =>
        obtain ⟨g, rfl, -⟩ := validate_conditional_iff.1 (hvalid _ (List.mem_of_getElem? hop))
        cases hg
      | compound children =>
        refine .of_no_halt (halt_compoundPlan q children) hu fun hsame => ?_
        rw [← hsame] at hw htop hcur
        exact compound_step hnested hw htop hcur
          (validate_compound_iff.1 (hvalid _ (List.mem_of_getElem? hop))) hrun

theorem inv_run (hvalid : ∀ op ∈ ops, op.validate = .ok ()) (hw : Inv ops w) :
    Inv ops (Walk.run rule w) :=
  (maintains hvalid).run hw

end Diagonal
end QuantumCircuit
