import QuantumCircuit.Proofs.Deferral.Sound
import QuantumCircuit.Proofs.Deferral.Sources

/-! The control that takes the place of a condition. It goes beside the controls that the gate
has already: if one of them asks the measured qubit for the other value, the gate comes to use
the qubit twice and no longer passes the check. And it has two polarities where a condition has
a number: a gate that waits for anything but 1 is made to wait for 0. -/
namespace QuantumCircuit

namespace Control

/-- The control on the same qubit that asks for the other value. -/
def opposite (k : Control) : Control := if k.isPositive then .neg k.qubit else .pos k.qubit

variable {k l : Control}

theorem qubit_opposite (k : Control) : k.opposite.qubit = k.qubit := by
  rw [opposite]
  split <;> rfl

theorem isPositive_opposite (k : Control) : k.opposite.isPositive = !k.isPositive := by
  rw [opposite]
  split
  · next h => rw [h]; rfl
  · next h => rw [Bool.eq_false_iff.2 h]; rfl

theorem ext_iff_isPositive : k = l ↔ k.qubit = l.qubit ∧ k.isPositive = l.isPositive := by
  obtain ⟨q, p⟩ := k
  obtain ⟨r, p'⟩ := l
  cases p <;> cases p' <;> simp [isPositive]

theorem ne_opposite (k : Control) : k ≠ k.opposite := by
  rw [Ne, ext_iff_isPositive, isPositive_opposite]
  simp

theorem eq_or_eq_opposite (h : k.qubit = l.qubit) : k = l ∨ k = l.opposite := by
  rw [ext_iff_isPositive, ext_iff_isPositive, qubit_opposite, isPositive_opposite]
  cases hk : k.isPositive <;> cases hl : l.isPositive <;> simp [h]

/-- A control and its opposite do not both hold. -/
theorem holds_opposite (v : Qubit → Bool) (k : Control) : k.opposite.holds v = !k.holds v := by
  rw [holds, holds, qubit_opposite, isPositive_opposite]
  cases v k.qubit <;> cases k.isPositive <;> rfl

end Control

/-- The condition that a control can stand for: anything but 1 is taken for 0. -/
def Condition.rounded (cond : Condition) : Condition :=
  { cond with value := if cond.value = 1 then 1 else 0 }

/-- A set of controls on different qubits takes up one more unless the opposite is in it. -/
theorem Controls.nodup_qubits_insert_iff {cs : Controls} {k : Control} (h : cs.qubits.Nodup) :
    (qubits (cs.insert k)).Nodup ↔ k.opposite ∉ cs := by
  constructor
  · intro hnodup hmem
    have hk : k ∈ (cs.insert k).toList := OrderedSet.mem_insert.2 (.inl rfl)
    have hk' : k.opposite ∈ (cs.insert k).toList := OrderedSet.mem_insert.2 (.inr hmem)
    exact k.ne_opposite (List.inj_on_of_nodup_map hnodup hk hk' k.qubit_opposite.symm)
  · intro hnot
    have hnew : ∀ l ∈ cs, l.qubit = k.qubit → l = k := by
      intro l hl hlk
      apply (Control.eq_or_eq_opposite hlk).resolve_right
      rintro rfl
      exact hnot hl
    apply (cs.insert k).nodup.map_on
    intro x hx y hy hxy
    rcases OrderedSet.mem_insert.1 hx with hxk | hxs <;>
      rcases OrderedSet.mem_insert.1 hy with hyk | hys
    · rw [hxk, hyk]
    · rw [hxk, hnew y hys (by rw [← hxy, hxk])]
    · rw [hyk, hnew x hxs (by rw [hxy, hyk])]
    · exact List.inj_on_of_nodup_map h hxs hys hxy

namespace Gate
variable {g : Gate} {k l : Control}

/-- No gate that passes the check has a control on one of its targets. -/
theorem not_mem_targets_of_valid (h : g.validate = .ok ()) (hk : k ∈ g.controls) :
    k.qubit ∉ g.targets := by
  intro hmem
  have hnodup := (validate_eq_ok_iff.1 h).2
  exact List.disjoint_of_nodup_append hnodup (List.mem_map_of_mem hk) hmem

/-- Nor two controls on one qubit. -/
theorem eq_of_valid (h : g.validate = .ok ()) (hk : k ∈ g.controls) (hl : l ∈ g.controls)
    (hkl : k.qubit = l.qubit) : k = l :=
  List.inj_on_of_nodup_map (validate_eq_ok_iff.1 h).2.of_append_left hk hl hkl

end Gate

namespace Deferral
open Operation

theorem mem_controls_withControl {g : Gate} {k l : Control} :
    l ∈ (withControl g k).controls ↔ l = k ∨ l ∈ g.controls :=
  OrderedSet.mem_insert

/-- A gate takes up one more control unless that is on a target, or opposite to one that the
gate has. -/
theorem validate_withControl_iff {g : Gate} {k : Control} (hg : g.validate = .ok ()) :
    (withControl g k).validate = .ok () ↔ k.qubit ∉ g.targets ∧ k.opposite ∉ g.controls := by
  obtain ⟨hcount, hnodup⟩ := Gate.validate_eq_ok_iff.1 hg
  obtain ⟨hcontrols, htargets, hapart⟩ := List.nodup_append'.1 hnodup
  rw [← Controls.nodup_qubits_insert_iff hcontrols]
  constructor
  · intro hnew
    have hk : k.qubit ∉ (withControl g k).targets :=
      Gate.not_mem_targets_of_valid hnew (mem_controls_withControl.2 (.inl rfl))
    exact ⟨hk, (Gate.validate_eq_ok_iff.1 hnew).2.of_append_left⟩
  · rintro ⟨hk, hinsert⟩
    refine Gate.validate_eq_ok_iff.2 ⟨hcount, List.nodup_append'.2 ⟨hinsert, htargets, ?_⟩⟩
    intro r hr hmem
    rcases Controls.mem_qubits_insert.1 hr with rfl | hr
    · exact hk hmem
    · exact hapart hr hmem

/-! ## Where the operations come from -/

/-- An operation of the list, or a conditional gate of the list under a control that is not on
one of its targets. -/
def Traced (ops : List Operation) (o : Operation) : Prop :=
  o ∈ ops ∨ ∃ q cond g, .conditional cond (.gate g) ∈ ops ∧ q ∉ g.targets ∧
    o = .gate (withControl g (controlFor q cond))

section traced
variable {ops mid : List Operation} {o : Operation}

theorem Traced.trans (h : Traced mid o) (hmid : ∀ x ∈ mid, Traced ops x) : Traced ops o := by
  rcases h with ho | ⟨q, cond, g, hmem, hq, rfl⟩
  · exact hmid o ho
  · rcases hmid _ hmem with hmem | ⟨_, _, _, _, _, heq⟩
    · exact .inr ⟨q, cond, g, hmem, hq, rfl⟩
    · cases heq

/-- If the operations of the list pass the check, no gate that comes from them is controlled
by one of its targets. -/
theorem Traced.not_mem_targets (hvalid : ∀ op ∈ ops, op.validate = .ok ()) {g : Gate}
    (h : Traced ops (.gate g)) {k : Control} (hk : k ∈ g.controls) : k.qubit ∉ g.targets := by
  rcases h with hmem | ⟨q, cond, body, hmem, hq, heq⟩
  · exact Gate.not_mem_targets_of_valid (hvalid _ hmem) hk
  · cases heq
    obtain ⟨_, heq, hbody⟩ := validate_conditional_iff.1 (hvalid _ hmem)
    cases heq
    show k.qubit ∉ body.targets
    rcases mem_controls_withControl.1 hk with rfl | hk
    · rw [qubit_controlFor]
      exact hq
    · exact Gate.not_mem_targets_of_valid hbody hk

theorem Scans.traced {q : Qubit} {b : Clbit} {front passed rest out : List Operation}
    {ms : List Move} (h : Scans q b front passed rest ms out) :
    ∀ o ∈ out, Traced (front ++ (passed ++ rest)) o := by
  induction h with
  | finish front passed =>
    intro o ho
    exact .inl (by simpa using ho)
  | stop => exact fun o ho => .inl ho
  | @keepUp front passed later rest out first op ms _ hcut _ ih =>
    rw [keepUp_eq hcut]
    exact ih
  | @fallBehind front passed rest out op ms _ _ ih =>
    rw [List.append_cons passed]
    exact ih
  | @replace front passed rest out op g ms hop _ ih =>
    intro o ho
    apply (ih o ho).trans
    intro x hx
    obtain ⟨cond, body, rfl, -, hq, rfl⟩ := inspect_eq_replace hop
    simp only [List.nil_append, List.mem_append, List.mem_singleton] at hx
    rcases hx with (hx | rfl) | hx | hx
    · exact .inl (by simp [hx])
    · exact .inr ⟨q, cond, body, by simp, hq, rfl⟩
    · exact .inl (by simp [hx])
    · exact .inl (by simp [hx])

theorem Runs.traced {before rest : List Operation} {d : OrderedMap Qubit Clbit} {s : State}
    (h : Runs before rest d s) : ∀ o ∈ s.ops, Traced (before ++ rest) o := by
  induction h with
  | finish before d => exact fun o ho => .inl (by simpa using ho)
  | @pass before rest op d s _ _ ih =>
    rw [List.append_cons]
    exact ih
  | last => exact fun o ho => .inl ho
  | @defer before rest rest' op d s q b _ _ hscan _ ih =>
    have hless : ∀ x ∈ before ++ rest, Traced (before ++ op :: rest) x := by
      intro x hx
      rcases List.mem_append.1 hx with hx | hx
      · exact .inl (List.mem_append_left _ hx)
      · exact .inl (List.mem_append_right _ (List.mem_cons_of_mem _ hx))
    intro o ho
    apply (ih o ho).trans
    intro x hx
    exact ((scans_of_defer hscan).traced x hx).trans hless

end traced

/-! ## The check after a deferral -/

/-- The gate is in the list under the condition, and of the qubits measured into its bit before
it goes to this one. -/
def Resolves (ops : List Operation) (cond : Condition) (g : Gate) (q : Qubit) : Prop :=
  ∃ before after, ops = before ++ .conditional cond (.gate g) :: after ∧
    firstUnrepeated? (writers cond.register.start (measuredOfAll before)) = some q

theorem mem_of_firstUnrepeated? {qs : List Qubit} {q : Qubit} (h : firstUnrepeated? qs = some q) :
    q ∈ qs := by
  induction qs with
  | nil => cases h
  | cons r rest ih =>
    rw [firstUnrepeated?] at h
    split at h
    · exact List.mem_cons_of_mem _ (ih h)
    · cases h
      exact List.mem_cons_self

theorem Resolves.measured {ops : List Operation} {cond : Condition} {g : Gate} {q : Qubit}
    (h : Resolves ops cond g q) : (q, cond.register.start) ∈ measuredOfAll ops := by
  obtain ⟨before, after, hcut, hq⟩ := h
  rw [hcut, measuredOfAll_append]
  exact List.mem_append_left _ (mem_writers.1 (mem_of_firstUnrepeated? hq))

section deferral
variable {c out : Circuit} {g : Gate} {q : Qubit} {cond : Condition}

theorem Resolves.mem (h : Resolves c.ops cond g q) (hdone : c.deferMeasurements = .done out) :
    .gate (withControl g (controlFor q cond)) ∈ out.ops := by
  obtain ⟨before, after, hcut, hq⟩ := h
  obtain ⟨body, stays, moved, hsplit, hops⟩ := splits_deferMeasurements hdone
  rw [hops]
  refine List.mem_append_left _ (hsplit.body.mem_iff.2 (List.mem_filter.2 ⟨?_, rfl⟩))
  rw [hcut, resolveAll_append, resolveAll, List.nil_append, resolve, hq]
  simp

theorem Resolves.valid (h : Resolves c.ops cond g q)
    (hvalid : ∀ op ∈ c.ops, op.validate = .ok ()) : g.validate = .ok () := by
  obtain ⟨before, after, hcut, -⟩ := h
  obtain ⟨_, heq, hg⟩ := validate_conditional_iff.1
    (hvalid (.conditional cond (.gate g)) (by simp [hcut]))
  cases heq
  exact hg

/-- What a deferral leaves are operations of the circuit, rewired gates and measurements. -/
theorem mem_deferMeasurements (hdone : c.deferMeasurements = .done out) {o : Operation}
    (ho : o ∈ out.ops) : o ∈ c.ops ∨ (∃ m, o = measuring m) ∨
      ∃ cond g q, Resolves c.ops cond g q ∧ o = .gate (withControl g (controlFor q cond)) := by
  obtain ⟨body, stays, moved, hsplit, hops⟩ := splits_deferMeasurements hdone
  rw [hops, List.mem_append] at ho
  rcases ho with hbody | hmeasure
  · have hmem := (List.mem_filter.1 (hsplit.body.mem_iff.1 hbody)).1
    obtain ⟨before, op, after, hcut, rfl⟩ := mem_resolveAll hmem
    have hop : op ∈ c.ops := by simp [hcut]
    unfold resolve
    split
    · next cond g =>
      split
      · next q hq => exact .inr (.inr ⟨cond, g, q, ⟨before, after, hcut, hq⟩, rfl⟩)
      · exact .inl hop
    · exact .inl hop
  · obtain ⟨m, -, rfl⟩ := List.mem_map.1 hmeasure
    exact .inr (.inl ⟨m, rfl⟩)

theorem not_mem_targets_deferMeasurements (hvalid : ∀ op ∈ c.ops, op.validate = .ok ())
    (hdone : c.deferMeasurements = .done out) {g' : Gate} (hg : .gate g' ∈ out.ops) {k : Control}
    (hk : k ∈ g'.controls) : k.qubit ∉ g'.targets := by
  obtain ⟨s, hrun, hops⟩ := deferMeasurements_eq_done hdone
  rw [hops, List.mem_append] at hg
  rcases hg with hg | hg
  · exact (hrun.traced _ hg).not_mem_targets hvalid hk
  · obtain ⟨m, -, hm⟩ := List.mem_map.1 hg
    cases hm

/-- The measured qubit is not a target of a gate that is rewired to it. -/
theorem Resolves.not_mem_targets (h : Resolves c.ops cond g q)
    (hvalid : ∀ op ∈ c.ops, op.validate = .ok ()) (hdone : c.deferMeasurements = .done out) :
    q ∉ g.targets := by
  have hnot := not_mem_targets_deferMeasurements hvalid hdone (h.mem hdone)
    (mem_controls_withControl.2 (.inl rfl))
  rwa [qubit_controlFor] at hnot

theorem Resolves.validate_iff (h : Resolves c.ops cond g q)
    (hvalid : ∀ op ∈ c.ops, op.validate = .ok ()) (hdone : c.deferMeasurements = .done out) :
    (withControl g (controlFor q cond)).validate = .ok () ↔
      (controlFor q cond).opposite ∉ g.controls := by
  rw [validate_withControl_iff (h.valid hvalid), qubit_controlFor]
  exact and_iff_right (h.not_mem_targets hvalid hdone)

/-- After a deferral the operations pass the check, apart from gates that had a control for the
other value on the measured qubit. So all of them pass exactly if no gate has one. Targets and
controls stay apart in any case. -/
theorem validate_deferMeasurements (hvalid : ∀ op ∈ c.ops, op.validate = .ok ())
    (hdone : c.deferMeasurements = .done out) :
    (∀ o ∈ out.ops, o.validate = .ok () ∨
        ∃ cond g q, Resolves c.ops cond g q ∧ o = .gate (withControl g (controlFor q cond)) ∧
          (controlFor q cond).opposite ∈ g.controls) ∧
      ((∀ o ∈ out.ops, o.validate = .ok ()) ↔
        ∀ cond g q, Resolves c.ops cond g q → (controlFor q cond).opposite ∉ g.controls) ∧
      ∀ g, .gate g ∈ out.ops → ∀ k ∈ g.controls, k.qubit ∉ g.targets := by
  have hone : ∀ o ∈ out.ops, o.validate = .ok () ∨
      ∃ cond g q, Resolves c.ops cond g q ∧ o = .gate (withControl g (controlFor q cond)) ∧
        (controlFor q cond).opposite ∈ g.controls := by
    intro o ho
    rcases mem_deferMeasurements hdone ho with hmem | ⟨m, rfl⟩ | ⟨cond, g, q, hres, rfl⟩
    · exact .inl (hvalid o hmem)
    · exact .inl rfl
    · by_cases hopp : (controlFor q cond).opposite ∈ g.controls
      · exact .inr ⟨cond, g, q, hres, rfl, hopp⟩
      · exact .inl ((hres.validate_iff hvalid hdone).2 hopp)
  refine ⟨hone, ⟨fun hall cond g q hres => ?_, fun hnone o ho => ?_⟩, fun g hg k hk => ?_⟩
  · exact (hres.validate_iff hvalid hdone).1 (hall _ (hres.mem hdone))
  · apply (hone o ho).resolve_right
    rintro ⟨cond, g, q, hres, -, hopp⟩
    exact hnone cond g q hres hopp
  · exact not_mem_targets_deferMeasurements hvalid hdone hg hk

end deferral

/-- Two gates that wait for a result and also ask the measured qubit itself for that value. -/
def echoes : Circuit :=
  { Circuit.withSize "echoes" 3 1 with
    ops := [measuring (⟨0⟩, ⟨0⟩),
      .conditional ⟨.single ⟨0⟩, 1⟩ (.gate (.controlled .x [.pos ⟨0⟩] [⟨1⟩])),
      .conditional ⟨.single ⟨0⟩, 0⟩ (.gate (.controlled .x [.neg ⟨0⟩, .pos ⟨1⟩] [⟨2⟩])),
      .gate (.ofKind .h [⟨0⟩])] }

theorem validate_deferMeasurements_echoes :
    (∀ op ∈ echoes.ops, op.validate = .ok ()) ∧ ∃ out, echoes.deferMeasurements = .done out ∧
      out.ops = [.gate (.controlled .x [.pos ⟨0⟩] [⟨1⟩]),
        .gate (.controlled .x [.neg ⟨0⟩, .pos ⟨1⟩] [⟨2⟩]), .gate (.ofKind .h [⟨0⟩]),
        measuring (⟨0⟩, ⟨0⟩)] ∧
      ∀ o ∈ out.ops, o.validate = .ok () := by
  have hvalid : ∀ op ∈ echoes.ops, op.validate = .ok () := validateAll_eq_ok_iff.1 rfl
  have hmeasured : ∀ m ∈ measuredOfAll echoes.ops, m = (⟨0⟩, ⟨0⟩) := by decide
  refine ⟨hvalid, _, by cbv, by cbv, ?_⟩
  apply (validate_deferMeasurements (c := echoes) hvalid (by cbv)).2.1.2
  intro cond g q hres
  have hq := hmeasured _ hres.measured
  obtain ⟨before, after, hcut, -⟩ := hres
  have hmem : .conditional cond (.gate g) ∈ echoes.ops := by simp [hcut]
  simp only [echoes, measuring, List.mem_cons, reduceCtorEq, Operation.conditional.injEq,
    Operation.gate.injEq, List.not_mem_nil, or_false, false_or] at hmem
  rcases hmem with ⟨rfl, rfl⟩ | ⟨rfl, rfl⟩ <;> cases hq <;> decide

/-- A gate that waits for the result 1 and asks the measured qubit for 0. -/
def opposed : Circuit :=
  { Circuit.withSize "opposed" 2 1 with
    ops := [measuring (⟨0⟩, ⟨0⟩),
      .conditional ⟨.single ⟨0⟩, 1⟩ (.gate (.controlled .x [.neg ⟨0⟩] [⟨1⟩]))] }

/-- Under the new control the gate uses the measured qubit twice. -/
theorem deferMeasurements_opposed_controls :
    (∀ op ∈ opposed.ops, op.validate = .ok ()) ∧ ∃ out, opposed.deferMeasurements = .done out ∧
      out.ops = [.gate (.controlled .x [.neg ⟨0⟩, .pos ⟨0⟩] [⟨1⟩]), measuring (⟨0⟩, ⟨0⟩)] ∧
      (Operation.gate (.controlled .x [.neg ⟨0⟩, .pos ⟨0⟩] [⟨1⟩])).validate =
        .error (.duplicateQubit ⟨0⟩ (some .x)) :=
  ⟨validateAll_eq_ok_iff.1 rfl, _, by cbv, by cbv, by cbv⟩

/-! ## When the new control holds -/

section condition
variable {b : Clbit} {q : Qubit} {cond : Condition} {g : Gate} {s : BitState}

theorem controlFor_rounded (q : Qubit) (cond : Condition) :
    controlFor q cond.rounded = controlFor q cond := by
  by_cases h : cond.value = 1 <;> simp [controlFor, Condition.rounded, h]

theorem rounded_eq (h : cond.value = 0 ∨ cond.value = 1) : cond.rounded = cond := by
  obtain ⟨register, value⟩ := cond
  rcases h with rfl | rfl <;> rfl

/-- A gate with a control and its opposite never acts. -/
theorem permute_withControl_opposite {k : Control} (h : k.opposite ∈ g.controls)
    (v : Qubit → Bool) : (withControl g k).permute v = v := by
  rw [permute_withControl]
  split
  · next hk =>
    have hoff : g.enabled v = false := by
      rw [Gate.enabled, List.all_eq_false]
      exact ⟨k.opposite, h, by simp [Control.holds_opposite, hk]⟩
    rw [Gate.permute, hoff]
    rfl
  · rfl

/-- Where the bit holds the value of the measured qubit, the rewired gate acts as under the
rounded condition. -/
theorem exec_withControl (hbit : cond.register = .single b) (hs : s.clbits b = s.qubits q) :
    (Operation.gate (withControl g (controlFor q cond))).exec s =
      (Operation.conditional cond.rounded (.gate g)).exec s := by
  have hvalue : cond.rounded.value = 0 ∨ cond.rounded.value = 1 := by
    by_cases h : cond.value = 1 <;> simp [Condition.rounded, h]
  have hholds : cond.rounded.holds s.clbits = (controlFor q cond.rounded).holds s.qubits :=
    holds_controlFor hbit hvalue hs
  rw [controlFor_rounded] at hholds
  rw [exec, exec, exec, hholds, permute_withControl]
  split <;> rfl

/-- A bit does not hold a number other than 0 and 1. -/
theorem holds_eq_false (hbit : cond.register = .single b) (h0 : cond.value ≠ 0)
    (h1 : cond.value ≠ 1) (bits : Clbit → Bool) : cond.holds bits = false := by
  rw [Condition.holds, hbit, Register.read_single, decide_eq_false_iff_not]
  intro h
  cases hb : bits b
  · exact h0 (UInt64.toNat_inj.1 (by rw [← h, hb]; rfl))
  · exact h1 (UInt64.toNat_inj.1 (by rw [← h, hb]; rfl))

/-- The values for which the controls of a gate hold: 1 on its positive controls, and for the
gate to have an effect also on the given target. -/
def firing (g : Gate) (target : Qubit) (r : Qubit) : Bool :=
  decide (.pos r ∈ g.controls) || decide (r = target)

theorem enabled_firing (hvalid : g.validate = .ok ()) {target : Qubit}
    (ht : target ∈ g.targets) : g.enabled (firing g target) = true := by
  rw [Gate.enabled, List.all_eq_true]
  intro k hk
  have hne : k.qubit ≠ target := by
    rintro rfl
    exact Gate.not_mem_targets_of_valid hvalid hk ht
  have hpos : Control.pos k.qubit ∈ g.controls ↔ k.isPositive = true := by
    constructor
    · intro hmem
      rw [← Gate.eq_of_valid hvalid hmem hk rfl]
      rfl
    · intro hpositive
      have : k = .pos k.qubit := Control.ext_iff_isPositive.2 ⟨rfl, hpositive⟩
      rwa [← this]
  simp [Control.holds, firing, hpos, hne]

/-- An X or SWAP gate that passes the check moves some basis state for which its controls
hold. -/
theorem act_firing (hvalid : g.validate = .ok ()) (hkind : g.kind = .x ∨ g.kind = .swap) :
    ∃ target ∈ g.targets, g.act (firing g target) target ≠ firing g target target := by
  obtain ⟨hcount, hnodup⟩ := Gate.validate_eq_ok_iff.1 hvalid
  have hfree : ∀ r ∈ g.targets, Control.pos r ∉ g.controls :=
    fun r hr hmem => Gate.not_mem_targets_of_valid hvalid hmem hr
  rcases hkind with hkind | hkind
  · rw [hkind] at hcount
    obtain ⟨t, ht⟩ := List.length_eq_one_iff.1 (Option.some.inj hcount).symm
    refine ⟨t, by simp [ht], ?_⟩
    simp [Gate.act, hkind, ht, firing]
  · rw [hkind] at hcount
    obtain ⟨t, u, ht⟩ := List.length_eq_two.1 (Option.some.inj hcount).symm
    have hne : u ≠ t := by
      rintro rfl
      simp [Gate.operands, ht, List.nodup_append] at hnodup
    have hu := hfree u (by simp [ht])
    refine ⟨t, by simp [ht], ?_⟩
    simp [Gate.act, hkind, ht, firing, hne, hu]

/-- A conditional X or SWAP gate is rewired to a gate that acts, wherever its bit holds the
value of the measured qubit, as if the condition asked for 1 or, if it asks for anything else,
for 0. So the new gate does the same as the conditional one if the condition asks for 0 or 1,
or if the gate has a control that keeps it from acting on 0 anyway; in a circuit that passes
the check it does so in no other case. -/
theorem condition_deferMeasurements {c out : Circuit} (hdone : c.deferMeasurements = .done out)
    (hres : Resolves c.ops cond g q) (hbit : cond.register = .single b)
    (hkind : g.kind = .x ∨ g.kind = .swap) :
    .gate (withControl g (controlFor q cond)) ∈ out.ops ∧
      (∀ s : BitState, s.clbits b = s.qubits q →
        (Operation.gate (withControl g (controlFor q cond))).exec s =
          (Operation.conditional cond.rounded (.gate g)).exec s) ∧
      (cond.value = 0 ∨ cond.value = 1 ∨ .pos q ∈ g.controls →
        ∀ s : BitState, s.clbits b = s.qubits q →
          (Operation.gate (withControl g (controlFor q cond))).exec s =
            (Operation.conditional cond (.gate g)).exec s) ∧
      ((∀ op ∈ c.ops, op.validate = .ok ()) →
        (∀ s : BitState, s.clbits b = s.qubits q →
          (Operation.gate (withControl g (controlFor q cond))).exec s =
            (Operation.conditional cond (.gate g)).exec s) →
        cond.value = 0 ∨ cond.value = 1 ∨ .pos q ∈ g.controls) := by
  refine ⟨hres.mem hdone, fun s hs => exec_withControl hbit hs, fun hcase s hs => ?_,
    fun hvalid hall => ?_⟩
  · by_cases hvalue : cond.value = 0 ∨ cond.value = 1
    · rw [exec_withControl hbit hs, rounded_eq hvalue]
    · -- the condition never holds, and neither do both controls on the measured qubit
      obtain ⟨h0, h1⟩ := not_or.1 hvalue
      have hpos : (controlFor q cond).opposite ∈ g.controls := by
        rw [controlFor, if_neg h1]
        exact (hcase.resolve_left h0).resolve_left h1
      rw [exec, exec, holds_eq_false hbit h0 h1, permute_withControl_opposite hpos]
      rfl
  · by_contra hnot
    simp only [not_or] at hnot
    obtain ⟨h0, h1, hpos⟩ := hnot
    have hg := hres.valid hvalid
    obtain ⟨target, htarget, hmoves⟩ := act_firing hg hkind
    have hq : q ≠ target := by
      rintro rfl
      exact hres.not_mem_targets hvalid hdone htarget
    have hzero : firing g target q = false := by simp [firing, hpos, hq]
    have hsame := hall ⟨firing g target, fun _ => false⟩ hzero.symm
    have hcontrol : (controlFor q cond).holds (firing g target) = true := by
      simp [controlFor, h1, Control.holds, Control.neg, Control.isPositive, hzero]
    rw [exec, exec, holds_eq_false hbit h0 h1, permute_withControl, if_pos hcontrol, Gate.permute,
      if_pos (enabled_firing hg htarget)] at hsame
    exact hmoves (congrFun (congrArg BitState.qubits hsame) target)

end condition

/-- A gate that waits for the result 0, and one that waits for a number which a bit does not
hold but is kept from acting by a control on the measured qubit. -/
def guarded : Circuit :=
  { Circuit.withSize "guarded" 3 1 with
    ops := [measuring (⟨0⟩, ⟨0⟩),
      .conditional ⟨.single ⟨0⟩, 0⟩ (.gate (.controlled .x [.neg ⟨2⟩] [⟨1⟩])),
      .conditional ⟨.single ⟨0⟩, 7⟩ (.gate (.controlled .swap [.pos ⟨0⟩] [⟨1⟩, ⟨2⟩]))] }

theorem condition_deferMeasurements_guarded :
    ∃ out, guarded.deferMeasurements = .done out ∧
      out.ops = [.gate (.controlled .x [.neg ⟨0⟩, .neg ⟨2⟩] [⟨1⟩]),
        .gate (.controlled .swap [.neg ⟨0⟩, .pos ⟨0⟩] [⟨1⟩, ⟨2⟩]), measuring (⟨0⟩, ⟨0⟩)] ∧
      ∀ s : BitState, s.clbits ⟨0⟩ = s.qubits ⟨0⟩ →
        (Operation.gate (.controlled .swap [.neg ⟨0⟩, .pos ⟨0⟩] [⟨1⟩, ⟨2⟩])).exec s =
          (Operation.conditional ⟨.single ⟨0⟩, 7⟩
            (.gate (.controlled .swap [.pos ⟨0⟩] [⟨1⟩, ⟨2⟩]))).exec s := by
  have hres : Resolves guarded.ops ⟨.single ⟨0⟩, 7⟩ (.controlled .swap [.pos ⟨0⟩] [⟨1⟩, ⟨2⟩])
      ⟨0⟩ := ⟨guarded.ops.take 2, [], rfl, rfl⟩
  refine ⟨_, by cbv, by cbv, ?_⟩
  exact (condition_deferMeasurements (c := guarded) (by cbv) hres rfl (.inr rfl)).2.2.1
    (.inr (.inr (by decide)))

/-- A gate that waits for a number which a bit does not hold. -/
def unheard : Circuit :=
  { Circuit.withSize "unheard" 2 1 with
    ops := [measuring (⟨0⟩, ⟨0⟩), .conditional ⟨.single ⟨0⟩, 2⟩ (.gate (.ofKind .x [⟨1⟩]))] }

/-- Rewired, the gate acts where the measured qubit is 0. -/
theorem deferMeasurements_unheard_value :
    ∃ out, unheard.deferMeasurements = .done out ∧
      out.ops = [.gate (.controlled .x [.neg ⟨0⟩] [⟨1⟩]), measuring (⟨0⟩, ⟨0⟩)] ∧
      (execAll unheard.ops ⟨fun _ => false, fun _ => false⟩).qubits ⟨1⟩ = false ∧
      (execAll out.ops ⟨fun _ => false, fun _ => false⟩).qubits ⟨1⟩ = true :=
  ⟨_, by cbv, by cbv, by decide, by decide⟩

end Deferral
end QuantumCircuit
