import Mathlib.Logic.Relation
import QuantumCircuit.Proofs.Schedule.Queue

/-! What a schedule emits. What has been emitted from a lane, followed by what is still on
it, is always the whole lane. So the lowest slot that is left is next on all its lanes,
and every sweep emits something. -/
namespace QuantumCircuit
namespace Schedule
variable {ops : List Operation} {s s' : Schedule} {slot i : Nat} {f : Footprint}

/-! ## Emitting -/

/-- A slot that is next on all lanes of its operation, which is on some lane. -/
structure Ready (ops : List Operation) (s : Schedule) (slot : Nat) (op : Operation) : Prop where
  at_slot : ops[slot]? = some op
  usesQubits : op.usesQubits = true
  isReady : s.isReady slot op.footprint = true

theorem Ready.head {op : Operation} (h : Ready ops s slot op) {w : Wire} (hw : op.isOn w = true) :
    (s.queue w).head? = some slot :=
  isReady_iff.1 h.isReady w (by rw [Footprint.isOn_footprint h.usesQubits, hw])

theorem Ready.of_head {op : Operation} (hop : ops[slot]? = some op) (huses : op.usesQubits = true)
    (h : ∀ w, op.isOn w = true → (s.queue w).head? = some slot) : Ready ops s slot op :=
  ⟨hop, huses, isReady_iff.2 fun w hw => h w (by rw [← Footprint.isOn_footprint huses, hw])⟩

theorem Ready.queue_emit {op : Operation} (h : Ready ops s slot op) (w : Wire) :
    (s.emit slot op.footprint).queue w = if op.isOn w then (s.queue w).tail else s.queue w := by
  rw [Schedule.queue_emit (Footprint.distinct_footprint op),
    Footprint.isOn_footprint h.usesQubits]

/-- One emission. -/
def Emits (ops : List Operation) (s s' : Schedule) : Prop :=
  ∃ slot op, Ready ops s slot op ∧ s' = s.emit slot op.footprint

/-- Emissions in a row. -/
abbrev Runs (ops : List Operation) : Schedule → Schedule → Prop :=
  Relation.ReflTransGen (Emits ops)

/-- What has been emitted from each lane and what is still on it. -/
structure Split (ops : List Operation) (s : Schedule) : Prop where
  lanes : ∀ w, s.emitted.reverse.filter (slotHas ops (·.isOn w)) ++ s.queue w =
    slotsWhere (·.isOn w) ops
  uses : ∀ i ∈ s.emitted, slotHas ops Operation.usesQubits i = true

theorem split_start {c : Circuit} {pass : String} {lanes : Lanes}
    (h : Lanes.build c pass = .ok lanes) :
    Split c.ops (start lanes (c.ops.map Operation.footprint)) where
  lanes w := by
    rw [queue_start h]
    rfl
  uses i hi := by cases hi

namespace Split

theorem emits (h : Split ops s) (hstep : Emits ops s s') : Split ops s' := by
  obtain ⟨slot, op, hready, rfl⟩ := hstep
  refine ⟨fun w => ?_, fun i hi => ?_⟩
  · show (slot :: s.emitted).reverse.filter (slotHas ops (·.isOn w)) ++ _ = _
    have hhas : slotHas ops (·.isOn w) slot = op.isOn w := slotHas_of_getElem? hready.at_slot
    rw [List.reverse_cons, List.filter_append, hready.queue_emit, ← h.lanes w]
    by_cases hw : op.isOn w = true
    · rw [if_pos hw, List.filter_cons_of_pos (hhas.trans hw), List.filter_nil,
        List.append_assoc, List.singleton_append, List.cons_head?_tail (hready.head hw)]
    · rw [if_neg hw, List.filter_cons_of_neg fun h => hw (hhas.symm.trans h), List.filter_nil,
        List.append_nil]
  · rcases List.mem_cons.1 hi with rfl | hi
    · rw [slotHas_of_getElem? hready.at_slot, hready.usesQubits]
    · exact h.uses i hi

theorem runs (h : Split ops s) (hrun : Runs ops s s') : Split ops s' := by
  induction hrun with
  | refl => exact h
  | tail _ hstep ih => exact ih.emits hstep

theorem mem_lane (h : Split ops s) {w : Wire} (hi : i ∈ s.queue w) :
    slotHas ops (·.isOn w) i = true := by
  rw [← mem_slotsWhere, ← h.lanes w]
  exact List.mem_append_right _ hi

theorem sorted_queue (h : Split ops s) (w : Wire) : (s.queue w).Pairwise (· < ·) := by
  have hsorted := sorted_slotsWhere (·.isOn w) ops
  rw [← h.lanes w] at hsorted
  exact (List.pairwise_append.1 hsorted).2.1

/-- Of the slots on a lane those that have not been emitted are still on it. -/
theorem mem_queue_iff (h : Split ops s) {w : Wire} (hi : slotHas ops (·.isOn w) i = true) :
    i ∈ s.queue w ↔ i ∉ s.emitted := by
  have hmem : i ∈ slotsWhere (·.isOn w) ops := mem_slotsWhere.2 hi
  have hsorted := sorted_slotsWhere (·.isOn w) ops
  rw [← h.lanes w] at hmem hsorted
  constructor
  · intro hqueue hemitted
    have hlt := (List.pairwise_append.1 hsorted).2.2 i
      (List.mem_filter.2 ⟨List.mem_reverse.2 hemitted, hi⟩) i hqueue
    exact Nat.lt_irrefl i hlt
  · intro hnot
    rcases List.mem_append.1 hmem with hin | hin
    · exact absurd (List.mem_reverse.1 (List.mem_of_mem_filter hin)) hnot
    · exact hin

theorem nodup_emitted (h : Split ops s) : s.emitted.Nodup := by
  rw [List.nodup_iff_count_le_one]
  intro i
  by_cases hi : i ∈ s.emitted
  · obtain ⟨op, hop, huses⟩ := slotHas_iff.1 (h.uses i hi)
    obtain ⟨q, hq⟩ := Operation.usesQubits_iff.1 huses
    have hhas : slotHas ops (·.isOn (.qubit q)) i = true := slotHas_iff.2 ⟨op, hop, hq⟩
    have hsorted := sorted_slotsWhere (·.isOn (.qubit q)) ops
    rw [← h.lanes] at hsorted
    have hnodup := (List.pairwise_append.1 hsorted).1.nodup
    rw [← List.count_reverse, ← List.count_filter hhas]
    exact List.nodup_iff_count_le_one.1 hnodup i
  · rw [List.count_eq_zero_of_not_mem hi]
    exact Nat.zero_le 1

end Split

/-! ## Sweeping -/

/-- Visiting a lane emits the slot at its front, or nothing. -/
theorem Split.visit_cases (h : Split ops s) (q : Qubit) :
    visit (ops.map Operation.footprint) s q = s ∨
      Emits ops s (visit (ops.map Operation.footprint) s q) := by
  rw [visit]
  cases htop : s.qubitLanes.top? q with
  | none => exact .inl rfl
  | some slot =>
    have hin : slot ∈ s.queue (.qubit q) := List.mem_of_mem_head? htop
    obtain ⟨op, hop, hacts⟩ := slotHas_iff.1 (h.mem_lane hin)
    have hfoot : (ops.map Operation.footprint).getD slot default = op.footprint := by
      simp [List.getD_eq_getElem?_getD, hop]
    dsimp only
    rw [hfoot]
    split
    · next hready =>
      exact .inr ⟨slot, op, ⟨hop, Operation.usesQubits_of_isOn hacts, hready⟩, rfl⟩
    · exact .inl rfl

theorem Split.runs_visit (h : Split ops s) (q : Qubit) :
    Runs ops s (visit (ops.map Operation.footprint) s q) := by
  rcases h.visit_cases q with heq | hstep
  · rw [heq]
  · exact .single hstep

theorem Split.runs_visits (h : Split ops s) (qs : List Nat) :
    Runs ops s (qs.foldl (fun s i => visit (ops.map Operation.footprint) s ⟨i⟩) s) := by
  induction qs generalizing s with
  | nil => exact .refl
  | cons j rest ih =>
    have hvisit := h.runs_visit ⟨j⟩
    exact hvisit.trans (ih (h.runs hvisit))

theorem Split.runs_sweep (h : Split ops s) :
    Runs ops s (sweep (ops.map Operation.footprint) s) :=
  h.runs_visits _

theorem emitted_suffix (h : Runs ops s s') : s.emitted <:+ s'.emitted := by
  induction h with
  | refl => exact List.suffix_rfl
  | tail _ hstep ih =>
    obtain ⟨slot, op, -, rfl⟩ := hstep
    exact ih.trans (List.suffix_cons slot _)

/-- A ready slot stays ready until it is emitted: what is emitted before it is on none
of its lanes, since it would be next there as well. -/
theorem Ready.emits {op : Operation} (h : Ready ops s i op) (hstep : Emits ops s s') :
    i ∈ s'.emitted ∨ Ready ops s' i op := by
  obtain ⟨slot, op', hready, rfl⟩ := hstep
  by_cases hi : i = slot
  · exact .inl (hi ▸ List.mem_cons_self)
  · refine .inr (.of_head h.at_slot h.usesQubits fun w hw => ?_)
    have hapart : ¬ op'.isOn w = true := fun hw' =>
      hi (Option.some.inj ((h.head hw).symm.trans (hready.head hw')))
    rw [hready.queue_emit, if_neg hapart]
    exact h.head hw

theorem Ready.mem_visit {op : Operation} (h : Ready ops s i op) {q : Qubit}
    (hq : op.actsOn q = true) : i ∈ (visit (ops.map Operation.footprint) s q).emitted := by
  have htop : s.qubitLanes.top? q = some i := h.head (w := .qubit q) hq
  have hfoot : (ops.map Operation.footprint).getD i default = op.footprint := by
    simp [List.getD_eq_getElem?_getD, h.at_slot]
  rw [visit, htop]
  dsimp only
  rw [hfoot, if_pos h.isReady]
  exact List.mem_cons_self

/-- Visiting the lane of one of its qubits, whatever is visited before, emits a slot that
is ready. -/
theorem Ready.mem_visits {op : Operation} (hsplit : Split ops s) (h : Ready ops s i op) {q : Qubit}
    (hq : op.actsOn q = true) {qs : List Nat} (hqs : q.index ∈ qs) :
    i ∈ (qs.foldl (fun s i => visit (ops.map Operation.footprint) s ⟨i⟩) s).emitted := by
  induction qs generalizing s with
  | nil => cases hqs
  | cons j rest ih =>
    have hsplit' : Split ops (visit (ops.map Operation.footprint) s ⟨j⟩) :=
      hsplit.runs (hsplit.runs_visit ⟨j⟩)
    have hkept : i ∈ (visit (ops.map Operation.footprint) s ⟨j⟩).emitted →
        i ∈ ((j :: rest).foldl (fun s i => visit (ops.map Operation.footprint) s ⟨i⟩) s).emitted :=
      fun hi => (emitted_suffix (hsplit'.runs_visits rest)).subset hi
    rcases List.mem_cons.1 hqs with rfl | hrest
    · exact hkept (h.mem_visit hq)
    · rcases hsplit.visit_cases ⟨j⟩ with heq | hstep
      · rw [List.foldl_cons, heq]
        exact ih hsplit h hrest
      · rcases h.emits hstep with hi | hready
        · exact hkept hi
        · exact ih hsplit' hready hrest

/-! ## Progress -/

/-- As long as a lane is not empty, the lowest slot that is left is ready. -/
theorem Split.exists_ready (h : Split ops s) (hdone : s.isDone = false) :
    ∃ i op, Ready ops s i op ∧ i ∉ s.emitted := by
  have hleft : ∃ i, slotHas ops Operation.usesQubits i = true ∧ i ∉ s.emitted := by
    have hsome : ¬ ∀ q, s.qubitLanes.stack q = [] := fun hall => by
      rw [isDone, Lanes.all_isEmpty_iff.2 hall] at hdone
      cases hdone
    obtain ⟨q, hq⟩ := not_forall.1 hsome
    obtain ⟨i, hi⟩ := List.exists_mem_of_ne_nil _ hq
    have hlane := h.mem_lane (w := .qubit q) hi
    obtain ⟨op, hop, hacts⟩ := slotHas_iff.1 hlane
    exact ⟨i, slotHas_iff.2 ⟨op, hop, Operation.usesQubits_of_isOn hacts⟩,
      (h.mem_queue_iff hlane).1 hi⟩
  classical
  obtain ⟨huses, hnot⟩ := Nat.find_spec hleft
  obtain ⟨op, hop, hop'⟩ := slotHas_iff.1 huses
  refine ⟨Nat.find hleft, op, .of_head hop hop' fun w hw => ?_, hnot⟩
  have hhas : slotHas ops (·.isOn w) (Nat.find hleft) = true := slotHas_iff.2 ⟨op, hop, hw⟩
  have hin := (h.mem_queue_iff hhas).2 hnot
  cases hqueue : s.queue w with
  | nil =>
    rw [hqueue] at hin
    cases hin
  | cons first rest =>
    -- the front of the lane is not emitted either, so it cannot be lower
    have hfirst : first ∈ s.queue w := hqueue ▸ List.mem_cons_self
    have hlane := h.mem_lane hfirst
    obtain ⟨op', hfirstOp, hon⟩ := slotHas_iff.1 hlane
    have hle : Nat.find hleft ≤ first := Nat.find_min' hleft
      ⟨slotHas_iff.2 ⟨op', hfirstOp, Operation.usesQubits_of_isOn hon⟩,
        (h.mem_queue_iff hlane).1 hfirst⟩
    have hsorted := h.sorted_queue w
    rw [hqueue] at hin hsorted
    rcases List.mem_cons.1 hin with heq | hrest
    · rw [heq, List.head?_cons]
    · exact absurd ((List.pairwise_cons.1 hsorted).1 _ hrest) (Nat.not_lt.2 hle)

/-- A sweep emits every slot that is ready when it starts. -/
theorem Ready.mem_sweep {op : Operation} (hsplit : Split ops s) (h : Ready ops s i op) :
    i ∈ (sweep (ops.map Operation.footprint) s).emitted := by
  obtain ⟨q, hq⟩ := Operation.usesQubits_iff.1 h.usesQubits
  have hhead := h.head (w := .qubit q) hq
  have hstack : s.qubitLanes.stack q ≠ [] := fun hnil => by
    rw [queue, hnil] at hhead
    cases hhead
  refine h.mem_visits hsplit hq (List.mem_reverse.2 (List.mem_range.2 ?_))
  exact Lanes.index_lt_count hstack

/-- Every sweep that finds something on a lane emits something. -/
theorem Split.length_lt_sweep (h : Split ops s) (hdone : s.isDone = false) :
    s.emitted.length < (sweep (ops.map Operation.footprint) s).emitted.length := by
  obtain ⟨i, op, hready, hnot⟩ := h.exists_ready hdone
  have hsuffix := emitted_suffix h.runs_sweep
  refine lt_of_le_of_ne hsuffix.length_le fun heq => hnot ?_
  rw [hsuffix.eq_of_length heq]
  exact hready.mem_sweep h

theorem Split.length_emitted_le (h : Split ops s) : s.emitted.length ≤ ops.length := by
  rw [← List.length_range (n := ops.length)]
  exact (List.subperm_of_subset h.nodup_emitted fun i hi =>
    List.mem_range.2 (lt_length_of_slotHas (h.uses i hi))).length_le

/-- The schedule after the given number of sweeps. -/
def afterSweeps (lanes : Lanes) (ops : List Operation) (n : Nat) : Schedule :=
  (sweep (ops.map Operation.footprint))^[n] (start lanes (ops.map Operation.footprint))

theorem Split.iterate_sweep (h : Split ops s) (n : Nat) :
    Split ops ((sweep (ops.map Operation.footprint))^[n] s) := by
  induction n generalizing s with
  | zero => exact h
  | succ n ih => exact ih (h.runs h.runs_sweep)

/-- As many sweeps as there are operations still to be emitted empty all lanes. -/
theorem Split.finish_spec (h : Split ops s) {n : Nat} (hn : ops.length ≤ s.emitted.length + n) :
    ∃ m ≤ n, finish (ops.map Operation.footprint) n s =
        (sweep (ops.map Operation.footprint))^[m] s ∧
      ((sweep (ops.map Operation.footprint))^[m] s).isDone = true := by
  induction n generalizing s with
  | zero =>
    refine ⟨0, Nat.le_refl 0, rfl, ?_⟩
    by_contra hdone
    have hlt := h.length_lt_sweep (Bool.eq_false_iff.2 hdone)
    have hle := (h.runs h.runs_sweep).length_emitted_le
    omega
  | succ n ih =>
    rw [finish]
    split
    · next hdone => exact ⟨0, Nat.zero_le _, rfl, hdone⟩
    · next hdone =>
      have hlt := h.length_lt_sweep (Bool.eq_false_iff.2 hdone)
      obtain ⟨m, hm, hfinish, hdone'⟩ := ih (h.runs h.runs_sweep) (by omega)
      exact ⟨m + 1, Nat.succ_le_succ hm, hfinish, hdone'⟩

end Schedule
end QuantumCircuit
