import QuantumCircuit.Proofs.Schedule.Progress
import QuantumCircuit.Proofs.Words

/-! The canonical order is a linear extension of the dependencies: operations that share a
qubit stay in order, and so do those that share a classical bit. -/
namespace QuantumCircuit
namespace Schedule
variable {ops : List Operation} {s : Schedule} {i : Nat}

/-- Slots in an order that respects the lanes: each slot once, on every wire in program
order, and those without qubits in program order as well. -/
structure LinearExtension (ops : List Operation) (order : List Nat) : Prop where
  perm : order.Perm (List.range ops.length)
  wires : ∀ w, (order.filter (slotHas ops (·.isOn w))).Pairwise (· < ·)
  idle : (order.filter (slotHas ops (!·.usesQubits))).Pairwise (· < ·)

/-- On slots that are in order a property picks out the same slots as in the program. -/
theorem LinearExtension.filter_eq {order : List Nat} (h : LinearExtension ops order)
    {p : Operation → Bool} (hsorted : (order.filter (slotHas ops p)).Pairwise (· < ·)) :
    order.filter (slotHas ops p) = slotsWhere p ops :=
  hsorted.eq_of_mem_iff (sorted_slotsWhere p ops) fun i => by
    rw [slotsWhere, List.mem_filter, List.mem_filter, h.perm.mem_iff]

/-- Once all lanes are empty, the slots that have been emitted are those with qubits. -/
theorem Split.mem_emitted_iff (h : Split ops s) (hdone : s.isDone = true) :
    i ∈ s.emitted ↔ slotHas ops Operation.usesQubits i = true := by
  refine ⟨h.uses i, fun huses => ?_⟩
  obtain ⟨op, hop, hop'⟩ := slotHas_iff.1 huses
  obtain ⟨q, hq⟩ := Operation.usesQubits_iff.1 hop'
  have hempty : s.queue (.qubit q) = [] := Lanes.all_isEmpty_iff.1 hdone q
  by_contra hnot
  have hin := (h.mem_queue_iff (w := .qubit q) (slotHas_iff.2 ⟨op, hop, hq⟩)).2 hnot
  rw [hempty] at hin
  cases hin

theorem Split.not_idle_of_emitted (h : Split ops s) (hi : i ∈ s.emitted) :
    ¬ slotHas ops (!·.usesQubits) i = true := by
  intro hidle
  have hfalse := slotHas_of_not hidle
  rw [h.uses i hi] at hfalse
  cases hfalse

theorem filter_idle_isOn (ops : List Operation) (w : Wire) :
    (slotsWhere (!·.usesQubits) ops).filter (slotHas ops (·.isOn w)) = [] := by
  rw [List.filter_eq_nil_iff]
  intro i hi hon
  obtain ⟨op, hop, hw⟩ := slotHas_iff.1 hon
  have hfalse := slotHas_of_not (mem_slotsWhere.1 hi)
  rw [slotHas_of_getElem? hop, Operation.usesQubits_of_isOn hw] at hfalse
  cases hfalse

/-- What has been emitted when all lanes are empty, followed by the slots without
qubits. -/
theorem Split.linearExtension (h : Split ops s) (hdone : s.isDone = true) :
    LinearExtension ops (s.emitted.reverse ++ slotsWhere (!·.usesQubits) ops) := by
  have hnodup : (s.emitted.reverse ++ slotsWhere (!·.usesQubits) ops).Nodup := by
    refine List.nodup_append.2 ⟨List.nodup_reverse.2 h.nodup_emitted,
      (sorted_slotsWhere _ ops).nodup, ?_⟩
    rintro i hi j hj rfl
    exact h.not_idle_of_emitted (List.mem_reverse.1 hi) (mem_slotsWhere.1 hj)
  refine ⟨(List.perm_ext_iff_of_nodup hnodup List.nodup_range).2 fun i => ?_, fun w => ?_, ?_⟩
  · rw [List.mem_append, List.mem_reverse, h.mem_emitted_iff hdone, mem_slotsWhere, List.mem_range]
    constructor
    · rintro (hi | hi)
      · exact lt_length_of_slotHas hi
      · exact lt_length_of_slotHas hi
    · intro hi
      rw [slotHas_of_getElem? (List.getElem?_eq_getElem hi),
        slotHas_of_getElem? (List.getElem?_eq_getElem hi)]
      cases ops[i].usesQubits with
      | true => exact .inl rfl
      | false => exact .inr rfl
  · have hsorted := sorted_slotsWhere (·.isOn w) ops
    rw [← h.lanes w] at hsorted
    rw [List.filter_append, filter_idle_isOn, List.append_nil]
    exact (List.pairwise_append.1 hsorted).1
  · have hgone : s.emitted.reverse.filter (slotHas ops (!·.usesQubits)) = [] :=
      List.filter_eq_nil_iff.2 fun i hi => h.not_idle_of_emitted (List.mem_reverse.1 hi)
    rw [List.filter_append, hgone, List.nil_append]
    exact (sorted_slotsWhere _ ops).filter _

/-! ## The arranged operations -/

/-- Slots with their operations read back. -/
theorem filterMap_snd {es : List (Operation × Nat)} (h : ∀ e ∈ es, e ∈ ops.zipIdx) :
    (es.map Prod.snd).filterMap (ops[·]?) = es.map Prod.fst := by
  induction es with
  | nil => rfl
  | cons e rest ih =>
    have he : ops[e.2]? = some e.1 := by
      have := List.mk_mem_zipIdx_iff_getElem?.1 (h e List.mem_cons_self)
      simpa using this
    rw [List.map_cons, List.map_cons, List.filterMap_cons_some he,
      ih fun e' he' => h e' (List.mem_cons_of_mem _ he')]

theorem arrange_eq (ops : List Operation) (order : List Nat) :
    arrange ops order = (order ++ (List.range ops.length).filter fun i =>
      !order.contains i).filterMap (ops[·]?) := by
  have hsnd : (List.range ops.length).filter (fun i => !order.contains i) =
      (ops.zipIdx.filter fun e => !order.contains e.2).map Prod.snd := by
    rw [List.range_eq_range', ← List.zipIdx_map_snd 0 ops, List.filter_map]
    rfl
  rw [arrange, List.filterMap_append, hsnd, filterMap_snd fun e he => List.mem_of_mem_filter he]

/-- The operations without qubits are those that no lane has. -/
theorem Split.arrange (h : Split ops s) (hdone : s.isDone = true) :
    arrange ops s.emitted.reverse =
      (s.emitted.reverse ++ slotsWhere (!·.usesQubits) ops).filterMap (ops[·]?) := by
  have hrest : ((List.range ops.length).filter fun i => !s.emitted.reverse.contains i) =
      slotsWhere (!·.usesQubits) ops := by
    refine List.filter_congr fun i hi => ?_
    have hop := List.getElem?_eq_getElem (List.mem_range.1 hi)
    have hiff := h.mem_emitted_iff hdone (i := i)
    rw [slotHas_of_getElem? hop] at hiff ⊢
    rw [Bool.eq_iff_iff]
    simp [hiff]
  rw [arrange_eq, hrest]

theorem split_afterSweeps {c : Circuit} {pass : String} {lanes : Lanes}
    (h : Lanes.build c pass = .ok lanes) (n : Nat) : Split c.ops (afterSweeps lanes c.ops n) :=
  (split_start h).iterate_sweep n

/-- The loop ends with all lanes empty, after at most as many sweeps as there are
operations. -/
theorem exists_afterSweeps {c : Circuit} {pass : String} {lanes : Lanes}
    (h : Lanes.build c pass = .ok lanes) :
    ∃ n ≤ c.ops.length, (afterSweeps lanes c.ops n).isDone = true ∧
      order lanes c.ops = (afterSweeps lanes c.ops n).emitted.reverse := by
  obtain ⟨n, hn, hfinish, hdone⟩ := (split_start h).finish_spec (Nat.le_add_left _ _)
  refine ⟨n, hn, hdone, ?_⟩
  rw [order, hfinish]
  rfl

theorem LinearExtension.filter_ops {order : List Nat} (h : LinearExtension ops order) (w : Wire) :
    (order.filterMap (ops[·]?)).filter (·.isOn w) = ops.filter (·.isOn w) := by
  rw [filter_filterMap_slots, h.filter_eq (h.wires w), ← filter_eq_filterMap_slotsWhere]

end Schedule

namespace Circuit
open Schedule

/-- The canonical order as slots: those with qubits as they are emitted, then the
others. -/
def canonicalSlots (c : Circuit) (lanes : Lanes) : List Nat :=
  order lanes c.ops ++ slotsWhere (!·.usesQubits) c.ops

theorem linearExtension_canonicalSlots {c : Circuit} {pass : String} {lanes : Lanes}
    (h : Lanes.build c pass = .ok lanes) : LinearExtension c.ops (c.canonicalSlots lanes) := by
  obtain ⟨n, -, hdone, horder⟩ := exists_afterSweeps h
  rw [canonicalSlots, horder]
  exact (split_afterSweeps h n).linearExtension hdone

theorem reorder_of_build {c : Circuit} {lanes : Lanes} (h : Lanes.build c passName = .ok lanes) :
    c.reorder = .done { c with ops := (c.canonicalSlots lanes).filterMap (c.ops[·]?) } := by
  obtain ⟨n, -, hdone, horder⟩ := exists_afterSweeps h
  rw [reorder, h, canonicalSlots, horder]
  dsimp only
  rw [horder, (split_afterSweeps h n).arrange hdone]

theorem build_of_reorder {c out : Circuit} (h : c.reorder = .done out) :
    ∃ lanes, Lanes.build c passName = .ok lanes := by
  rw [reorder] at h
  split at h
  · cases h
  · next lanes hlanes => exact ⟨lanes, hlanes⟩

/-- Putting operations into canonical order keeps them in order on every qubit. -/
theorem reorder_spec {c : Circuit} (h : ∀ op ∈ c.ops, op.validate = .ok ()) :
    ∃ out, c.reorder = .done { c with ops := out } ∧
      (∀ q, out.filter (·.actsOn q) = c.ops.filter (·.actsOn q)) ∧ ∀ op ∈ out, op ∈ c.ops := by
  obtain ⟨lanes, hlanes⟩ := Lanes.exists_build passName h
  refine ⟨_, reorder_of_build hlanes, fun q => ?_, fun op hop => ?_⟩
  · exact (linearExtension_canonicalSlots hlanes).filter_ops (.qubit q)
  · obtain ⟨i, -, hi⟩ := List.mem_filterMap.1 hop
    exact List.mem_of_getElem? hi

/-- A barrier on nothing, a measurement, a gate that waits for its result, and a gate on
another qubit. -/
def waitingGate : Circuit :=
  { withSize "waiting" 3 1 with
    ops := [.effect { kind := .barrier, targets := [] },
      .effect { kind := .measure, targets := [⟨0⟩], clbits := [⟨0⟩] },
      .conditional ⟨.single ⟨0⟩, 1⟩ (.gate (.ofKind .x [⟨1⟩])), .gate (.ofKind .h [⟨2⟩])] }

/-- The free gate comes first, the barrier on nothing last. -/
def waitingGateInOrder : Circuit :=
  { waitingGate with
    ops := [.gate (.ofKind .h [⟨2⟩]),
      .effect { kind := .measure, targets := [⟨0⟩], clbits := [⟨0⟩] },
      .conditional ⟨.single ⟨0⟩, 1⟩ (.gate (.ofKind .x [⟨1⟩])),
      .effect { kind := .barrier, targets := [] }] }

/-- A gate waits for a result in the bit with the last number. -/
def waitingOnLast : Circuit :=
  { withSize "last" 2 0 with
    ops := [.effect { kind := .measure, targets := [⟨0⟩], clbits := [⟨4294967295⟩] },
      .conditional ⟨.single ⟨4294967295⟩, 1⟩ (.gate (.ofKind .x [⟨1⟩]))] }

/-- The register of the gate lists no bit, and the gate comes to stand in front of the
measurement that it waits for. -/
theorem reorder_waitingOnLast :
    (⟨4294967295⟩ : Clbit) ∈ (Register.single ⟨4294967295⟩).span ∧
      waitingOnLast.reorder = .done { waitingOnLast with
        ops := [.conditional ⟨.single ⟨4294967295⟩, 1⟩ (.gate (.ofKind .x [⟨1⟩])),
          .effect { kind := .measure, targets := [⟨0⟩], clbits := [⟨4294967295⟩] }] } := by
  decide

end Circuit
end QuantumCircuit
