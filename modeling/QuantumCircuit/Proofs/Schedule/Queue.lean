import Mathlib.Data.List.Induction
import Mathlib.Data.List.Sort
import QuantumCircuit.Proofs.Lanes
import QuantumCircuit.Schedule

/-! The lanes of a schedule. Qubits and classical bits alike are wires, each with the
slots that are still to be emitted; every function on schedules is described by what it
does to the lane of a wire. -/
namespace QuantumCircuit

/-! ## Slots and operations -/

section slots
variable {ops : List Operation} {p : Operation → Bool} {i : Nat}

/-- Whether the operation at a slot has a property. -/
def slotHas (ops : List Operation) (p : Operation → Bool) (slot : Nat) : Bool := ops[slot]?.any p

/-- The slots of the operations with a property, in program order. -/
def slotsWhere (p : Operation → Bool) (ops : List Operation) : List Nat :=
  (List.range ops.length).filter (slotHas ops p)

theorem slotHas_of_getElem? {op : Operation} (h : ops[i]? = some op) : slotHas ops p i = p op := by
  simp [slotHas, h]

theorem slotHas_iff : slotHas ops p i = true ↔ ∃ op, ops[i]? = some op ∧ p op = true := by
  rw [slotHas, Option.any_eq_true]

theorem lt_length_of_slotHas (h : slotHas ops p i = true) : i < ops.length := by
  obtain ⟨op, hop, -⟩ := slotHas_iff.1 h
  exact (List.getElem?_eq_some_iff.1 hop).1

theorem slotHas_of_not (h : slotHas ops (!p ·) i = true) : slotHas ops p i = false := by
  obtain ⟨op, hop, hnot⟩ := slotHas_iff.1 h
  rw [slotHas_of_getElem? hop]
  simpa using hnot

@[simp] theorem mem_slotsWhere : i ∈ slotsWhere p ops ↔ slotHas ops p i = true := by
  rw [slotsWhere, List.mem_filter, List.mem_range]
  exact ⟨And.right, fun h => ⟨lt_length_of_slotHas h, h⟩⟩

theorem sorted_slotsWhere (p : Operation → Bool) (ops : List Operation) :
    (slotsWhere p ops).Pairwise (· < ·) :=
  List.pairwise_lt_range.filter _

theorem slotsOn_eq_slotsWhere (q : Qubit) (ops : List Operation) :
    slotsOn q 0 ops = slotsWhere (·.actsOn q) ops :=
  (sorted_slotsOn q 0 ops).eq_of_mem_iff (sorted_slotsWhere _ ops) fun i => by
    rw [mem_slotsOn, mem_slotsWhere, slotHas_iff]

theorem slotsWhere_concat (p : Operation → Bool) (ops : List Operation) (op : Operation) :
    slotsWhere p (ops ++ [op]) = slotsWhere p ops ++ if p op then [ops.length] else [] := by
  have hold : (List.range ops.length).filter (slotHas (ops ++ [op]) p) = slotsWhere p ops := by
    refine List.filter_congr fun i hi => ?_
    rw [slotHas, List.getElem?_append_left (List.mem_range.1 hi), slotHas]
  have hnew : slotHas (ops ++ [op]) p ops.length = p op :=
    slotHas_of_getElem? (by simp)
  rw [slotsWhere, List.length_append, List.length_singleton, List.range_succ, List.filter_append,
    hold, List.filter_singleton, hnew]
  cases p op <;> rfl

/-- All slots in order give back the operations. -/
theorem filterMap_range (ops : List Operation) :
    (List.range ops.length).filterMap (ops[·]?) = ops := by
  induction ops using List.reverseRecOn with
  | nil => rfl
  | append_singleton ops op ih =>
    have hold : (List.range ops.length).filterMap ((ops ++ [op])[·]?) =
        (List.range ops.length).filterMap (ops[·]?) :=
      List.filterMap_congr fun i hi => List.getElem?_append_left (List.mem_range.1 hi)
    rw [List.length_append, List.length_singleton, List.range_succ, List.filterMap_append, hold, ih]
    simp

theorem filter_filterMap_slots (p : Operation → Bool) (ops : List Operation) (slots : List Nat) :
    (slots.filterMap (ops[·]?)).filter p = (slots.filter (slotHas ops p)).filterMap (ops[·]?) := by
  induction slots with
  | nil => rfl
  | cons i rest ih =>
    cases hi : ops[i]? with
    | none =>
      have hhas : slotHas ops p i = false := by simp [slotHas, hi]
      rw [List.filterMap_cons_none hi, ih, List.filter_cons_of_neg (by simp [hhas])]
    | some op =>
      have hhas : slotHas ops p i = p op := slotHas_of_getElem? hi
      rw [List.filterMap_cons_some hi]
      by_cases hop : p op = true
      · rw [List.filter_cons_of_pos hop, ih, List.filter_cons_of_pos (hhas.trans hop),
          List.filterMap_cons_some hi]
      · rw [List.filter_cons_of_neg hop, ih,
          List.filter_cons_of_neg fun h => hop (hhas.symm.trans h)]

theorem filter_eq_filterMap_slotsWhere (p : Operation → Bool) (ops : List Operation) :
    ops.filter p = (slotsWhere p ops).filterMap (ops[·]?) := by
  rw [slotsWhere, ← filter_filterMap_slots, filterMap_range]

end slots

/-! ## Wires -/

/-- What puts operations into order: a qubit or a classical bit. -/
inductive Wire where
  | qubit (q : Qubit)
  | clbit (b : Clbit)
deriving DecidableEq, Repr

namespace Operation
variable {op : Operation}

/-- Whether an operation acts on a qubit at all. -/
def usesQubits (op : Operation) : Bool := !op.qubits.isEmpty

/-- Whether an operation is on the lane of a wire. One without qubits is on none,
whatever bits it reads or writes. -/
def isOn (op : Operation) : Wire → Bool
  | .qubit q => op.actsOn q
  | .clbit b => op.usesQubits && b ∈ op.bitsTouched

theorem usesQubits_iff : op.usesQubits = true ↔ ∃ q, op.actsOn q = true := by
  rw [usesQubits, OrderedSet.isEmpty, Bool.not_eq_true', List.isEmpty_eq_false_iff_exists_mem]
  exact exists_congr fun q => mem_qubits

theorem usesQubits_of_isOn {w : Wire} (h : op.isOn w = true) : op.usesQubits = true := by
  cases w with
  | qubit q => exact usesQubits_iff.2 ⟨q, h⟩
  | clbit b => exact (Bool.and_eq_true _ _ ▸ h).1

end Operation

namespace Footprint

def isOn (f : Footprint) : Wire → Bool
  | .qubit q => q ∈ f.qubits
  | .clbit b => b ∈ f.clbits

/-- Every wire is listed once. -/
structure Distinct (f : Footprint) : Prop where
  qubits : f.qubits.Nodup
  clbits : f.clbits.Nodup

theorem distinct_footprint (op : Operation) : op.footprint.Distinct :=
  ⟨op.qubits.nodup, op.bitsTouched.nodup⟩

theorem isOn_footprint {op : Operation} (h : op.usesQubits = true) (w : Wire) :
    op.footprint.isOn w = op.isOn w := by
  cases w with
  | qubit q =>
    have hiff : q ∈ op.footprint.qubits ↔ op.actsOn q = true := Operation.mem_qubits
    rw [isOn, Operation.isOn, Bool.eq_iff_iff, decide_eq_true_eq, hiff]
  | clbit b =>
    rw [isOn, Operation.isOn, h, Bool.true_and]
    rfl

end Footprint

/-! ## Lanes of a schedule -/

/-- Changing the entries of distinct keys one after another changes each once. -/
theorem OrderedMap.getD_foldl_insert {κ ν : Type} [Ranked κ] [DecidableEq κ]
    (g : List ν → List ν) {ks : List κ} (hks : ks.Nodup) (m : OrderedMap κ (List ν)) (k : κ) :
    ((ks.foldl (fun m k => m.insert k (g ((m.get? k).getD []))) m).get? k).getD [] =
      if k ∈ ks then g ((m.get? k).getD []) else (m.get? k).getD [] := by
  induction ks generalizing m with
  | nil => simp
  | cons a rest ih =>
    obtain ⟨ha, hrest⟩ := List.nodup_cons.1 hks
    rw [List.foldl_cons, ih hrest, get?_insert]
    by_cases hk : k = a
    · subst hk
      simp [ha]
    · simp [hk]

namespace Lanes

theorem stack_map_reverse (l : Lanes) (q : Qubit) :
    (Lanes.mk (l.rows.map List.reverse)).stack q = (l.stack q).reverse := by
  simp only [stack, List.getElem?_map]
  cases l.rows[q.index]? <;> rfl

theorem index_lt_count {l : Lanes} {q : Qubit} (h : l.stack q ≠ []) : q.index < l.count := by
  by_contra hlt
  exact h (by rw [stack, List.getElem?_eq_none (Nat.le_of_not_lt hlt)]; rfl)

theorem all_isEmpty_iff {l : Lanes} : l.rows.all List.isEmpty = true ↔ ∀ q, l.stack q = [] := by
  simp only [List.all_eq_true, List.isEmpty_iff]
  constructor
  · intro h q
    cases hrow : l.rows[q.index]? with
    | none => simp [stack, hrow]
    | some row => simp [stack, hrow, h row (List.mem_of_getElem? hrow)]
  · intro h row hrow
    obtain ⟨i, hi⟩ := List.getElem?_of_mem hrow
    simpa [stack, hi] using h ⟨i⟩

end Lanes

namespace Schedule
variable {ops : List Operation} {s s' : Schedule} {slot i : Nat} {f : Footprint}

/-- What is still on the lane of a wire, the next slot first. -/
def queue (s : Schedule) : Wire → List Nat
  | .qubit q => s.qubitLanes.stack q
  | .clbit b => (s.clbitLanes.get? b).getD []

theorem getD_queueBits (m : OrderedMap Clbit (List Nat)) (slot : Nat) (op : Operation)
    (b : Clbit) : ((queueBits m slot op.footprint).get? b).getD [] =
      (m.get? b).getD [] ++ if op.isOn (.clbit b) then [slot] else [] := by
  rw [queueBits]
  cases huses : op.usesQubits with
  | false =>
    have hempty : op.footprint.qubits.isEmpty = true := by
      rwa [Operation.usesQubits, Bool.not_eq_false'] at huses
    simp [hempty, Operation.isOn, huses]
  | true =>
    have hempty : op.footprint.qubits.isEmpty = false := by
      rwa [Operation.usesQubits, Bool.not_eq_true'] at huses
    have hiff : b ∈ op.footprint.clbits ↔ op.isOn (.clbit b) = true := by
      rw [← Footprint.isOn_footprint huses, Footprint.isOn, decide_eq_true_eq]
    rw [hempty, if_neg (by simp), OrderedMap.getD_foldl_insert (· ++ [slot])
      (Footprint.distinct_footprint op).clbits]
    by_cases hb : op.isOn (.clbit b) = true
    · rw [if_pos (hiff.2 hb), if_pos hb]
    · rw [if_neg fun h => hb (hiff.1 h), if_neg hb, List.append_nil]

theorem getD_clbitLanes_start (lanes : Lanes) (ops : List Operation) (b : Clbit) :
    ((start lanes (ops.map Operation.footprint)).clbitLanes.get? b).getD [] =
      slotsWhere (·.isOn (.clbit b)) ops := by
  induction ops using List.reverseRecOn with
  | nil => rfl
  | append_singleton ops op ih =>
    rw [start] at ih ⊢
    dsimp only at ih ⊢
    rw [List.map_append, List.map_singleton, List.zipIdx_append, List.foldl_append,
      List.zipIdx_singleton, List.foldl_cons, List.foldl_nil, getD_queueBits, ih, slotsWhere_concat,
      List.length_map, Nat.zero_add]

/-- At the start the lane of each wire is whole. -/
theorem queue_start {c : Circuit} {pass : String} {lanes : Lanes}
    (h : Lanes.build c pass = .ok lanes) (w : Wire) :
    (start lanes (c.ops.map Operation.footprint)).queue w = slotsWhere (·.isOn w) c.ops := by
  cases w with
  | qubit q =>
    show (Lanes.mk (lanes.rows.map List.reverse)).stack q = _
    rw [Lanes.stack_map_reverse, Lanes.stack_build h, List.reverse_reverse, slotsOn_eq_slotsWhere]
    rfl
  | clbit b => exact getD_clbitLanes_start lanes c.ops b

theorem isReady_iff : s.isReady slot f = true ↔
    ∀ w, f.isOn w = true → (s.queue w).head? = some slot := by
  simp only [isReady, Bool.and_eq_true, List.all_eq_true, decide_eq_true_eq]
  constructor
  · rintro ⟨hqubits, hclbits⟩ w hw
    cases w with
    | qubit q => exact hqubits q (of_decide_eq_true hw)
    | clbit b => exact hclbits b (of_decide_eq_true hw)
  · intro h
    exact ⟨fun q hq => h (.qubit q) (decide_eq_true hq),
      fun b hb => h (.clbit b) (decide_eq_true hb)⟩

theorem queue_emit (hf : f.Distinct) (w : Wire) :
    (s.emit slot f).queue w = if f.isOn w then (s.queue w).tail else s.queue w := by
  cases w with
  | qubit q =>
    show (f.qubits.foldl Lanes.pop s.qubitLanes).stack q = _
    rw [Lanes.stack_foldl_pop _ hf.qubits]
    simp only [Footprint.isOn, decide_eq_true_eq, queue]
  | clbit b =>
    show ((f.clbits.foldl (fun m b => m.insert b ((m.get? b).getD []).tail) s.clbitLanes).get?
      b).getD [] = _
    rw [OrderedMap.getD_foldl_insert List.tail hf.clbits]
    simp only [Footprint.isOn, decide_eq_true_eq, queue]

end Schedule
end QuantumCircuit
