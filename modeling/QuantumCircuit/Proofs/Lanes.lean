import QuantumCircuit.Lanes.Build
import QuantumCircuit.Proofs.Validity

/-! The lanes of a circuit hold, for each qubit, the slots of the operations that
act on it. -/
namespace QuantumCircuit

/-- The slots of the operations that act on a qubit, in program order; the first
operation stands at slot `k`. -/
def slotsOn (q : Qubit) : Nat → List Operation → List Nat
  | _, [] => []
  | k, op :: rest => if op.actsOn q then k :: slotsOn q (k + 1) rest else slotsOn q (k + 1) rest

theorem le_of_mem_slotsOn {q : Qubit} {k i : Nat} {ops : List Operation}
    (h : i ∈ slotsOn q k ops) : k ≤ i := by
  induction ops generalizing k with
  | nil => cases h
  | cons op rest ih =>
    rw [slotsOn] at h
    split at h
    · rcases List.mem_cons.1 h with rfl | h
      · exact Nat.le_refl i
      · exact Nat.le_of_succ_le (ih h)
    · exact Nat.le_of_succ_le (ih h)

theorem mem_slotsOn_iff {q : Qubit} {k i : Nat} {ops : List Operation} :
    k + i ∈ slotsOn q k ops ↔ ∃ op, ops[i]? = some op ∧ op.actsOn q = true := by
  induction ops generalizing k i with
  | nil => simp [slotsOn]
  | cons op rest ih =>
    have hrest : k ∉ slotsOn q (k + 1) rest := fun h => Nat.not_succ_le_self k (le_of_mem_slotsOn h)
    cases i with
    | zero =>
      rw [slotsOn]
      by_cases hop : op.actsOn q = true
      · simp [hop]
      · simp [hop, hrest]
    | succ i =>
      have hih := @ih (k + 1) i
      rw [Nat.add_assoc, Nat.add_comm 1 i] at hih
      rw [slotsOn, List.getElem?_cons_succ, ← hih]
      split
      · simp
      · rfl

theorem mem_slotsOn {q : Qubit} {i : Nat} {ops : List Operation} :
    i ∈ slotsOn q 0 ops ↔ ∃ op, ops[i]? = some op ∧ op.actsOn q = true := by
  rw [← mem_slotsOn_iff (k := 0), Nat.zero_add]

theorem sorted_slotsOn (q : Qubit) (k : Nat) (ops : List Operation) :
    (slotsOn q k ops).Pairwise (· < ·) := by
  induction ops generalizing k with
  | nil => exact .nil
  | cons op rest ih =>
    rw [slotsOn]
    split
    · exact .cons (fun i hi => le_of_mem_slotsOn hi) (ih (k + 1))
    · exact ih (k + 1)

namespace Lanes

theorem stack_pushAll (l : Lanes) {qs : List Qubit} (hqs : qs.Nodup) (slot : Nat) (r : Qubit) :
    (l.pushAll qs slot).stack r = if r ∈ qs then slot :: l.stack r else l.stack r := by
  induction qs generalizing l with
  | nil => simp [pushAll]
  | cons q rest ih =>
    obtain ⟨hq, hrest⟩ := List.nodup_cons.1 hqs
    have hstep : l.pushAll (q :: rest) slot = (l.push q slot).pushAll rest slot := rfl
    rw [hstep, ih _ hrest, stack_push]
    by_cases hr : r = q
    · subst hr
      simp [hq]
    · simp [hr]

/-- An operation is put on the lanes of the qubits it acts on. -/
theorem stack_pushAll_qubits (l : Lanes) (op : Operation) (slot : Nat) (r : Qubit) :
    (l.pushAll op.qubits.toList slot).stack r =
      if op.actsOn r then slot :: l.stack r else l.stack r := by
  rw [stack_pushAll l op.qubits.nodup]
  have hiff : r ∈ op.qubits.toList ↔ op.actsOn r = true := Operation.mem_qubits
  by_cases hr : op.actsOn r = true
  · rw [if_pos (hiff.2 hr), if_pos hr]
  · rw [if_neg fun h => hr (hiff.1 h), if_neg hr]

/-- Each of the lanes loses its last slot. -/
theorem stack_foldl_pop (l : Lanes) {qs : List Qubit} (hqs : qs.Nodup) (r : Qubit) :
    (qs.foldl pop l).stack r = if r ∈ qs then (l.stack r).tail else l.stack r := by
  induction qs generalizing l with
  | nil => simp
  | cons q rest ih =>
    obtain ⟨hq, hrest⟩ := List.nodup_cons.1 hqs
    rw [List.foldl_cons, ih _ hrest, stack_pop]
    by_cases hr : r = q
    · subst hr
      simp [hq]
    · simp [hr]

theorem addFrom_spec (pass : String) {ops : List Operation} {k : Nat} {l l' : Lanes}
    (h : addFrom pass k ops l = .ok l') (q : Qubit) :
    l'.stack q = (slotsOn q k ops).reverse ++ l.stack q := by
  induction ops generalizing k l with
  | nil =>
    cases h
    rfl
  | cons op rest ih =>
    rw [addFrom, add] at h
    cases hcheck : op.check pass with
    | error e =>
      rw [hcheck] at h
      cases h
    | ok =>
      rw [hcheck] at h
      rw [ih h, stack_pushAll_qubits, slotsOn]
      split <;> simp

theorem addFrom_of_check (pass : String) {ops : List Operation}
    (h : ∀ op ∈ ops, op.check pass = .ok ()) (k : Nat) (l : Lanes) :
    ∃ l', addFrom pass k ops l = .ok l' := by
  induction ops generalizing k l with
  | nil => exact ⟨l, rfl⟩
  | cons op rest ih =>
    rw [addFrom, add, h op List.mem_cons_self]
    exact ih (fun op' hop' => h op' (List.mem_cons_of_mem _ hop')) (k + 1) _

/-- The lane of a qubit holds the slots of the operations on it, the latest
first. -/
theorem stack_build {c : Circuit} {pass : String} {l : Lanes} (h : build c pass = .ok l)
    (q : Qubit) : l.stack q = (slotsOn q 0 c.ops).reverse := by
  rw [addFrom_spec pass h, forCircuit, stack_ofCount, List.append_nil]

/-- The lanes of operations that pass the check can be built. -/
theorem exists_build {c : Circuit} (pass : String) (h : ∀ op ∈ c.ops, op.validate = .ok ()) :
    ∃ l, build c pass = .ok l :=
  addFrom_of_check pass (fun op hop => Operation.check_of_validate pass (h op hop)) 0 _

end Lanes
end QuantumCircuit
