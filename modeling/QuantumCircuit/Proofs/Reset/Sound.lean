import Mathlib.Data.List.Permutation
import QuantumCircuit.Proofs.Renamed
import QuantumCircuit.Proofs.Reset.Relabel

/-! Resets on basis states. A qubit that is not in use is 0, as a qubit is after a reset;
so a fresh qubit can take over. Along the whole run the qubits of the circuit keep apart
under the renaming, and the qubits that are still free are 0. -/
namespace QuantumCircuit

/-! ## What the fresh qubits are -/

/-- The given number of qubits from one on. -/
def qubitsFrom (start count : Nat) : List Qubit := (List.range' start count).map Qubit.mk

theorem qubitsFrom_succ (start count : Nat) :
    qubitsFrom start (count + 1) = ⟨start⟩ :: qubitsFrom (start + 1) count := by
  rw [qubitsFrom, List.range'_succ]
  rfl

theorem mem_qubitsFrom {start count : Nat} {q : Qubit} :
    q ∈ qubitsFrom start count ↔ start ≤ q.index ∧ q.index < start + count := by
  simp only [qubitsFrom, List.mem_map, List.mem_range'_1]
  constructor
  · rintro ⟨i, hi, rfl⟩
    exact hi
  · intro hq
    exact ⟨q.index, hq, rfl⟩

namespace Renaming
variable {r : Renaming}

section words
variable {qs : List Qubit}

/-- Each fresh qubit comes into both layouts and holds itself. -/
theorem layouts_renewAll (h : r.next + qs.length < wordBound) (p : Qubit) :
    ((r.renewAll qs).circuit.initial.get? p =
        if p ∈ qubitsFrom r.next qs.length then some p else r.circuit.initial.get? p) ∧
      (r.renewAll qs).circuit.output.get? p =
        if p ∈ qubitsFrom r.next qs.length then some p else r.circuit.output.get? p := by
  induction qs generalizing r with
  | nil => exact ⟨rfl, rfl⟩
  | cons q rest ih =>
    have hnext := next_renew h q
    rw [List.length_cons] at h
    obtain ⟨hinitial, houtput⟩ := ih (r := r.renew q) (by omega)
    rw [renewAll_cons, hinitial, houtput, hnext, List.length_cons, qubitsFrom_succ]
    simp only [renew, OrderedMap.get?_insert, List.mem_cons]
    by_cases hp : p = ⟨r.next⟩ <;> simp [hp]

/-- The latest fresh qubit for a target stands in for it. -/
theorem standIn_renewAll (h : r.next + qs.length < wordBound) :
    (r.renewAll qs).standIn = (qs.zip (qubitsFrom r.next qs.length)).foldl
      (fun m e => m.insert e.1 e.2) r.standIn := by
  induction qs generalizing r with
  | nil => rfl
  | cons q rest ih =>
    have hnext := next_renew h q
    rw [List.length_cons] at h
    rw [renewAll_cons, ih (by omega), hnext, List.length_cons, qubitsFrom_succ]
    rfl

theorem apply_renewAll (h : r.next + qs.length < wordBound) (p : Qubit) :
    (r.renewAll qs).apply p =
      (lastValue? p (qs.zip (qubitsFrom r.next qs.length))).getD (r.apply p) := by
  rw [apply, standIn_renewAll h, OrderedMap.get?_foldl_insert, apply]
  cases lastValue? p (qs.zip (qubitsFrom r.next qs.length)) <;> rfl

theorem apply_renewAll_of_not_mem (h : r.next + qs.length < wordBound) {p : Qubit}
    (hp : p ∉ qs) : (r.renewAll qs).apply p = r.apply p := by
  rw [apply_renewAll h]
  cases hlast : lastValue? p (qs.zip (qubitsFrom r.next qs.length)) with
  | none => rfl
  | some fresh => exact absurd (List.of_mem_zip (mem_of_lastValue? hlast)).1 hp

theorem apply_renewAll_of_mem (h : r.next + qs.length < wordBound) {p : Qubit} (hp : p ∈ qs) :
    (r.renewAll qs).apply p ∈ qubitsFrom r.next qs.length := by
  have hlen : qs.length = (qubitsFrom r.next qs.length).length := by simp [qubitsFrom]
  obtain ⟨fresh, hpair⟩ : ∃ fresh, (p, fresh) ∈ qs.zip (qubitsFrom r.next qs.length) := by
    have hfst := List.map_fst_zip (Nat.le_of_eq hlen)
    rw [← hfst] at hp
    obtain ⟨⟨q, fresh⟩, hmem, rfl⟩ := List.mem_map.1 hp
    exact ⟨fresh, hmem⟩
  obtain ⟨last, hlast⟩ := exists_lastValue? hpair
  rw [apply_renewAll h, hlast]
  exact (List.of_mem_zip (mem_of_lastValue? hlast)).2

end words

/-! ## The renaming keeps qubits apart -/

/-- The qubits below `base` are held apart: each stands for itself or has a fresh stand-in
of its own. -/
structure Apart (base : Nat) (r : Renaming) : Prop where
  base_le : base ≤ r.next
  fresh : ∀ q p, r.standIn.get? q = some p → base ≤ p.index ∧ p.index < r.next
  distinct : ∀ q q' p, r.standIn.get? q = some p → r.standIn.get? q' = some p → q = q'

section apart
variable {base : Nat} {q : Qubit}

theorem Apart.renew (h : r.Apart base) (hnext : (r.renew q).next = r.next + 1) :
    (r.renew q).Apart base := by
  have hnew : ∀ p p', (r.renew q).standIn.get? p = some p' →
      (p = q ∧ p' = ⟨r.next⟩) ∨ (p ≠ q ∧ r.standIn.get? p = some p') := by
    intro p p' hp
    rw [Renaming.renew, OrderedMap.get?_insert] at hp
    split at hp
    · next heq => exact .inl ⟨heq, (Option.some.inj hp).symm⟩
    · next hne => exact .inr ⟨hne, hp⟩
  refine ⟨hnext ▸ Nat.le_succ_of_le h.base_le, ?_, ?_⟩
  · intro p p' hp
    rw [hnext]
    rcases hnew p p' hp with ⟨-, rfl⟩ | ⟨-, hold⟩
    · exact ⟨h.base_le, Nat.lt_succ_self _⟩
    · exact ⟨(h.fresh p p' hold).1, Nat.lt_succ_of_lt (h.fresh p p' hold).2⟩
  · intro a b p ha hb
    rcases hnew a p ha with ⟨rfl, rfl⟩ | ⟨hane, hold⟩ <;>
      rcases hnew b _ hb with ⟨rfl, hp⟩ | ⟨hbne, hold'⟩
    · rfl
    · exact absurd (h.fresh b _ hold').2 (Nat.lt_irrefl _)
    · rw [hp] at hold
      exact absurd (h.fresh a _ hold).2 (Nat.lt_irrefl _)
    · exact h.distinct a b p hold hold'

theorem Apart.renewAll (h : r.Apart base) {qs : List Qubit}
    (hroom : r.next + qs.length < wordBound) : (r.renewAll qs).Apart base := by
  induction qs generalizing r with
  | nil => exact h
  | cons q rest ih =>
    have hnext := next_renew hroom q
    rw [List.length_cons] at hroom
    exact ih (h.renew hnext) (by omega)

theorem Apart.apply_cases (h : r.Apart base) (q : Qubit) :
    r.apply q = q ∨
      (r.standIn.get? q = some (r.apply q) ∧ base ≤ (r.apply q).index ∧
        (r.apply q).index < r.next) := by
  rw [apply]
  cases hq : r.standIn.get? q with
  | none => exact .inl rfl
  | some p => exact .inr ⟨rfl, h.fresh q p hq⟩

theorem Apart.apply_lt (h : r.Apart base) {q : Qubit} (hq : q.index < base) :
    (r.apply q).index < r.next := by
  rcases h.apply_cases q with hsame | ⟨-, -, hlt⟩
  · rw [hsame]
    exact Nat.lt_of_lt_of_le hq h.base_le
  · exact hlt

theorem Apart.injOn (h : r.Apart base) : Set.InjOn r.apply {q | q.index < base} := by
  intro p hp q hq heq
  replace hp : p.index < base := hp
  replace hq : q.index < base := hq
  rcases h.apply_cases p with hpp | ⟨hps, hple, -⟩ <;>
    rcases h.apply_cases q with hqq | ⟨hqs, hqle, -⟩
  · rw [← hpp, heq, hqq]
  · rw [← heq, hpp] at hqle
    omega
  · rw [heq, hqq] at hple
    omega
  · rw [heq] at hps
    exact h.distinct p q _ hps hqs

end apart

/-! ## The run -/

/-- The second state is the first one under the renaming, and what is free is 0. -/
structure Follows (base : Nat) (r : Renaming) (s t : BitState) : Prop where
  renamed : Renamed r.apply {q | q.index < base} s t
  free : ∀ q : Qubit, r.next ≤ q.index → t.qubits q = false

section follows
variable {base : Nat} {s t : BitState} {op : Operation}

/-- Instead of clearing qubits, let free ones stand in for them. -/
theorem Follows.reset (h : Follows base r s t) (hop : op.isReset = true)
    (hroom : r.next + op.targets.length < wordBound) :
    Follows base (r.renewAll op.targets) (op.exec s) t := by
  obtain ⟨e, rfl, hkind⟩ : ∃ e, op = .effect e ∧ e.kind = .reset := by
    cases op with
    | effect e => exact ⟨e, rfl, by simpa [Operation.isReset] using hop⟩
    | gate g => cases hop
    | compound children => cases hop
    | conditional cond body => cases hop
  have hexec : (Operation.effect e).exec s =
      { s with qubits := fun q => if q ∈ e.targets then false else s.qubits q } := by
    rw [Operation.exec, Effect.run, hkind]
  rw [hexec]
  refine ⟨⟨h.renamed.clbits, fun q hq => ?_⟩, fun q hq => h.free q ?_⟩
  · by_cases hmem : q ∈ e.targets
    · have hfresh := mem_qubitsFrom.1 (apply_renewAll_of_mem hroom hmem)
      exact (h.free _ hfresh.1).trans (if_pos hmem).symm
    · have hsame : (r.renewAll (Operation.effect e).targets).apply q = r.apply q :=
        apply_renewAll_of_not_mem hroom hmem
      rw [hsame, h.renamed.qubits q hq]
      exact (if_neg hmem).symm
  · rw [next_renewAll_of_lt hroom] at hq
    omega

theorem Follows.exec (h : Follows base r s t) (hr : r.Apart base)
    (hop : ∀ q, op.actsOn q = true → q.index < base) :
    Follows base r (op.exec s) ((op.mapQubits r.apply).exec t) := by
  refine ⟨h.renamed.exec hr.injOn hop, fun p hp => ?_⟩
  have hoff : (op.mapQubits r.apply).actsOn p = false := by
    by_contra hon
    obtain ⟨q, hq, rfl⟩ := Operation.actsOn_mapQubits.1 (Bool.eq_true_of_not_eq_false hon)
    have hlt := hr.apply_lt (hop q hq)
    omega
  rw [Operation.exec_qubits_of_not_actsOn hoff]
  exact h.free p hp

theorem Follows.execAll (h : Follows base r s t) (hr : r.Apart base) {leaves : List Operation}
    (hleaves : ∀ leaf ∈ leaves, ∀ q, leaf.actsOn q = true → q.index < base)
    (hroom : r.next + (Operation.resetTargets leaves).length < wordBound) :
    Follows base (r.renewAll (Operation.resetTargets leaves)) (Operation.execAll leaves s)
      (Operation.execAll (r.relabelLeaves leaves) t) := by
  induction leaves generalizing r s t with
  | nil => exact h
  | cons op rest ih =>
    have hrest : ∀ leaf ∈ rest, ∀ q, leaf.actsOn q = true → q.index < base :=
      fun leaf hleaf => hleaves leaf (List.mem_cons_of_mem _ hleaf)
    cases hreset : op.isReset with
    | true =>
      rw [Operation.resetTargets_cons_of_isReset hreset, List.length_append] at hroom
      have hhere : r.next + op.targets.length < wordBound := by omega
      rw [Operation.resetTargets_cons_of_isReset hreset, renewAll_append,
        relabelLeaves_cons_of_isReset r hreset]
      refine ih (h.reset hreset hhere) (hr.renewAll hhere) hrest ?_
      rw [next_renewAll_of_lt hhere]
      omega
    | false =>
      rw [Operation.resetTargets_cons_of_not_isReset hreset] at hroom ⊢
      rw [relabelLeaves_cons_of_not_isReset r hreset]
      exact ih (h.exec hr (hleaves op List.mem_cons_self)) hr hrest hroom

end follows
end Renaming

/-! ## The circuit -/

namespace Circuit
open Operation

/-- The qubit is above all that are in use or counted. -/
def IsAbove (c : Circuit) (q : Qubit) : Prop :=
  (∀ m, c.maxPhysical? = some m → m.index < q.index) ∧ c.numQubits ≤ q.index

variable {c : Circuit} {q : Qubit}

theorem isAbove_iff : c.IsAbove q ↔ c.ceiling ≤ q.index := by
  rw [IsAbove, ceiling, Nat.max_le]
  refine and_congr_left fun _ => ?_
  cases c.maxPhysical? with
  | none => simp
  | some m =>
    constructor
    · intro h
      exact h m rfl
    · rintro h _ ⟨⟩
      exact h

theorem HasRoom.apart (h : c.HasRoom) : c.unrenamed.Apart c.ceiling where
  base_le := Nat.le_of_eq h.next_unrenamed.symm
  fresh := by
    intro q p h
    cases h
  distinct := by
    intro q q' p h
    cases h

/-- The numbers of the fresh qubits are words. -/
theorem HasRoom.next_add_lt (h : c.HasRoom) :
    c.unrenamed.next + c.resetTargets.length < wordBound :=
  h.next_unrenamed.symm ▸ h

theorem HasRoom.numQubits_add_lt (h : c.HasRoom) :
    c.numQubits + c.resetTargets.length < wordBound :=
  Nat.lt_of_le_of_lt (Nat.add_le_add_right c.numQubits_le_ceiling _) h

end Circuit
end QuantumCircuit
