import Mathlib
import QuantumCircuit.Proofs.Block.Width

/-! Gathering keeps the operations and, on every qubit, their order. -/
namespace QuantumCircuit
namespace BlockState
open Operation QuantumCircuit.Dynamic

variable {ops : List Operation} {n m : Nat} {s : BlockState} {op : Operation}

/-! ## Operations that stay -/

/-- Fixing an operation on qubits that have no open blocks. -/
theorem Steady.fix_all (h : Steady ops n (n + 1) s) (hop : ops[n]? = some op) {used : List Qubit}
    (hused : ∀ u ∈ used, s.tracker.anchorOf u = none) :
    Steady ops n (n + 1) (used.foldl (fix n) s) ∧
      (∀ x, (used.foldl (BlockState.fix n) s).tracker.anchorOf x = s.tracker.anchorOf x) ∧
      ∀ x, (x ∈ used ∨ s.tracker.lastFixed.get? x = some n) →
        (used.foldl (BlockState.fix n) s).tracker.lastFixed.get? x = some n := by
  induction used generalizing s with
  | nil => exact ⟨h, fun _ => rfl, by simp⟩
  | cons q rest ih =>
    have hone : Steady ops n (n + 1) (BlockState.fix n s q) :=
      ⟨h.inv.fix hop (hused q (by simp)), h.settled⟩
    obtain ⟨hall, hanchor, hfixed⟩ := ih hone fun u hu => hused u (List.mem_cons_of_mem _ hu)
    refine ⟨hall, hanchor, ?_⟩
    intro x hx
    refine hfixed x ?_
    rw [h.inv.lastFixed_fix]
    rcases hx with hx | hx
    · rcases List.mem_cons.1 hx with rfl | hx
      · exact .inr (if_pos rfl)
      · exact .inl hx
    · right
      split
      · rfl
      · exact hx

/-- Closing the block of a qubit fixes the operation there, and on the qubits
that were closed before it still is. -/
theorem Steady.close (h : Steady ops n (n + 1) s) (hop : ops[n]? = some op) (q : Qubit) :
    Steady ops n (n + 1) (close n s q) ∧
      ∀ x, (x = q ∨ s.tracker.anchorOf x = none ∧ s.tracker.lastFixed.get? x = some n) →
        (BlockState.close n s q).tracker.anchorOf x = none ∧
          (BlockState.close n s q).tracker.lastFixed.get? x = some n := by
  have hfin := h.finalize q
  have hanchor : (s.finalize q).tracker.anchorOf q = none := by
    rw [h.inv.anchorOf_finalize, if_pos rfl]
  refine ⟨⟨hfin.inv.fix hop hanchor, hfin.settled⟩, ?_⟩
  intro x hx
  have hsame : (BlockState.close n s q).tracker.anchorOf x = (s.finalize q).tracker.anchorOf x :=
    rfl
  rw [hsame, BlockState.close, hfin.inv.lastFixed_fix]
  rcases hx with rfl | ⟨hnone, hfixed⟩
  · exact ⟨hanchor, if_pos rfl⟩
  · refine ⟨by rw [h.inv.anchorOf_finalize, hnone, ite_self], ?_⟩
    split
    · rfl
    · rw [h.inv.lastFixed_finalize]
      split
      · next hroot =>
        -- the two qubits are in one block, which is not open
        have hq : s.tracker.anchorOf q = none := by
          rw [BlockTracker.anchorOf, ← hroot]
          exact hnone
        rw [hq, Option.none_or, hfixed]
      · exact hfixed

theorem Steady.close_all (h : Steady ops n (n + 1) s) (hop : ops[n]? = some op)
    (used : List Qubit) :
    Steady ops n (n + 1) (used.foldl (BlockState.close n) s) ∧
      ∀ x, (x ∈ used ∨ s.tracker.anchorOf x = none ∧ s.tracker.lastFixed.get? x = some n) →
        (used.foldl (BlockState.close n) s).tracker.anchorOf x = none ∧
          (used.foldl (BlockState.close n) s).tracker.lastFixed.get? x = some n := by
  induction used generalizing s with
  | nil => exact ⟨h, by simp⟩
  | cons q rest ih =>
    obtain ⟨hone, hfixed⟩ := h.close hop q
    obtain ⟨hall, hfixed'⟩ := ih hone
    refine ⟨hall, fun x hx => hfixed' x ?_⟩
    rcases hx with hx | hx
    · rcases List.mem_cons.1 hx with rfl | hx
      · exact .inr (hfixed x (.inl rfl))
      · exact .inl hx
    · exact .inr (hfixed x (.inr hx))

/-! ## One operation after another -/

theorem Steady.mono {m' : Nat} (h : Steady ops n m s) (hm : m ≤ m') : Steady ops n m' s :=
  ⟨h.inv.mono hm, h.settled⟩

/-- The room that an operation needs is made by writing blocks; all the blocks of
its qubits are written if it is too wide to join any. -/
theorem Steady.makeRoom (h : Steady ops n m s) (limit : Nat) {used : List Qubit}
    (hnodup : used.Nodup) :
    Steady ops n m (makeRoom limit s used) ∧
      (limit < used.length →
        ∀ u ∈ used, (BlockState.makeRoom limit s used).tracker.anchorOf u = none) := by
  obtain ⟨hvalid, hsame, -, -⟩ := h.inv.valid.findAll used
  have hfound := h.sameBlocks hvalid hsame
  have hcombined := h.inv.valid.length_le_gathered hnodup
  rw [← h.inv.valid.combined_eq] at hcombined
  rw [BlockState.makeRoom]
  dsimp only
  split
  · split
    · have hnil : OpenRanking (s.tracker.findAll used).2 [] :=
        ⟨fun _ he => (List.not_mem_nil he).elim, List.nodup_nil⟩
      obtain ⟨t, ht, hvalid', hsame', hopen, -, hcovers⟩ :=
        openBlocks_spec hfound.inv used hnil
      have hperm := descending_perm
        (({ s with tracker := (s.tracker.findAll used).2 } : BlockState).openBlocks used []).1
      obtain ⟨hwritten, hnone⟩ := (hfound.sameBlocks hvalid' hsame').packAndFinalize limit
        ((hopen.sameBlocks hsame').perm hperm) ((hcovers.sameBlocks hsame').perm hperm)
      rw [ht]
      exact ⟨hwritten, fun _ => hnone⟩
    · next hnarrow => exact ⟨hfound.finalizeBySavings limit used, fun hwide => absurd hwide hnarrow⟩
  · next hfits => exact ⟨hfound, fun hwide => absurd (Nat.lt_of_lt_of_le hwide hcombined) hfits⟩

theorem Steady.takeIn (h : Steady ops n n s) (limit : Nat) (hop : ops[n]? = some op)
    (hne : op.qubits.toList ≠ []) :
    Steady ops (n + 1) (n + 1) (s.takeIn limit op.qubits.toList n) := by
  have hmem : ∀ x, op.actsOn x = true → x ∈ op.qubits.toList := fun x hx => mem_qubits.2 hx
  obtain ⟨hroom, hnone⟩ := h.makeRoom limit op.qubits.nodup
  rw [BlockState.takeIn]
  split
  · next hwide =>
    obtain ⟨hfixed, hanchor, hlast⟩ := (hroom.mono (Nat.le_succ n)).fix_all hop (hnone hwide)
    refine ⟨hfixed.inv.stay hop fun x hx => ?_, hfixed.settled⟩
    exact ⟨(hanchor x).trans (hnone hwide x (hmem x hx)), hlast x (.inl (hmem x hx))⟩
  · obtain ⟨hreleased, hcompat⟩ := hroom.releaseStale op.qubits.toList
    obtain ⟨hinv, hsettled⟩ := hreleased.inv.absorb hreleased.settled hcompat hop hne hmem
    exact ⟨hinv, hsettled⟩

theorem Steady.step (h : Steady ops n n s) (limit : Nat) (hn : n < ops.length) :
    Steady ops (n + 1) (n + 1) (step limit s n) := by
  have hop : ops[n]? = some ops[n] := List.getElem?_eq_getElem hn
  rw [BlockState.step, h.inv.slot_eq hop]
  dsimp only
  split
  · next hempty =>
    have hmono := h.mono (Nat.le_succ n)
    refine ⟨hmono.inv.stay hop fun x hx => ?_, h.settled⟩
    have hin : x ∈ ops[n].qubits.toList := mem_qubits.2 hx
    rw [List.isEmpty_iff.1 hempty] at hin
    cases hin
  · next hne =>
    split
    · exact h.takeIn limit hop fun hnil => hne (List.isEmpty_iff.2 hnil)
    · obtain ⟨hall, hclosed⟩ := (h.mono (Nat.le_succ n)).close_all hop ops[n].qubits.toList
      exact ⟨hall.inv.stay hop fun x hx => hclosed x (.inl (mem_qubits.2 hx)), hall.settled⟩

theorem steady_after (limit : Nat) (ops : List Operation) :
    ∀ n ≤ ops.length, Steady ops n n (after limit ops n) := by
  intro n
  induction n with
  | zero => exact fun _ => ⟨inv_ofOps ops, BlockTracker.settled_empty⟩
  | succ n ih =>
    intro hn
    rw [after, List.range_succ, List.foldl_append]
    exact (ih (Nat.le_of_succ_le hn)).step limit hn

/-! ## The end -/

theorem Steady.finalize_all (h : Steady ops n m s) (qs : List Qubit) :
    Steady ops n m (qs.foldl BlockState.finalize s) ∧
      ∀ x, (x ∈ qs ∨ s.tracker.anchorOf x = none) →
        (qs.foldl BlockState.finalize s).tracker.anchorOf x = none := by
  induction qs generalizing s with
  | nil => exact ⟨h, by simp⟩
  | cons q rest ih =>
    obtain ⟨hall, hnone⟩ := ih (h.finalize q)
    refine ⟨hall, fun x hx => hnone x ?_⟩
    rw [h.inv.anchorOf_finalize]
    rcases hx with hx | hx
    · rcases List.mem_cons.1 hx with rfl | hx
      · exact .inr (if_pos rfl)
      · exact .inl hx
    · rw [hx, ite_self]
      exact .inr rfl

theorem Steady.finalizeAll (h : Steady ops n m s) :
    Steady ops n m s.finalizeAll ∧ ∀ x, s.finalizeAll.tracker.anchorOf x = none := by
  obtain ⟨hall, hnone⟩ := h.finalize_all s.tracker.parent.keys
  refine ⟨hall, fun x => hnone x ?_⟩
  cases ha : s.tracker.anchorOf x with
  | none => exact .inr rfl
  | some a => exact .inl (OrderedMap.mem_keys.2 (h.inv.valid.knows_of_anchor ha))

theorem gather_eq (limit : Nat) (ops : List Operation) :
    gather limit ops = filled (after limit ops ops.length).finalizeAll.slots := rfl

/-- Gathering keeps what happens on each qubit. -/
theorem leavesOn_gather (limit : Nat) (ops : List Operation) (q : Qubit) :
    leavesOn q (gather limit ops) = leavesOn q ops := by
  obtain ⟨hend, hnone⟩ := (steady_after limit ops ops.length (Nat.le_refl _)).finalizeAll
  have hprogram := hend.inv.program q
  have hlen : (after limit ops ops.length).finalizeAll.slots.length ≤ ops.length := by
    have hrest := hend.inv.rest ops.length (Nat.le_refl _)
    rw [List.getElem?_eq_none (Nat.le_refl _)] at hrest
    exact List.getElem?_eq_none_iff.1 hrest
  rwa [hend.inv.valid.bodyOf_eq_nil (hnone q), leavesOn_nil, List.append_nil,
    List.take_of_length_le hlen, List.take_length, ← gather_eq] at hprogram

/-- Gathering keeps the operations. -/
theorem leavesOfAll_gather (limit : Nat) (ops : List Operation) :
    (leavesOfAll (gather limit ops)).Perm (leavesOfAll ops) := by
  obtain ⟨hend, hnone⟩ := (steady_after limit ops ops.length (Nat.le_refl _)).finalizeAll
  have hcontent := hend.inv.content
  have hno : ∀ r, (after limit ops ops.length).finalizeAll.tracker.anchors.get? r = none := by
    intro r
    cases ha : (after limit ops ops.length).finalizeAll.tracker.anchors.get? r with
    | none => rfl
    | some a => rw [← hnone r, hend.inv.valid.anchorOf_of_anchor ha]
  rwa [hend.inv.valid.pending_eq_nil hno, leavesOfAll_nil, List.append_nil,
    ← gather_eq] at hcontent

end BlockState

/-! ## Circuits -/

theorem Outcome.andThen_eq_done {σ : Type} {o : Outcome σ} {next : σ → Outcome σ} {r : σ} :
    o.andThen next = .done r ↔ ∃ s, o = .done s ∧ next s = .done r := by
  cases o <;> simp [andThen]

namespace Circuit
open Operation QuantumCircuit.Dynamic

/-- What collecting blocks does to a circuit of several operations. -/
theorem collectBlocks_eq_done {c out : Circuit} {limit : Nat} (hops : 1 < c.ops.length)
    (h : c.collectBlocks limit = .done out) :
    ∃ deferred, c.reorder.andThen deferMeasurements = .done deferred ∧
      out.ops = stripAll (BlockState.gather limit deferred.ops) := by
  rw [collectBlocks, if_neg (Nat.not_le.2 hops)] at h
  split at h
  · cases h
  · obtain ⟨deferred, hdeferred, hout⟩ := Outcome.andThen_eq_done.1 h
    cases hout
    exact ⟨deferred, hdeferred, rfl⟩

/-- Collecting blocks keeps the program of every qubit. Compared with the circuit
in canonical order, with its measurements deferred and its identities removed,
the leaves that act on a qubit are the same in the same order, and none is lost
or added. -/
theorem collectBlocks_keeps_programs {c out : Circuit} {limit : Nat} (hops : 1 < c.ops.length)
    (h : c.collectBlocks limit = .done out) :
    ∃ deferred, c.reorder.andThen deferMeasurements = .done deferred ∧
      (∀ q, out.flatten.ops.filter (·.actsOn q) =
        deferred.removeIdentities.flatten.ops.filter (·.actsOn q)) ∧
      out.flatten.ops.Perm deferred.removeIdentities.flatten.ops := by
  obtain ⟨deferred, hdeferred, hout⟩ := collectBlocks_eq_done hops h
  refine ⟨deferred, hdeferred, ?_, ?_⟩
  · intro q
    show leavesOn q out.ops = leavesOn q (stripAll deferred.ops)
    rw [hout, leavesOn_stripAll, leavesOn_stripAll, BlockState.leavesOn_gather]
  · show (leavesOfAll out.ops).Perm (leavesOfAll (stripAll deferred.ops))
    rw [hout, leavesOfAll_stripAll, leavesOfAll_stripAll]
    exact (BlockState.leavesOfAll_gather limit deferred.ops).filter _

/-- Gates before and after a barrier, and one on three qubits. -/
def fenced : Circuit :=
  { withSize "fenced" 4 0 with
    ops := [.gate (.cnot ⟨0⟩ ⟨1⟩), .gate (.ofKind .h [⟨2⟩]), .gate (.ofKind .h [⟨0⟩]),
      .effect { kind := .barrier, targets := [⟨0⟩] }, .gate (.ofKind .h [⟨1⟩]),
      .gate (.controlled .x [.pos ⟨0⟩, .pos ⟨1⟩] [⟨3⟩]), .gate (.ofKind .h [⟨1⟩])] }

theorem collectBlocks_fenced_programs :
    1 < fenced.ops.length ∧ ∃ out, fenced.collectBlocks 2 = .done out ∧
      ∃ deferred, fenced.reorder.andThen deferMeasurements = .done deferred ∧
        (∀ q, out.flatten.ops.filter (·.actsOn q) =
          deferred.removeIdentities.flatten.ops.filter (·.actsOn q)) ∧
        out.flatten.ops.Perm deferred.removeIdentities.flatten.ops := by
  obtain ⟨out, hout⟩ : ∃ out, fenced.collectBlocks 2 = .done out := ⟨_, by cbv⟩
  exact ⟨by decide, out, hout, collectBlocks_keeps_programs (by decide) hout⟩

end Circuit
end QuantumCircuit
