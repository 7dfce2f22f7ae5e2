import QuantumCircuit.Backpropagation
import QuantumCircuit.Proofs.Leaves
import QuantumCircuit.Proofs.Ordered

/-! Placements going back through a circuit. Undoing SWAPs sees the leaves alone, and
what undoing one SWAP keeps holds at the start of the circuit. The pool does not run
out, since every logical qubit that leaves it goes to a physical qubit that had none. -/
namespace QuantumCircuit
open Operation

namespace Layout

theorem isSome_get?_identity {n : Nat} {q : Qubit} :
    ((identity n).get? q).isSome = true ↔ q.index < n := by
  rw [← OrderedMap.mem_keys, OrderedMap.keys, identity, List.map_map, List.mem_map]
  constructor
  · rintro ⟨i, hi, rfl⟩
    exact List.mem_range.1 hi
  · intro h
    exact ⟨q.index, List.mem_range.2 h, rfl⟩

/-- Exchanging two qubits exchanges what they hold, also where one of them holds
nothing. -/
theorem get?_swap (l : Layout) (a b q : Qubit) :
    (l.swap a b).get? q = if q = b then l.get? a else if q = a then l.get? b else l.get? q := by
  by_cases hab : b = a
  · subst hab
    cases hb : l.get? b <;> by_cases hq : q = b <;> simp [swap, hb, hq]
  · have hba : ¬ a = b := fun h => hab h.symm
    cases ha : l.get? a <;> cases hb : l.get? b <;> by_cases hqb : q = b <;>
      by_cases hqa : q = a <;> simp_all [swap]

/-- Qubits that are both placed are placed after an exchange, and so are the others. -/
theorem isSome_get?_swap {l : Layout} {a b : Qubit} (ha : (l.get? a).isSome)
    (hb : (l.get? b).isSome) (q : Qubit) : ((l.swap a b).get? q).isSome = (l.get? q).isSome := by
  rw [get?_swap]
  by_cases hqb : q = b
  · subst hqb
    rw [if_pos rfl, ha, hb]
  · by_cases hqa : q = a
    · subst hqa
      rw [if_neg hqb, if_pos rfl, ha, hb]
    · rw [if_neg hqb, if_neg hqa]

theorem size_le {l : Layout} {n : Nat} (h : ∀ q, (l.get? q).isSome → q.index < n) :
    l.size ≤ n := by
  have hle : l.size ≤ (identity n).size :=
    OrderedMap.size_le_size fun q hq => isSome_get?_identity.2 (h q hq)
  simpa [OrderedMap.size, identity] using hle

end Layout

/-! ## SWAPs -/

namespace Operation

/-- The two qubits that a SWAP without controls exchanges. -/
def exchanged? (op : Operation) : Option (Qubit × Qubit) := do
  let g ← op.asGate?
  guard g.isSwap
  let a ← g.targets[0]?
  let b ← g.targets[1]?
  return (a, b)

theorem exchanged?_eq_some_iff {op : Operation} {a b : Qubit} :
    op.exchanged? = some (a, b) ↔ ∃ g, op = .gate g ∧ g.isSwap = true ∧ g.targets = [a, b] := by
  cases op with
  | compound children => simp [exchanged?, asGate?]
  | effect e => simp [exchanged?, asGate?]
  | conditional cond body => simp [exchanged?, asGate?]
  | gate g =>
    cases hswap : g.isSwap with
    | false => simp [exchanged?, asGate?, hswap]
    | true =>
      have hlength : g.targets.length = 2 := by
        simp only [Gate.isSwap, Bool.and_eq_true, decide_eq_true_eq] at hswap
        exact hswap.2
      obtain ⟨c, d, htargets⟩ := List.length_eq_two.1 hlength
      simp [exchanged?, asGate?, hswap, htargets]

theorem actsOn_of_exchanged {op : Operation} {a b : Qubit} (h : op.exchanged? = some (a, b)) :
    op.actsOn a = true ∧ op.actsOn b = true := by
  obtain ⟨g, rfl, -, htargets⟩ := exchanged?_eq_some_iff.1 h
  simp [actsOn, Gate.actsOn, htargets]

end Operation

namespace Placement
variable {n : Nat} {p : Placement}

/-! ## The leaves -/

theorem undoAll_append (as bs : List Operation) (p : Placement) :
    undoAll (as ++ bs) p = (undoAll bs p).bind (undoAll as) := by
  induction as generalizing p with
  | nil =>
    rw [List.nil_append]
    cases undoAll bs p <;> rfl
  | cons op rest ih =>
    rw [List.cons_append, undoAll, ih]
    cases undoAll bs p <;> rfl

-- As for the other functions on operations, the statement over a list follows from that
-- for each operation in it.
theorem undoAll_leavesOfAll_of {ops : List Operation}
    (h : ∀ op ∈ ops, ∀ p, undoAll op.leaves p = undo op p) (p : Placement) :
    undoAll (leavesOfAll ops) p = undoAll ops p := by
  induction ops with
  | nil => rfl
  | cons op rest ih =>
    rw [leavesOfAll_cons, undoAll_append, undoAll,
      ih fun o ho => h o (List.mem_cons_of_mem _ ho)]
    cases undoAll rest p with
    | ok p' => exact h op List.mem_cons_self p'
    | error e => rfl

theorem undoAll_leaves (op : Operation) (p : Placement) : undoAll op.leaves p = undo op p := by
  induction op using inductionOn generalizing p with
  | gate g => rfl
  | effect e => rfl
  | conditional cond body _ => rfl
  | compound children ih =>
    rw [leaves_compound, undo]
    exact undoAll_leavesOfAll_of ih p

/-- The SWAPs of a list are those of its leaves. -/
theorem undoAll_leavesOfAll (ops : List Operation) (p : Placement) :
    undoAll (leavesOfAll ops) p = undoAll ops p :=
  undoAll_leavesOfAll_of (fun op _ => undoAll_leaves op) p

theorem undo_of_exchanged {leaf : Operation} {a b : Qubit} (h : leaf.exchanged? = some (a, b))
    (p : Placement) : undo leaf p = p.undoSwap a b := by
  obtain ⟨g, rfl, hswap, htargets⟩ := exchanged?_eq_some_iff.1 h
  simp [undo, hswap, htargets]

theorem undo_of_not_exchanged {leaf : Operation} (hleaf : leaf.isCompound = false)
    (h : leaf.exchanged? = none) (p : Placement) : undo leaf p = .ok p := by
  cases leaf with
  | compound children => cases hleaf
  | effect e => rfl
  | conditional cond body => rfl
  | gate g =>
    unfold undo
    split
    · next a b hswap htargets =>
      rw [exchanged?_eq_some_iff.2 ⟨g, rfl, hswap, htargets⟩] at h
      cases h
    · rfl

/-- SWAPs are undone from the last one on. A statement about the leaves that are done holds
for all of them if it holds for none and each SWAP, once undone, can be added to them. -/
theorem exists_undoAll (inv : List Operation → Placement → Prop) {ops : List Operation}
    (hnone : inv [] p)
    (hskip : ∀ {leaf : Operation} {rest : List Operation} {p : Placement},
      leaf.exchanged? = none → inv rest p → inv (leaf :: rest) p)
    (hswap : ∀ {leaf : Operation} {rest : List Operation} {p : Placement} {a b : Qubit},
      leaf ∈ leavesOfAll ops → leaf.exchanged? = some (a, b) → inv rest p →
      ∃ p', p.undoSwap a b = .ok p' ∧ inv (leaf :: rest) p') :
    ∃ p', undoAll ops p = .ok p' ∧ inv (leavesOfAll ops) p' := by
  have hleaf : ∀ leaf ∈ leavesOfAll ops, leaf.isCompound = false :=
    fun _ => isCompound_of_mem_leavesOfAll
  rw [← undoAll_leavesOfAll]
  generalize leavesOfAll ops = leaves at hleaf hswap
  induction leaves with
  | nil => exact ⟨p, rfl, hnone⟩
  | cons leaf rest ih =>
    obtain ⟨p', hrest, hinv⟩ := ih (fun o ho => hleaf o (List.mem_cons_of_mem _ ho))
      fun ho => hswap (List.mem_cons_of_mem _ ho)
    rw [undoAll, hrest]
    cases hpair : leaf.exchanged? with
    | none =>
      exact ⟨p', undo_of_not_exchanged (hleaf leaf List.mem_cons_self) hpair p', hskip hpair hinv⟩
    | some pair =>
      obtain ⟨p'', hundo, hinv'⟩ := hswap List.mem_cons_self hpair hinv
      exact ⟨p'', (undo_of_exchanged hpair p').trans hundo, hinv'⟩

/-! ## The pool -/

/-- Placing a logical qubit succeeds as long as there is one in the pool. -/
theorem exists_fill (q : Qubit) (h : 0 < p.pool.size) :
    ∃ l ∈ p.pool, p.fill q = .ok ⟨p.layout.insert q l, p.pool.erase l⟩ := by
  by_cases hq : q ∈ p.pool
  · exact ⟨q, hq, by rw [fill, take, if_pos hq]⟩
  · obtain ⟨l, hl⟩ : ∃ l, p.pool.min? = some l := by
      obtain ⟨l, rest, hcons⟩ := List.exists_cons_of_length_pos h
      exact ⟨l, by rw [OrderedSet.min?, hcons]; rfl⟩
    exact ⟨l, List.mem_of_head? hl, by rw [fill, take, if_neg hq, hl]⟩

/-- Only the first `n` qubits are placed, and the pool suffices for those that are not. -/
structure Room (n : Nat) (p : Placement) : Prop where
  below : ∀ q, (p.layout.get? q).isSome → q.index < n
  enough : n ≤ p.layout.size + p.pool.size

theorem below_insert {layout : Layout} (h : ∀ r, (layout.get? r).isSome → r.index < n)
    {q : Qubit} (hq : q.index < n) (l : Qubit) :
    ∀ r, ((layout.insert q l).get? r).isSome → r.index < n := by
  intro r hr
  rw [OrderedMap.get?_insert] at hr
  split at hr
  · next hrq => exact hrq ▸ hq
  · exact h r hr

-- A layout of the first `n` qubits has at most `n` entries, so a total above `n` means that
-- the pool is not empty.
theorem room_fill (hbelow : ∀ r, (p.layout.get? r).isSome → r.index < n) {q : Qubit}
    (hq : q.index < n) (h : ∀ l, n < (p.layout.insert q l).size + p.pool.size) :
    ∃ p', p.fill q = .ok p' ∧ p'.Room n := by
  have hpool : 0 < p.pool.size := by
    have hsize := Layout.size_le (below_insert hbelow hq q)
    have hcount := h q
    omega
  obtain ⟨l, -, hfill⟩ := exists_fill q hpool
  refine ⟨_, hfill, below_insert hbelow hq l, ?_⟩
  have hcount := h l
  have herase := p.pool.size_le_size_erase l
  dsimp only
  omega

/-- If only one of two qubits is placed, what it holds moves over and it is given
something new. -/
theorem Room.fill_moved (h : p.Room n) {a b : Qubit} (ha : a.index < n) (hb : b.index < n)
    (hfree : p.layout.get? b = none) (l : Qubit) :
    ∃ p', fill a { p with layout := p.layout.insert b l } = .ok p' ∧ p'.Room n := by
  refine room_fill (below_insert h.below hb l) ha fun l' => ?_
  have hgrows := OrderedMap.size_lt_size_insert hfree l
  have hkeeps := OrderedMap.size_le_size_insert (p.layout.insert b l) a l'
  have henough := h.enough
  dsimp only
  omega

theorem Room.undoSwap (h : p.Room n) {a b : Qubit} (ha : a.index < n) (hb : b.index < n) :
    ∃ p', p.undoSwap a b = .ok p' ∧ p'.Room n := by
  cases hga : p.layout.get? a with
  | none =>
    cases hgb : p.layout.get? b with
    | none => exact ⟨p, by rw [Placement.undoSwap, hga, hgb], h⟩
    | some l =>
      rw [Placement.undoSwap, hga, hgb]
      exact h.fill_moved hb ha hga l
  | some l =>
    cases hgb : p.layout.get? b with
    | none =>
      rw [Placement.undoSwap, hga, hgb]
      exact h.fill_moved ha hb hgb l
    | some l' =>
      have hkeys := Layout.isSome_get?_swap (l := p.layout) (a := a) (b := b) (by simp [hga])
        (by simp [hgb])
      refine ⟨_, by rw [Placement.undoSwap, hga, hgb], fun q hq => h.below q (hkeys q ▸ hq), ?_⟩
      have hsize : p.layout.size ≤ (p.layout.swap a b).size :=
        OrderedMap.size_le_size fun q hq => (hkeys q).trans hq
      have henough := h.enough
      dsimp only
      omega

theorem Room.complete (h : p.Room n) {q : Qubit} (hq : q.index < n) :
    ∃ p', p.complete q = .ok p' ∧ p'.Room n := by
  rw [Placement.complete]
  split
  · exact ⟨p, rfl, h⟩
  · next hfree =>
    rw [Bool.not_eq_true, OrderedMap.contains_eq_false] at hfree
    refine room_fill h.below hq fun l => ?_
    have hgrows := OrderedMap.size_lt_size_insert hfree l
    have henough := h.enough
    omega

/-- At the end of a circuit no more qubits are out of the pool than the output layout
has entries. -/
theorem room_ofOutput {c : Circuit} (h : ∀ q, (c.output.get? q).isSome → q.index < c.numQubits) :
    (ofOutput c).Room c.numQubits := by
  refine ⟨h, ?_⟩
  let qubits := (List.range c.numQubits).map Qubit.mk
  have hnodup : qubits.Nodup := List.nodup_range.map fun _ _ h => congrArg Qubit.index h
  have hheld : (qubits.filter (c.output.values.contains ·)).length ≤ c.output.size := by
    have hsub : qubits.filter (c.output.values.contains ·) ⊆ c.output.values := by
      intro q hq
      exact List.contains_iff_mem.1 (List.mem_filter.1 hq).2
    have hlen := (List.subperm_of_subset (hnodup.filter _) hsub).length_le
    simpa [OrderedMap.values, OrderedMap.size] using hlen
  have hpool : (qubits.filter (!c.output.values.contains ·)).length ≤ (ofOutput c).pool.size :=
    OrderedSet.length_le_size (hnodup.filter _) fun q hq => OrderedSet.mem_ofList.2 hq
  have hcount : (qubits.filter (c.output.values.contains ·)).length +
      (qubits.filter (!c.output.values.contains ·)).length = c.numQubits := by
    have hsplit := List.length_eq_length_filter_add (l := qubits) (c.output.values.contains ·)
    simpa [qubits] using hsplit.symm
  show c.numQubits ≤ c.output.size + (ofOutput c).pool.size
  omega

end Placement

/-! ## The start of a circuit -/

namespace Circuit

/-- The placement at the start, with every counted qubit placed. -/
def startPlacement (c : Circuit) : Except PassError Placement :=
  (Placement.undoAll c.ops (.ofOutput c)).bind fun p =>
    if p.layout.size = c.numQubits then .ok p
    else p.completeAll ((List.range c.numQubits).map Qubit.mk)

theorem backpropagateOutput_eq (c : Circuit) :
    c.backpropagateOutput =
      .ofExcept c (c.startPlacement.map fun p => { c with initial := p.layout }) := by
  have hdo : c.startPlacement = (do
      let p ← Placement.undoAll c.ops (.ofOutput c)
      if p.layout.size = c.numQubits then pure p
      else p.completeAll ((List.range c.numQubits).map Qubit.mk)) := rfl
  rw [backpropagateOutput, ← hdo]
  cases c.startPlacement <;> rfl

end Circuit
end QuantumCircuit
