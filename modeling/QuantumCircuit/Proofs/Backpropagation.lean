import Mathlib.Logic.Equiv.Basic
import QuantumCircuit.Proofs.Placement

/-! The initial layout inverts the SWAPs. Undoing a SWAP exchanges two entries and may then
place one logical qubit from the pool on a free qubit. Whatever is placed later only extends the
layout, and every extension leads to the output layout when the SWAPs are replayed. -/
namespace QuantumCircuit
open Operation

/-! ## Layouts -/

namespace Layout
variable {l m k : Layout}

/-- The layout after an operation: a SWAP without controls exchanges two entries. -/
def after (l : Layout) (op : Operation) : Layout :=
  (op.exchanged?.map fun pair => l.swap pair.1 pair.2).getD l

/-- The layout after several operations. -/
def replay (l : Layout) (ops : List Operation) : Layout := ops.foldl after l

/-- What the second layout places, the first places in the same way. -/
def Extends (l m : Layout) : Prop := ∀ ⦃q x : Qubit⦄, m.get? q = some x → l.get? q = some x

/-- No logical qubit is held twice. -/
def Injective (l : Layout) : Prop :=
  ∀ ⦃q r x : Qubit⦄, l.get? q = some x → l.get? r = some x → q = r

theorem get?_swap_eq (l : Layout) (a b q : Qubit) :
    (l.swap a b).get? q = l.get? (Equiv.swap a b q) := by
  rw [get?_swap, Equiv.swap_apply_def]
  by_cases hqa : q = a
  · by_cases hab : a = b <;> simp [hqa, hab]
  · by_cases hqb : q = b <;> simp_all

theorem swap_comm (l : Layout) (a b : Qubit) : l.swap a b = l.swap b a := by
  refine OrderedMap.eq_of_get? fun q => ?_
  rw [get?_swap_eq, get?_swap_eq, Equiv.swap_comm]

theorem swap_swap (l : Layout) (a b : Qubit) : (l.swap a b).swap a b = l := by
  refine OrderedMap.eq_of_get? fun q => ?_
  rw [get?_swap_eq, get?_swap_eq, Equiv.swap_apply_self]

/-- Where one qubit receives something new anyway, only what it held has to move over. -/
theorem insert_swap {a x : Qubit} (h : l.get? a = some x) (b y : Qubit) :
    (l.swap a b).insert a y = (l.insert b x).insert a y := by
  refine OrderedMap.eq_of_get? fun q => ?_
  by_cases hqa : q = a <;> by_cases hqb : q = b <;> simp_all [get?_swap]

theorem swap_eq_self {a b : Qubit} (ha : l.get? a = none) (hb : l.get? b = none) :
    l.swap a b = l := by
  refine OrderedMap.eq_of_get? fun q => ?_
  by_cases hqa : q = a <;> by_cases hqb : q = b <;> simp_all [get?_swap]

theorem Extends.trans (h : l.Extends m) (h' : m.Extends k) : l.Extends k :=
  fun _ _ hq => h (h' hq)

theorem Extends.swap (h : l.Extends m) (a b : Qubit) : (l.swap a b).Extends (m.swap a b) := by
  intro q x hq
  rw [get?_swap_eq] at hq ⊢
  exact h hq

theorem Injective.swap (h : l.Injective) (a b : Qubit) : (l.swap a b).Injective := by
  intro q r x hq hr
  rw [get?_swap_eq] at hq hr
  exact (Equiv.swap a b).injective (h hq hr)

end Layout

/-! ## Placing a logical qubit from the pool -/

namespace Placement
variable {n : Nat} {p p' : Placement} {a b : Qubit} {out : Layout}

/-- Nothing has changed, or a free qubit has received a logical qubit from the pool. -/
inductive Grown (p : Placement) : Placement → Prop
  | same : Grown p p
  | filled {q l : Qubit} : p.layout.get? q = none → l ∈ p.pool →
      Grown p ⟨p.layout.insert q l, p.pool.erase l⟩

/-- No logical qubit is held twice, and none that is held is in the pool. -/
structure Apart (p : Placement) : Prop where
  injective : p.layout.Injective
  free : ∀ ⦃q l : Qubit⦄, p.layout.get? q = some l → l ∉ p.pool

theorem Grown.extends (h : p.Grown p') : p'.layout.Extends p.layout := by
  cases h with
  | same => exact fun _ _ hr => hr
  | @filled q l hfree _ =>
    intro r x hr
    have hne : r ≠ q := by
      rintro rfl
      rw [hfree] at hr
      cases hr
    rw [OrderedMap.get?_insert, if_neg hne, hr]

theorem Grown.apart (h : p.Grown p') (hp : p.Apart) : p'.Apart := by
  cases h with
  | same => exact hp
  | @filled q l hfree hl =>
    -- the new qubit comes from the pool, so nobody holds it
    have hnew : ∀ {r : Qubit}, p.layout.get? r ≠ some l := fun hr => hp.free hr hl
    constructor
    · intro r s x hr hs
      rw [OrderedMap.get?_insert] at hr hs
      split at hr <;> split at hs
      · next hrq hsq => rw [hrq, hsq]
      · cases hr
        exact absurd hs hnew
      · cases hs
        exact absurd hr hnew
      · exact hp.injective hr hs
    · intro r x hr hx
      rw [OrderedMap.get?_insert] at hr
      have hx' := OrderedSet.mem_erase.1 hx
      split at hr
      · cases hr
        exact hx'.2 rfl
      · exact hp.free hr hx'.1

theorem Apart.swap (h : p.Apart) (a b : Qubit) : Apart { p with layout := p.layout.swap a b } where
  injective := h.injective.swap a b
  free q l hq := by
    rw [Layout.get?_swap_eq] at hq
    exact h.free hq

theorem fill_eq_ok {q : Qubit} (h : p.fill q = .ok p') :
    ∃ l ∈ p.pool, p' = ⟨p.layout.insert q l, p.pool.erase l⟩ := by
  rcases Nat.eq_zero_or_pos p.pool.size with hempty | hpool
  · have hnil : p.pool.toList = [] := List.length_eq_zero_iff.1 hempty
    have hq : q ∉ p.pool := by
      rw [← OrderedSet.mem_toList, hnil]
      exact List.not_mem_nil
    simp [fill, take, hq, OrderedSet.min?, hnil] at h
  · obtain ⟨l, hl, hfill⟩ := exists_fill q hpool
    rw [hfill] at h
    exact ⟨l, hl, (Except.ok.inj h).symm⟩

theorem grown_of_moved {l : Qubit} (ha : p.layout.get? a = some l) (hb : p.layout.get? b = none)
    (h : fill a { p with layout := p.layout.insert b l } = .ok p') :
    Grown { p with layout := p.layout.swap a b } p' := by
  obtain ⟨x, hx, rfl⟩ := fill_eq_ok h
  rw [← Layout.insert_swap ha b x]
  refine Grown.filled (p := { p with layout := p.layout.swap a b }) ?_ hx
  rw [Layout.get?_swap_eq, Equiv.swap_apply_left]
  exact hb

/-- Undoing a SWAP exchanges what the two qubits hold; one of them may be filled afterwards. -/
theorem grown_undoSwap (h : p.undoSwap a b = .ok p') :
    Grown { p with layout := p.layout.swap a b } p' := by
  unfold undoSwap at h
  split at h
  · cases h
    exact .same
  · next l ha hb => exact grown_of_moved ha hb h
  · next l ha hb =>
    rw [Layout.swap_comm]
    exact grown_of_moved hb ha h
  · next ha hb =>
    cases h
    rw [Layout.swap_eq_self ha hb]
    exact .same

theorem grown_complete {q : Qubit} (h : p.complete q = .ok p') : p.Grown p' := by
  rw [complete] at h
  split at h
  · cases h
    exact .same
  · next hfree =>
    rw [Bool.not_eq_true, OrderedMap.contains_eq_false] at hfree
    obtain ⟨l, hl, rfl⟩ := fill_eq_ok h
    exact .filled hfree hl

/-! ## Going back -/

/-- A placement before some operations that leads to an output layout after them, whatever
is placed on the qubits that are still free. -/
structure Backed (n : Nat) (out : Layout) (done : List Operation) (p : Placement) : Prop where
  room : p.Room n
  agrees : ∀ ⦃l : Layout⦄, l.Extends p.layout → (l.replay done).Extends out
  apart : out.Injective → p.Apart

theorem Backed.grown {done : List Operation} (h : p.Backed n out done) (hg : p.Grown p')
    (hroom : p'.Room n) : p'.Backed n out done where
  room := hroom
  agrees _ hl := h.agrees (hl.trans hg.extends)
  apart hout := hg.apart (h.apart hout)

theorem Backed.skip {leaf : Operation} {done : List Operation} (hleaf : leaf.exchanged? = none)
    (h : p.Backed n out done) : p.Backed n out (leaf :: done) := by
  refine ⟨h.room, fun l hl => ?_, h.apart⟩
  have hafter : l.after leaf = l := by rw [Layout.after, hleaf]; rfl
  rw [Layout.replay, List.foldl_cons, hafter]
  exact h.agrees hl

/-- Replaying the SWAP exchanges the two entries again, so that a layout which extends the new
placement leads on to one that extends the old. -/
theorem Backed.undoSwap {leaf : Operation} {done : List Operation}
    (hleaf : leaf.exchanged? = some (a, b)) (h : p.Backed n out done)
    (hundo : p.undoSwap a b = .ok p') (hroom : p'.Room n) : p'.Backed n out (leaf :: done) := by
  have hg := grown_undoSwap hundo
  refine ⟨hroom, fun l hl => ?_, fun hout => hg.apart ((h.apart hout).swap a b)⟩
  have hafter : l.after leaf = l.swap a b := by rw [Layout.after, hleaf]; rfl
  have hback := (hl.trans hg.extends).swap a b
  rw [Layout.swap_swap] at hback
  rw [Layout.replay, List.foldl_cons, hafter]
  exact h.agrees hback

theorem backed_ofOutput {c : Circuit} (h : ∀ q, (c.output.get? q).isSome → q.index < c.numQubits) :
    (ofOutput c).Backed c.numQubits c.output [] where
  room := room_ofOutput h
  agrees _ hl := hl
  apart hout := by
    refine ⟨hout, fun q l hq hl => ?_⟩
    have hheld : l ∈ c.output.values :=
      List.mem_map.2 ⟨(q, l), OrderedMap.mem_entries.2 hq, rfl⟩
    have hnot := (List.mem_filter.1 (OrderedSet.mem_ofList.1 hl)).2
    simp [hheld] at hnot

/-! ## Completing the layout -/

theorem isSome_get?_complete {q : Qubit} (h : p.complete q = .ok p') :
    (p'.layout.get? q).isSome := by
  rw [complete] at h
  split at h
  · next hq =>
    cases h
    exact Option.isSome_iff_exists.2 (OrderedMap.contains_eq_true.1 hq)
  · obtain ⟨l, -, rfl⟩ := fill_eq_ok h
    rw [OrderedMap.get?_insert, if_pos rfl]
    rfl

theorem Backed.completeAll {done : List Operation} (h : p.Backed n out done) {qs : List Qubit}
    (hqs : ∀ q ∈ qs, q.index < n) :
    ∃ p', p.completeAll qs = .ok p' ∧ p'.Backed n out done ∧ p'.layout.Extends p.layout ∧
      ∀ q ∈ qs, (p'.layout.get? q).isSome := by
  induction qs generalizing p with
  | nil => exact ⟨p, rfl, h, fun _ _ hr => hr, fun q hq => absurd hq List.not_mem_nil⟩
  | cons q rest ih =>
    obtain ⟨p₁, hcomplete, hroom⟩ := h.room.complete (hqs q List.mem_cons_self)
    have hg := grown_complete hcomplete
    obtain ⟨p', hrest, hp', hext, hplaced⟩ := ih (h.grown hg hroom)
      fun r hr => hqs r (List.mem_cons_of_mem _ hr)
    refine ⟨p', by rw [Placement.completeAll, hcomplete]; exact hrest, hp',
      hext.trans hg.extends, fun r hr => ?_⟩
    rcases List.mem_cons.1 hr with rfl | hr
    · obtain ⟨l, hl⟩ := Option.isSome_iff_exists.1 (isSome_get?_complete hcomplete)
      exact Option.isSome_iff_exists.2 ⟨l, hext hl⟩
    · exact hplaced r hr

-- One more entry would be too many.
theorem Room.isSome_of_size (h : p.Room n) (hsize : p.layout.size = n) {q : Qubit}
    (hq : q.index < n) : (p.layout.get? q).isSome := by
  by_contra hfree
  rw [Option.not_isSome_iff_eq_none] at hfree
  have hgrows := OrderedMap.size_lt_size_insert hfree q
  have hle := Layout.size_le (below_insert h.below hq q)
  omega

end Placement

/-! ## The initial layout -/

namespace Circuit
open Placement

theorem backed_startPlacement {c : Circuit} (hout : ∀ q ∈ c.output.keys, q.index < c.numQubits)
    (hswaps : ∀ leaf ∈ c.flatten.ops, ∀ pair ∈ leaf.exchanged?,
      pair.1.index < c.numQubits ∧ pair.2.index < c.numQubits) :
    ∃ p, c.startPlacement = .ok p ∧ p.Backed c.numQubits c.output c.flatten.ops ∧
      ∀ q, q.index < c.numQubits → (p.layout.get? q).isSome := by
  have hstart : (ofOutput c).Backed c.numQubits c.output [] :=
    backed_ofOutput fun q hq => hout q (OrderedMap.mem_keys.2 hq)
  obtain ⟨p, hundo, hp⟩ := exists_undoAll (fun done p => p.Backed c.numQubits c.output done)
    hstart (fun hleaf h => h.skip hleaf) (by
      intro leaf rest p a b hmem hleaf h
      obtain ⟨ha, hb⟩ := hswaps leaf hmem (a, b) hleaf
      obtain ⟨p', hundo, hroom⟩ := h.room.undoSwap ha hb
      exact ⟨p', hundo, h.undoSwap hleaf hundo hroom⟩)
  rw [startPlacement, hundo]
  show ∃ p', (if p.layout.size = c.numQubits then .ok p
    else p.completeAll ((List.range c.numQubits).map Qubit.mk)) = .ok p' ∧ _
  split
  · next hsize => exact ⟨p, rfl, hp, fun q => hp.room.isSome_of_size hsize⟩
  · have hbelow : ∀ q ∈ (List.range c.numQubits).map Qubit.mk, q.index < c.numQubits := by simp
    obtain ⟨p', hcomplete, hp', -, hplaced⟩ := hp.completeAll hbelow
    exact ⟨p', hcomplete, hp', fun q hq =>
      hplaced q (List.mem_map.2 ⟨q.index, List.mem_range.2 hq, rfl⟩)⟩

/-- Where the output layout and the operations keep to the counted qubits, there is an initial
layout, and it keeps to them as well. -/
theorem exists_startPlacement {c : Circuit}
    (hops : ∀ op ∈ c.ops, ∀ q, op.actsOn q = true → q.index < c.numQubits)
    (hout : ∀ q, (c.output.get? q).isSome → q.index < c.numQubits) :
    ∃ p, c.startPlacement = .ok p ∧ p.Room c.numQubits := by
  have hleaf : ∀ leaf ∈ c.flatten.ops, ∀ q, leaf.actsOn q = true → q.index < c.numQubits := by
    intro leaf hleaf q hq
    obtain ⟨op, hop, hmem⟩ := mem_leavesOfAll.1 hleaf
    exact hops op hop q (actsOn_iff_leaf.2 ⟨leaf, hmem, hq⟩)
  obtain ⟨p, hstart, hp, -⟩ := backed_startPlacement
    (fun q hq => hout q (OrderedMap.mem_keys.1 hq)) (by
      intro leaf hmem pair hpair
      obtain ⟨ha, hb⟩ := actsOn_of_exchanged hpair
      exact ⟨hleaf leaf hmem _ ha, hleaf leaf hmem _ hb⟩)
  exact ⟨p, hstart, hp.room⟩

/-- Where the output layout and the SWAPs keep to the counted qubits, there is an initial layout,
and nothing else of the circuit changes. It places exactly the counted qubits, no logical qubit
twice unless the output layout does, and replaying the SWAPs leads from it to all that the output
layout places. -/
theorem backpropagateOutput_inverts_swaps (c : Circuit)
    (hout : ∀ q ∈ c.output.keys, q.index < c.numQubits)
    (hswaps : ∀ leaf ∈ c.flatten.ops, ∀ pair ∈ leaf.exchanged?,
      pair.1.index < c.numQubits ∧ pair.2.index < c.numQubits) :
    ∃ initial : Layout, c.backpropagateOutput = .done { c with initial := initial } ∧
      (∀ q, q ∈ initial.keys ↔ q.index < c.numQubits) ∧
      (c.output.Injective → initial.Injective) ∧
      (initial.replay c.flatten.ops).Extends c.output := by
  obtain ⟨p, hstart, hp, hplaced⟩ := backed_startPlacement hout hswaps
  refine ⟨p.layout, ?_, fun q => ?_, fun h => (hp.apart h).injective, hp.agrees fun _ _ hq => hq⟩
  · rw [backpropagateOutput_eq, hstart]
    rfl
  · rw [OrderedMap.mem_keys]
    exact ⟨hp.room.below q, hplaced q⟩

/-- SWAPs at three depths, with an output layout that leaves two qubits open. -/
def crossings : Circuit :=
  { withSize "crossings" 5 0 with
    ops := [.gate (.ofKind .swap [⟨0⟩, ⟨1⟩]), .compound [.gate (.ofKind .h [⟨2⟩]),
      .compound [.gate (.ofKind .swap [⟨1⟩, ⟨3⟩]), .gate (.cnot ⟨3⟩ ⟨0⟩)],
      .gate (.ofKind .swap [⟨4⟩, ⟨2⟩])], .gate (.ofKind .swap [⟨3⟩, ⟨0⟩])]
    output := .ofList [(⟨0⟩, ⟨2⟩), (⟨3⟩, ⟨0⟩), (⟨4⟩, ⟨1⟩)] }

theorem backpropagateOutput_inverts_swaps_crossings :
    (∀ q ∈ crossings.output.keys, q.index < 5) ∧
    (∀ leaf ∈ crossings.flatten.ops, ∀ pair ∈ leaf.exchanged?,
      pair.1.index < 5 ∧ pair.2.index < 5) ∧
    ∃ initial : Layout,
      crossings.backpropagateOutput = .done { crossings with initial := initial } ∧
      (∀ q, q ∈ initial.keys ↔ q.index < 5) ∧ initial.Injective ∧
      (initial.replay crossings.flatten.ops).Extends crossings.output := by
  have hout : ∀ q ∈ crossings.output.keys, q.index < 5 := by decide
  have hswaps : ∀ leaf ∈ crossings.flatten.ops, ∀ pair ∈ leaf.exchanged?,
      pair.1.index < 5 ∧ pair.2.index < 5 := by decide
  have hinjective : crossings.output.Injective := by
    have hkeys : ∀ q ∈ crossings.output.keys, ∀ r ∈ crossings.output.keys,
        crossings.output.get? q = crossings.output.get? r → q = r := by decide
    intro q r x hq hr
    exact hkeys q (OrderedMap.mem_keys.2 (by simp [hq])) r (OrderedMap.mem_keys.2 (by simp [hr]))
      (hq.trans hr.symm)
  obtain ⟨initial, hdone, hkeys, hinj, hreplay⟩ :=
    backpropagateOutput_inverts_swaps crossings hout hswaps
  exact ⟨hout, hswaps, initial, hdone, hkeys, hinj hinjective, hreplay⟩

end Circuit
end QuantumCircuit
