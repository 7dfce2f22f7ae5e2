import Mathlib.Order.WellFounded
import QuantumCircuit.Proofs.Block.Limit

/-! The tables of a tracker between two operations. The pointers form a forest, in which the
way to a root has an end and is shortened without changing a root. What else is known of a
block stands at its root: the qubits that lead there, operations on these qubits only, and an
anchor, an empty slot behind everything that is fixed on them. -/
namespace QuantumCircuit
namespace BlockTracker

variable {parent : OrderedMap Qubit Qubit} {t : BlockTracker} {q r x : Qubit}

/-! ## Pointers -/

/-- The second qubit points at the first, which is another one. -/
def PointedAt (parent : OrderedMap Qubit Qubit) (p q : Qubit) : Prop :=
  parent.get? q = some p ∧ p ≠ q

theorem Forest.wellFounded (h : Forest parent) : WellFounded (PointedAt parent) := by
  obtain ⟨height, hheight⟩ := h.ranked
  exact Subrelation.wf (fun hp => hheight hp.1 hp.2) (InvImage.wf height Nat.lt_wfRel.wf)

/-- Going from a qubit to its root along the old pointers, and pointing each qubit on the way
at the root, ends with the second table. -/
inductive Shortens (root : Qubit) :
    Qubit → OrderedMap Qubit Qubit → OrderedMap Qubit Qubit → Prop
  | done {parent : OrderedMap Qubit Qubit} : Shortens root root parent parent
  | next {q p : Qubit} {parent parent' : OrderedMap Qubit Qubit} : q ≠ root →
    parent.get? q = some p → Shortens root p (parent.insert q root) parent' →
    Shortens root q parent parent'

theorem chase_of_root (hr : parent.get? r = some r) (n : Nat) : chase parent n r = r := by
  cases n with
  | zero => rfl
  | succ n => simp [chase, hr]

/-- A chase that comes to a root still does when a qubit points there directly. -/
theorem chase_insert_root (hr : parent.get? r = some r) (hq : q ≠ r) (n : Nat)
    (hx : chase parent n x = r) : chase (parent.insert q r) n x = r := by
  have hr' : (parent.insert q r).get? r = some r := by
    rw [OrderedMap.get?_insert, if_neg hq.symm, hr]
  induction n generalizing x with
  | zero => exact hx
  | succ n ih =>
    rw [chase, OrderedMap.get?_insert]
    by_cases hxq : x = q
    · rw [if_pos hxq, hxq]
      simpa [hq.symm] using chase_of_root hr' n
    · rw [chase] at hx
      rw [if_neg hxq]
      cases hp : parent.get? x with
      | none => simpa [hp] using hx
      | some p =>
        by_cases hpx : p = x
        · simpa [hp, hpx] using hx
        · simp only [hp, hpx, if_false] at hx ⊢
          exact ih hx

-- The chase from `q` takes no more than `n` steps, and shortening follows it.
theorem shortens_compress (n : Nat) (hr : parent.get? r = some r) (hq : chase parent n q = r) :
    Shortens r q parent (compress r n q parent) := by
  induction n generalizing parent q with
  | zero =>
    cases (show q = r from hq)
    exact .done
  | succ n ih =>
    rw [compress]
    by_cases hqr : q = r
    · rw [if_pos hqr, hqr]
      exact .done
    · rw [chase] at hq
      cases hp : parent.get? q with
      | none => exact absurd (by simpa [hp] using hq) hqr
      | some p =>
        by_cases hpq : p = q
        · exact absurd (by simpa [hp, hpq] using hq) hqr
        · simp only [hp, hpq, if_false] at hq
          rw [if_neg hqr, Option.getD_some]
          refine .next hqr hp (ih ?_ (chase_insert_root hr hqr n hq))
          rw [OrderedMap.get?_insert, if_neg (Ne.symm hqr), hr]

theorem Valid.shortens (h : t.Valid) (hq : t.Knows q) :
    Shortens (t.root q) q t.parent (t.touch q).parent := by
  rw [touch_of_known hq]
  exact shortens_compress _ (h.leadsTo_root hq).isRoot rfl

end BlockTracker

namespace BlockState
open BlockTracker

/-- The tables of a tracker and the slots fit together when `n` slots have been passed and
blocks have at most `limit` qubits. -/
structure Represents (limit n : Nat) (s : BlockState) : Prop where
  /-- Pointers do not run in circles. -/
  acyclic : WellFounded (PointedAt s.tracker.parent)
  /-- From a known qubit they lead to its root, and the way there can be shortened. -/
  finds : ∀ q, s.tracker.Knows q → LeadsTo s.tracker.parent q (s.tracker.root q) ∧
    Shortens (s.tracker.root q) q s.tracker.parent (s.tracker.touch q).parent
  /-- Looking up a qubit changes no root. -/
  roots : ∀ q x, (s.tracker.touch q).root x = s.tracker.root x
  /-- Members are listed exactly for the roots. -/
  members_iff : ∀ r, (s.tracker.members.get? r).isSome ↔ s.tracker.parent.get? r = some r
  members : ∀ r ms, s.tracker.members.get? r = some ms →
    ms.Nodup ∧ ∀ x, x ∈ ms ↔ s.tracker.root x = r
  bodies_root : ∀ r, (s.tracker.bodies.get? r).isSome → s.tracker.parent.get? r = some r
  anchors_root : ∀ r, (s.tracker.anchors.get? r).isSome → s.tracker.parent.get? r = some r
  /-- Qubits come together only in a block that has taken up an operation. -/
  anchored : ∀ r ms, s.tracker.members.get? r = some ms → 1 < ms.length →
    (s.tracker.anchors.get? r).isSome
  narrow : ∀ r a ms, s.tracker.anchors.get? r = some a → s.tracker.members.get? r = some ms →
    ms.length ≤ limit
  anchors_inj : ∀ r r' a, s.tracker.anchors.get? r = some a → s.tracker.anchors.get? r' = some a →
    r = r'
  /-- An anchor is an empty slot that has been passed. -/
  anchors_empty : ∀ r a, s.tracker.anchors.get? r = some a → a < n ∧ s.slots[a]? = some none
  /-- The operations of a block act on its members only. -/
  bodies : ∀ r ms body, s.tracker.members.get? r = some ms → s.tracker.bodies.get? r = some body →
    ∀ op ∈ body, ∀ x, op.actsOn x = true → x ∈ ms
  /-- A block is anchored behind everything that is fixed on its members. -/
  fixed : ∀ r ms a, s.tracker.members.get? r = some ms → s.tracker.anchors.get? r = some a →
    ∀ x ∈ ms, ∀ f, s.tracker.lastFixed.get? x = some f → f < a

variable {ops : List Operation} {n m limit : Nat} {s : BlockState}

section blocks
variable {r : Qubit} {ms : List Qubit}

/-- The members of a block, without repetition, are the qubits with its root. -/
theorem Steady.mem_members (h : Steady ops n m s) (hr : s.tracker.members.get? r = some ms) :
    ms.Nodup ∧ ∀ x, x ∈ ms ↔ s.tracker.root x = r := by
  have hv := h.inv.valid
  have hself := hv.members_root hr
  have hknown : s.tracker.Knows r := by simp [Knows, hself]
  refine ⟨(hv.members_iff hr).1, fun x => ((hv.members_iff hr).2 x).trans ?_⟩
  rw [hv.leadsTo_iff hknown]
  refine ⟨And.right, fun hx => ⟨?_, hx⟩⟩
  exact hv.knows_of_root_eq (hx.trans (hv.root_of_root hself).symm) hknown

theorem Steady.anchorOf_member (h : Steady ops n m s) (hr : s.tracker.members.get? r = some ms)
    {x : Qubit} (hx : x ∈ ms) : s.tracker.anchorOf x = s.tracker.anchors.get? r := by
  rw [anchorOf, ((h.mem_members hr).2 x).1 hx]

/-- Without an anchor a block is a single qubit. -/
theorem Steady.isSome_anchor (h : Steady ops n m s) (hr : s.tracker.members.get? r = some ms)
    (hlen : 1 < ms.length) : (s.tracker.anchors.get? r).isSome := by
  obtain ⟨hnodup, hmem⟩ := h.mem_members hr
  rw [Option.isSome_iff_ne_none]
  intro hnone
  have hall : ∀ x ∈ ms, x = r := by
    intro x hx
    have halone := h.settled x ((h.anchorOf_member hr hx).trans hnone)
    rw [← halone, (hmem x).1 hx]
  have hle : ms.length ≤ [r].length :=
    (List.subperm_of_subset hnodup fun x hx => List.mem_singleton.2 (hall x hx)).length_le
  exact absurd hlen (Nat.not_lt.2 hle)

theorem Steady.length_members_le (h : Steady ops n m s) (hb : Bounded ops limit s)
    (hr : s.tracker.members.get? r = some ms) : ms.length ≤ limit := by
  have hv := h.inv.valid
  have hsize : s.tracker.size r = ms.length := by rw [BlockTracker.size, hr]
  rw [← hsize, hv.size_eq_card (hv.root_of_root (hv.members_root hr))]
  exact hb.narrow r

end blocks

theorem Steady.represents (h : Steady ops n m s) (hb : Bounded ops limit s) :
    Represents limit n s where
  acyclic := h.inv.valid.forest.wellFounded
  finds q hq := ⟨h.inv.valid.leadsTo_root hq, h.inv.valid.shortens hq⟩
  roots q x := (h.inv.valid.touch q).2.root x
  members_iff r := by
    rw [Option.isSome_iff_exists]
    exact ⟨fun hr => h.inv.valid.members_root hr.choose_spec, h.inv.valid.root_members⟩
  members r ms hr := h.mem_members hr
  bodies_root r hr := by
    rw [h.inv.valid.bodies_iff] at hr
    obtain ⟨a, ha⟩ := Option.isSome_iff_exists.1 hr
    exact h.inv.valid.anchor_root ha
  anchors_root r hr := by
    obtain ⟨a, ha⟩ := Option.isSome_iff_exists.1 hr
    exact h.inv.valid.anchor_root ha
  anchored r ms hr := h.isSome_anchor hr
  narrow r a ms _ hr := h.length_members_le hb hr
  anchors_inj r r' a hr hr' := h.inv.anchor_inj hr hr'
  anchors_empty r a hr := h.inv.anchor hr
  bodies r ms body hr hbody op hop x hx := by
    refine ((h.mem_members hr).2 x).2 (h.inv.body ?_ hx).2
    rwa [BlockTracker.body, hbody]
  fixed r ms a hr ha x hx f hf := h.inv.fixed_lt hf ((h.anchorOf_member hr hx).trans ha)

/-- Whatever the operations are, the tables fit together before each of them is looked at, and
after the last one. -/
theorem represents_after (hlimit : 0 < limit) (ops : List Operation) (hn : n ≤ ops.length) :
    Represents limit n (after limit ops n) :=
  (steady_after limit ops n hn).represents (bounded_after hlimit ops n hn)

/-- Behind a measurement two blocks are joined at the root of the one with more operations;
another block is open, and a gate is still to come. -/
def joining : List Operation :=
  [.effect { kind := .measure, targets := [⟨0⟩], clbits := [⟨0⟩] }, .gate (.ofKind .h [⟨0⟩]),
    .gate (.ofKind .h [⟨1⟩]), .gate (.ofKind .t [⟨1⟩]), .gate (.cnot ⟨1⟩ ⟨0⟩),
    .gate (.ofKind .t [⟨2⟩]), .gate (.cnot ⟨1⟩ ⟨2⟩)]

theorem represents_after_joining :
    0 < 2 ∧ 6 ≤ joining.length ∧ Represents 2 6 (after 2 joining 6) ∧
      (after 2 joining 6).tracker.parent.entries = [(⟨0⟩, ⟨1⟩), (⟨1⟩, ⟨1⟩), (⟨2⟩, ⟨2⟩)] ∧
      (after 2 joining 6).tracker.members.entries = [(⟨1⟩, [⟨1⟩, ⟨0⟩]), (⟨2⟩, [⟨2⟩])] ∧
      (after 2 joining 6).tracker.anchors.entries = [(⟨1⟩, 2), (⟨2⟩, 5)] ∧
      (after 2 joining 6).tracker.lastFixed.entries = [(⟨0⟩, 0)] := by
  refine ⟨by decide, by decide, represents_after (by decide) joining (by decide), ?_, ?_, ?_, ?_⟩ <;>
    decide

end BlockState
end QuantumCircuit
