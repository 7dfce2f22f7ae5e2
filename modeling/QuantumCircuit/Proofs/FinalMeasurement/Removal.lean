import Mathlib
import QuantumCircuit.Proofs.FinalMeasurement.Erasure
import QuantumCircuit.Proofs.Marks
import QuantumCircuit.Proofs.Words

/-! What goes with the final measurements, leaf by leaf. Behind a measurement that goes no
gate is left on its qubits. The gates that read its result need not be on its qubits,
though, and do not hold it back. -/
namespace QuantumCircuit
namespace FinalMeasurement
open Operation

variable {ops : List Operation} {w : Walk} {slot : Nat}

/-! ## Removed and kept leaves -/

theorem Marked.fades {a a' : Operation} (h : Marked w slot a a') : Fades a a' := by
  rcases h with rfl | ⟨e, -, -, rfl, -⟩
  · exact .inl rfl
  · exact .inr rfl

theorem Inv.forall₂_marked (h : Inv ops w) {op op' : Operation} (hop : ops[slot]? = some op)
    (hop' : w.ops[slot]? = some op') : List.Forall₂ (Marked w slot) op.leaves op'.leaves := by
  rcases h.marked hop hop' with rfl | ⟨-, hmarked⟩
  · exact forall₂_marked_refl _ _ _
  · exact hmarked

theorem Inv.fadeAll (h : Inv ops w) : FadeAll ops w.ops := by
  refine List.forall₂_iff_get.2 ⟨h.length.symm, fun i hi hi' => ?_⟩
  exact (h.forall₂_marked (List.getElem?_eq_getElem hi) (List.getElem?_eq_getElem hi')).imp
    fun _ _ => Marked.fades

/-- A leaf stays as it is, or it goes: an identity, or a measurement or barrier with nothing
but identities behind it on its qubits. -/
theorem Inv.mem_marks_cases (h : Inv ops w) {op op' : Operation} (hop : ops[slot]? = some op)
    (hop' : w.ops[slot]? = some op') {m : Operation × Bool} (hm : m ∈ marks op op') :
    m.2 = false ∧ m.1 ∈ op'.leaves ∧ m.1.isIdentity = false ∨
      m.2 = true ∧ (m.1.isIdentity = true ∨ ∃ e, m.1 = .effect e ∧
        (e.kind = .measure ∨ e.kind = .barrier) ∧
        ∀ q ∈ e.targets, ∀ j, slot < j → Quiet w q j) := by
  obtain ⟨i, a', hi, hi', hmark⟩ := mem_marks hm
  obtain ⟨hlt, hleaf⟩ := List.getElem?_eq_some_iff.1 hi
  obtain ⟨hlt', rfl⟩ := List.getElem?_eq_some_iff.1 hi'
  have hmarked : Marked w slot m.1 op'.leaves[i] := by
    rw [← hleaf]
    exact (h.forall₂_marked hop hop').get hlt hlt'
  rw [hmark]
  rcases hmarked with hsame | ⟨e, he, hkind, hgone, hbehind⟩
  · rw [hsame] at hi' ⊢
    cases hid : m.1.isIdentity with
    | false => exact .inl ⟨rfl, List.mem_of_getElem? hi', rfl⟩
    | true => exact .inr ⟨rfl, .inl rfl⟩
  · rw [hgone]
    exact .inr ⟨rfl, .inr ⟨e, he, hkind, hbehind⟩⟩

/-- Identities go, and besides them only measurements and barriers do. -/
theorem Inv.cause_of_mark (h : Inv ops w) {m : Operation × Bool}
    (hm : m ∈ (List.zipWith marks ops w.ops).flatten) :
    (m.1.isIdentity = true → m.2 = true) ∧
      (m.2 = true → m.1.isIdentity = true ∨
        ∃ e, m.1 = .effect e ∧ (e.kind = .measure ∨ e.kind = .barrier)) := by
  obtain ⟨ms, hms, hmem⟩ := List.mem_flatten.1 hm
  obtain ⟨i, op, op', hop, hop', rfl⟩ := exists_of_mem_zipWith_marks hms
  rcases h.mem_marks_cases hop hop' hmem with
    ⟨hkept, -, hid⟩ | ⟨hgone, hid | ⟨e, he, hkind, -⟩⟩
  · simp [hkept, hid]
  · exact ⟨fun _ => hgone, fun _ => .inl hid⟩
  · exact ⟨fun _ => hgone, fun _ => .inr ⟨e, he, hkind⟩⟩

/-- Within an operation that has lost a leaf there are only effects. -/
theorem Inv.isEffect_of_gone (h : Inv ops w) {op op' : Operation} (hop : ops[slot]? = some op)
    (hop' : w.ops[slot]? = some op') {a : Operation × Bool} (ha : a ∈ marks op op')
    (hgone : a.2 = true) (hid : a.1.isIdentity = false) :
    ∀ b ∈ marks op op', b.1.isEffect = true := by
  rcases h.marked hop hop' with rfl | ⟨heffects, -⟩
  · obtain ⟨i, a', hi, hi', hmark⟩ := mem_marks ha
    cases hi.symm.trans hi'
    rw [hmark, hid] at hgone
    cases hgone
  · intro b hb
    obtain ⟨i, -, hi, -⟩ := mem_marks hb
    exact heffects b.1 (List.mem_of_getElem? hi)

/-- If the first leaf goes and is no identity, the second goes as well if it acts on a qubit
of the first. -/
def TakesAlong (a b : Operation × Bool) : Prop :=
  a.2 = true → a.1.isIdentity = false → ∀ t, a.1.actsOn t = true → b.1.actsOn t = true →
    b.2 = true

/-- Behind the slot of an erased leaf only identities are left on its qubits. -/
theorem Inv.takesAlong (h : Inv ops w) {i j : ℕ} (hij : i < j) {a b a' b' : Operation}
    (ha : ops[i]? = some a) (ha' : w.ops[i]? = some a') (hb : ops[j]? = some b)
    (hb' : w.ops[j]? = some b') : ∀ x ∈ marks a a', ∀ y ∈ marks b b', TakesAlong x y := by
  intro x hx y hy hgone hid t hxt hyt
  rcases h.mem_marks_cases ha ha' hx with ⟨hkept, -⟩ | ⟨-, hid' | ⟨e, he, -, hquiet⟩⟩
  · rw [hkept] at hgone
    cases hgone
  · rw [hid'] at hid
    cases hid
  · rcases h.mem_marks_cases hb hb' hy with ⟨-, hmem, hyid⟩ | ⟨hgone', -⟩
    · rw [he] at hxt
      have hleft := hquiet t (of_decide_eq_true hxt) j hij b' hb' y.1 hmem hyt
      rw [hyid] at hleft
      cases hleft
    · exact hgone'

theorem Inv.pairwise_takesAlong (h : Inv ops w) :
    (List.zipWith marks ops w.ops).Pairwise fun as bs =>
      ∀ a ∈ as, ∀ b ∈ bs, TakesAlong a b := by
  rw [List.pairwise_iff_getElem]
  intro i j hi hj hij
  simp only [List.length_zipWith, Nat.lt_min] at hi hj
  rw [List.getElem_zipWith, List.getElem_zipWith]
  exact h.takesAlong hij (List.getElem?_eq_getElem hi.1) (List.getElem?_eq_getElem hi.2)
    (List.getElem?_eq_getElem hj.1) (List.getElem?_eq_getElem hj.2)

/-- A leaf that goes, identities apart, shares no qubit with a later leaf that stays, unless
that is an effect. -/
def Apart (a b : Operation × Bool) : Prop :=
  a.2 = true → a.1.isIdentity = false → b.2 = false → b.1.isEffect = false →
    ∀ q, ¬ (a.1.actsOn q = true ∧ b.1.actsOn q = true)

theorem Inv.pairwise_apart (h : Inv ops w) :
    (List.zipWith marks ops w.ops).flatten.Pairwise Apart := by
  refine List.pairwise_flatten.2 ⟨fun ms hms => ?_, h.pairwise_takesAlong.imp ?_⟩
  · obtain ⟨i, op, op', hop, hop', rfl⟩ := exists_of_mem_zipWith_marks hms
    refine List.pairwise_of_forall_mem_list fun a ha b hb hgone hid _ heffect => ?_
    rw [h.isEffect_of_gone hop hop' ha hgone hid b hb] at heffect
    cases heffect
  · intro as bs hacross a ha b hb hgone hid hkept _ q hq
    rw [hacross a ha b hb hgone hid q hq.1 hq.2] at hkept
    cases hkept

end FinalMeasurement

/-- Whether an operation is conditional on a bit that `m` writes. -/
def Operation.readsResultOf (m : Operation) : Operation → Bool
  | .conditional cond _ => cond.register.span.any fun b => m.clbits.contains b
  | _ => false

theorem Operation.isEffect_of_readsResultOf {m op : Operation} (h : readsResultOf m op = true) :
    op.isEffect = false := by
  cases op with
  | effect e => cases h
  | gate g => rfl
  | compound children => rfl
  | conditional cond body => rfl

theorem Operation.isIdentity_of_isMeasure {op : Operation} (h : op.isMeasure = true) :
    op.isIdentity = false := by
  cases op with
  | effect e =>
    have hkind : e.kind = .measure := of_decide_eq_true h
    simp [isIdentity, hkind]
  | gate g => cases h
  | compound children => cases h
  | conditional cond body => cases h

namespace Circuit
open Operation FinalMeasurement

theorem exists_walk_of_removeFinalMeasurements {c out : Circuit}
    (h : c.removeFinalMeasurements = .done out) :
    ∃ w, Inv c.ops w ∧ out.ops = stripAll w.ops := by
  obtain ⟨lanes, hlanes, hout⟩ := run_of_removeFinalMeasurements h
  exact ⟨_, inv_run (inv_start hlanes), hout⟩

/-- Every leaf of a circuit is kept as it is or goes with the final measurements. Identities
go; besides them only measurements and barriers do, and a gate or conditional gate behind
one of these that stays acts on none of its qubits. Such a gate may still be conditional on
the result. If every gate that reads a result acts on a qubit that was measured, then no
measurement goes whose result is read by a gate that stays. -/
theorem removeFinalMeasurements_apart {c out : Circuit}
    (h : c.removeFinalMeasurements = .done out) :
    ∃ marked : List (Operation × Bool), marked.map (·.1) = leavesOfAll c.ops ∧
      leavesOfAll out.ops = (marked.filter (!·.2)).map (·.1) ∧
      (∀ m ∈ marked, (m.1.isIdentity = true → m.2 = true) ∧
        (m.2 = true → m.1.isIdentity = true ∨
          ∃ e, m.1 = .effect e ∧ (e.kind = .measure ∨ e.kind = .barrier))) ∧
      marked.Pairwise (fun a b => a.2 = true → a.1.isIdentity = false → b.2 = false →
        b.1.isEffect = false → ∀ q, ¬ (a.1.actsOn q = true ∧ b.1.actsOn q = true)) ∧
      ((leavesOfAll c.ops).Pairwise (fun a b => a.isMeasure = true → a.readsResultOf b = true →
          ∃ q, a.actsOn q = true ∧ b.actsOn q = true) →
        marked.Pairwise fun a b => a.2 = true → a.1.isMeasure = true → b.2 = false →
          a.1.readsResultOf b.1 = false) := by
  obtain ⟨w, hinv, hout⟩ := exists_walk_of_removeFinalMeasurements h
  refine ⟨(List.zipWith marks c.ops w.ops).flatten, flatten_marks hinv.fadeAll, ?_,
    fun m hm => hinv.cause_of_mark hm, hinv.pairwise_apart, fun hshare => ?_⟩
  · rw [hout, leavesOfAll_stripAll_marks hinv.fadeAll]
  · rw [← flatten_marks hinv.fadeAll, List.pairwise_map] at hshare
    refine hinv.pairwise_apart.imp₂ (fun a b hab hread hgone hmeasure hstays => ?_) hshare
    refine Bool.eq_false_iff.2 fun hreads => ?_
    obtain ⟨q, hq⟩ := hread hmeasure hreads
    exact hab hgone (isIdentity_of_isMeasure hmeasure) hstays (isEffect_of_readsResultOf hreads)
      q hq

/-- A qubit is measured and flipped back by a gate on it; what is measured at the end, part
of it in a compound, is not read. -/
def flipBack : Circuit :=
  { withSize "flipBack" 2 3 with
    ops := [.effect { kind := .measure, targets := [⟨0⟩], clbits := [⟨0⟩] },
      .conditional ⟨.single ⟨0⟩, 1⟩ (.gate (.ofKind .x [⟨0⟩])),
      .compound [.effect { kind := .measure, targets := [⟨0⟩], clbits := [⟨1⟩] },
        .effect { kind := .barrier, targets := [⟨1⟩, ⟨0⟩] }],
      .effect { kind := .measure, targets := [⟨1⟩], clbits := [⟨2⟩] }] }

theorem removeFinalMeasurements_apart_flipBack :
    ∃ (out : Circuit) (marked : List (Operation × Bool)),
      flipBack.removeFinalMeasurements = .done out ∧
      out.ops = [.effect { kind := .measure, targets := [⟨0⟩], clbits := [⟨0⟩] },
        .conditional ⟨.single ⟨0⟩, 1⟩ (.gate (.ofKind .x [⟨0⟩])),
        .effect { kind := .barrier, targets := [⟨1⟩, ⟨0⟩] }] ∧
      marked.map (·.1) = leavesOfAll flipBack.ops ∧
      leavesOfAll out.ops = (marked.filter (!·.2)).map (·.1) ∧
      marked.Pairwise fun a b => a.2 = true → a.1.isMeasure = true → b.2 = false →
        a.1.readsResultOf b.1 = false := by
  have hfirst : (leavesOfAll flipBack.ops).Pairwise fun a b => a.isMeasure = true →
      a.readsResultOf b = true → a.actsOn ⟨0⟩ = true ∧ b.actsOn ⟨0⟩ = true := by
    decide
  have hdone : flipBack.removeFinalMeasurements = .done { flipBack with
      ops := [.effect { kind := .measure, targets := [⟨0⟩], clbits := [⟨0⟩] },
        .conditional ⟨.single ⟨0⟩, 1⟩ (.gate (.ofKind .x [⟨0⟩])),
        .effect { kind := .barrier, targets := [⟨1⟩, ⟨0⟩] }] } := by
    cbv
  obtain ⟨marked, hall, hkept, -, -, hread⟩ := removeFinalMeasurements_apart hdone
  exact ⟨_, marked, hdone, rfl, hall, hkept,
    hread (hfirst.imp fun hshare hmeasure hreads => ⟨⟨0⟩, hshare hmeasure hreads⟩)⟩

/-- A gate on the second qubit is conditional on the result of measuring the first. -/
def conditionElsewhere : Circuit :=
  { withSize "conditionElsewhere" 2 2 with
    ops := [.gate (.ofKind .x [⟨0⟩]),
      .effect { kind := .measure, targets := [⟨0⟩], clbits := [⟨0⟩] },
      .conditional ⟨.single ⟨0⟩, 1⟩ (.gate (.ofKind .x [⟨1⟩])),
      .effect { kind := .measure, targets := [⟨1⟩], clbits := [⟨1⟩] },
      .gate (.ofKind .x [⟨1⟩])] }

/-- The measurement goes, though the gate that reads its result stays. -/
theorem removeFinalMeasurements_conditionElsewhere :
    conditionElsewhere.removeFinalMeasurements = .done { conditionElsewhere with
      ops := [.gate (.ofKind .x [⟨0⟩]), .conditional ⟨.single ⟨0⟩, 1⟩ (.gate (.ofKind .x [⟨1⟩])),
        .effect { kind := .measure, targets := [⟨1⟩], clbits := [⟨1⟩] },
        .gate (.ofKind .x [⟨1⟩])] } := by
  cbv

end Circuit
end QuantumCircuit
