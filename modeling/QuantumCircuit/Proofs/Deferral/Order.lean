import Mathlib.Data.List.Forall2
import QuantumCircuit.Proofs.Deferral.Moves
import QuantumCircuit.Proofs.Ordered

/-! The order of the operations on a qubit that is not measured. A deferral changes it
by its moves and by nothing else: a rewired gate is put in front of the operations that
it passes, on whatever qubits they act. The order is kept where no gate on the qubit
passes an operation on the qubit. -/
namespace QuantumCircuit
namespace Deferral
open Operation

/-! ## What the moves do to one qubit -/

/-- The operation is a gate under a condition on the bit of a measured qubit, and the
other gate is the same one under a control on that qubit. -/
def Rewires (measured : Qubit → Clbit → Prop) (op : Operation) (g : Gate) : Prop :=
  ∃ q cond body, measured q cond.register.start ∧ op = .conditional cond (.gate body) ∧
    g = withControl body (controlFor q cond)

/-- The second operation is the first one, or what the first one is rewired to. -/
def Corresponds (measured : Qubit → Clbit → Prop) (x y : Operation) : Prop :=
  y = x ∨ ∃ g, y = .gate g ∧ Rewires measured x g

/-- The operations on `p` before and after the moves. A move of a gate on `p` carries it
over those passed operations that act on `p`. -/
inductive Reorders (measured : Qubit → Clbit → Prop) (p : Qubit) :
    List Move → List Operation → List Operation → Prop where
  | nil (ops : List Operation) : Reorders measured p [] ops ops
  | away {m : Move} {ms : List Move} {ops out : List Operation} : m.gate.actsOn p = false →
    Reorders measured p ms ops out → Reorders measured p (m :: ms) ops out
  | carry {m : Move} {ms : List Move} {front back out : List Operation} {op : Operation} :
    m.gate.actsOn p = true → Rewires measured op m.gate →
    Reorders measured p ms
      (front ++ .gate m.gate :: (m.passed.filter (·.actsOn p) ++ back)) out →
    Reorders measured p (m :: ms) (front ++ (m.passed.filter (·.actsOn p) ++ op :: back)) out

/-- The move does not carry a gate on `p` over another operation on `p`. -/
def Move.Clears (p : Qubit) (m : Move) : Prop :=
  m.gate.actsOn p = true → ∀ o ∈ m.passed, o.actsOn p = false

section reorders
variable {measured : Qubit → Clbit → Prop} {p : Qubit} {ms ns : List Move}
  {ops mid out : List Operation}

theorem Reorders.trans (h : Reorders measured p ms ops mid) (h' : Reorders measured p ns mid out) :
    Reorders measured p (ms ++ ns) ops out := by
  induction h with
  | nil => exact h'
  | away hgate _ ih => exact .away hgate (ih h')
  | carry hgate hop _ ih => exact .carry hgate hop (ih h')

theorem Corresponds.trans {x y z : Operation} (h : Corresponds measured x y)
    (h' : Corresponds measured y z) : Corresponds measured x z := by
  rcases h with rfl | ⟨g, rfl, hg⟩
  · exact h'
  · rcases h' with rfl | ⟨_, _, _, _, _, _, hcond, _⟩
    · exact .inr ⟨g, rfl, hg⟩
    -- a gate is not rewired again
    · cases hcond

theorem forall₂_corresponds_trans (h : List.Forall₂ (Corresponds measured) ops mid)
    (h' : List.Forall₂ (Corresponds measured) mid out) :
    List.Forall₂ (Corresponds measured) ops out := by
  induction h generalizing out with
  | nil => exact h'
  | cons hxy _ ih =>
    cases h' with
    | cons hyz htail => exact .cons (hxy.trans hyz) (ih htail)

theorem forall₂_corresponds_refl (measured : Qubit → Clbit → Prop) (ops : List Operation) :
    List.Forall₂ (Corresponds measured) ops ops :=
  List.forall₂_same.2 fun _ _ => .inl rfl

/-- Moves that clear the qubit keep the order on it. -/
theorem Reorders.forall₂ (h : Reorders measured p ms ops out) (hclear : ∀ m ∈ ms, m.Clears p) :
    List.Forall₂ (Corresponds measured) ops out := by
  induction h with
  | nil ops => exact forall₂_corresponds_refl measured ops
  | away _ _ ih => exact ih fun m hm => hclear m (List.mem_cons_of_mem _ hm)
  | @carry m ms front back out op hgate hop _ ih =>
    have hnone : m.passed.filter (·.actsOn p) = [] := by
      rw [List.filter_eq_nil_iff]
      intro o ho
      simp [hclear m List.mem_cons_self hgate o ho]
    have hrest := ih fun m hm => hclear m (List.mem_cons_of_mem _ hm)
    rw [hnone] at hrest ⊢
    refine forall₂_corresponds_trans ?_ hrest
    refine List.rel_append (forall₂_corresponds_refl measured front) ?_
    exact .cons (.inr ⟨_, rfl, hop⟩) (forall₂_corresponds_refl measured back)

end reorders

/-- A gate that is put in acts on the measured qubit and where the operation did. -/
theorem actsOn_of_replace {q r : Qubit} {b : Clbit} {op : Operation} {g : Gate}
    (h : inspect q b op = .ok (.replace g)) :
    g.actsOn r = true ↔ r = q ∨ op.actsOn r = true := by
  obtain ⟨cond, body, rfl, -, -, rfl⟩ := inspect_eq_replace h
  rw [actsOn_withControl, qubit_controlFor]
  rfl

theorem rewires_of_replace {measured : Qubit → Clbit → Prop} {q : Qubit} {b : Clbit}
    {op : Operation} {g : Gate} (hm : measured q b) (h : inspect q b op = .ok (.replace g)) :
    Rewires measured op g := by
  obtain ⟨cond, body, rfl, hreg, -, rfl⟩ := inspect_eq_replace h
  refine ⟨q, cond, body, ?_, rfl, rfl⟩
  rw [hreg]
  exact hm

section scans
variable {measured : Qubit → Clbit → Prop} {p q : Qubit} {b : Clbit}
  {front passed rest out : List Operation} {ms : List Move}

theorem Scans.reorders (h : Scans q b front passed rest ms out) (hp : p ≠ q)
    (hm : measured q b) :
    Reorders measured p ms ((front ++ (passed ++ rest)).filter (·.actsOn p))
      (out.filter (·.actsOn p)) := by
  induction h with
  | finish front passed =>
    rw [List.append_nil]
    exact .nil _
  | stop => exact .nil _
  | @keepUp front passed later rest out first op ms _ hcut _ ih =>
    rw [keepUp_eq hcut]
    exact ih
  | @fallBehind front passed rest out op ms _ _ ih =>
    rw [List.append_cons passed]
    exact ih
  | @replace front passed rest out op g ms hop _ ih =>
    have hacts : g.actsOn p = op.actsOn p := by
      rw [Bool.eq_iff_iff, actsOn_of_replace hop, or_iff_right hp]
    have hgate : (Operation.gate g).actsOn p = op.actsOn p := hacts
    simp only [List.filter_append, List.filter_cons, hgate] at ih ⊢
    by_cases hon : op.actsOn p = true
    · rw [if_pos hon] at ih ⊢
      refine .carry (hacts.trans hon) (rewires_of_replace hm hop) ?_
      simpa using ih
    · rw [if_neg hon] at ih ⊢
      refine .away (hacts.trans (Bool.eq_false_iff.2 hon)) ?_
      simpa using ih

/-- No measurement comes in by a scan. -/
theorem Scans.mem_of_isMeasure (h : Scans q b front passed rest ms out) {o : Operation}
    (ho : o ∈ out) (hmeasure : o.isMeasure = true) : o ∈ front ++ (passed ++ rest) := by
  have hmem : o ∈ out.filter (·.isMeasure) := List.mem_filter.2 ⟨ho, hmeasure⟩
  rw [h.filter_isMeasure] at hmem
  exact (List.mem_filter.1 hmem).1

end scans

/-! ## The order after a run -/

/-- The measurements of the list are among those given, and none is of `p`. -/
def Spares (measured : Qubit → Clbit → Prop) (p : Qubit) (ops : List Operation) : Prop :=
  ∀ q b, measuring (q, b) ∈ ops → measured q b ∧ p ≠ q

section runs
variable {measured : Qubit → Clbit → Prop} {p q : Qubit} {b : Clbit} {op : Operation}
  {before rest out : List Operation} {ms : List Move} {d : OrderedMap Qubit Clbit} {s : State}

theorem Spares.of_scans (h : Spares measured p (before ++ op :: rest))
    (hscans : Scans q b before [] rest ms out) : Spares measured p out := by
  intro r c hmem
  have hold := hscans.mem_of_isMeasure hmem rfl
  refine h r c ?_
  simp only [List.nil_append, List.mem_append, List.mem_cons] at hold ⊢
  rcases hold with hbefore | hrest
  · exact .inl hbefore
  · exact .inr (.inr hrest)

theorem Spares.of_defer (h : Spares measured p (before ++ op :: rest))
    (hop : measurement? op = .ok (some (q, b))) : measured q b ∧ p ≠ q := by
  refine h q b ?_
  rw [← eq_measuring hop]
  simp

theorem Runs.reorders (h : Runs before rest d s) (hspare : Spares measured p (before ++ rest)) :
    Reorders measured p (movesFrom before.length (before ++ rest))
      ((before ++ rest).filter (·.actsOn p)) (s.ops.filter (·.actsOn p)) := by
  induction h with
  | finish before d =>
    rw [movesFrom_nil, List.append_nil]
    exact .nil _
  | @pass before rest op d s hop _ ih =>
    rw [List.append_cons] at hspare
    rw [movesFrom_pass hop, List.append_cons before op rest]
    exact ih hspare
  | last hop =>
    rw [movesFrom_last hop]
    exact .nil _
  | @defer before rest rest' op d s q b hop hrest hscan _ ih =>
    obtain ⟨hm, hpq⟩ := hspare.of_defer hop
    have hscans := scans_of_defer hscan
    have hoff : op.actsOn p = false := by
      rw [eq_measuring hop]
      simp [measuring, actsOn, hpq]
    have hgone : (before ++ op :: rest).filter (·.actsOn p) =
        (before ++ ([] ++ rest)).filter (·.actsOn p) := by
      simp [hoff]
    rw [movesFrom_defer hop hrest hscan, hgone]
    exact (hscans.reorders hpq hm).trans (ih (hspare.of_scans hscans))

/-- What a run has deferred are measurements of other qubits. -/
theorem Runs.deferred_ne (h : Runs before rest d s) (hspare : Spares measured p (before ++ rest))
    (hd : ∀ m ∈ d.entries, p ≠ m.1) : ∀ m ∈ s.deferred.entries, p ≠ m.1 := by
  induction h with
  | finish => exact hd
  | pass _ _ ih =>
    rw [List.append_cons] at hspare
    exact ih hspare hd
  | last => exact hd
  | @defer before rest rest' op d s q b hop _ hscan _ ih =>
    apply ih (hspare.of_scans (scans_of_defer hscan))
    intro m hmem
    have hmem' := (d.entries_insert_perm q b).mem_iff.1 hmem
    rcases List.mem_cons.1 hmem' with rfl | hold
    · exact (hspare.of_defer hop).2
    · exact hd m (List.mem_filter.1 hold).1

end runs

/-- The operations on a qubit that is not measured, before and after the deferral. -/
theorem reorders_deferMeasurements {c out : Circuit} {measured : Qubit → Clbit → Prop} {p : Qubit}
    (h : c.deferMeasurements = .done out) (hspare : Spares measured p c.ops) :
    Reorders measured p c.deferralMoves (c.ops.filter (·.actsOn p))
      (out.ops.filter (·.actsOn p)) := by
  obtain ⟨s, hruns, hout⟩ := deferMeasurements_eq_done h
  have hnone : (s.deferred.entries.map measuring).filter (·.actsOn p) = [] := by
    rw [List.filter_eq_nil_iff]
    intro o ho
    obtain ⟨m, hm, rfl⟩ := List.mem_map.1 ho
    have hne := hruns.deferred_ne hspare nofun m hm
    simp [measuring, actsOn, hne]
  rw [hout, List.filter_append, hnone, List.append_nil]
  exact hruns.reorders hspare

end Deferral
end QuantumCircuit
