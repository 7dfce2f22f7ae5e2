import Mathlib.Data.List.Permutation
import QuantumCircuit.Pass.Pipeline
import QuantumCircuit.Proofs.Failure.Deferral
import QuantumCircuit.Proofs.Reset.Relabel

/-! Pipelines that fail. The passes in front of the failed one have done their work, and
so has part of the failed one, in the case of those passes that change the circuit while
they are still looking at it: the sweeps, the elimination of resets, the deferral, and block
collection, which defers measurements. Every other pass gives its circuit back unchanged. -/
namespace QuantumCircuit

/-- The passes of the library. -/
inductive BuiltIn where
  | dynamicAnalysis
  | removeIdentities
  | reconstructSwaps
  | cancelCnots
  | fuseSingleQubitGates
  | removeDiagonalGates
  | removeFinalMeasurements
  | backpropagateOutput
  | decomposeSwaps (directed : Bool)
  | replaceControlledX
  | eliminateResets
  | deferMeasurements
  | reorder
  | flatten
  | collectBlocks (limit : Nat)
deriving DecidableEq, Repr

namespace BuiltIn

def pass : BuiltIn → Pass
  | dynamicAnalysis => .dynamicAnalysis
  | removeIdentities => .removeIdentities
  | reconstructSwaps => .reconstructSwaps
  | cancelCnots => .cancelCnots
  | fuseSingleQubitGates => .fuseSingleQubitGates
  | removeDiagonalGates => .removeDiagonalGates
  | removeFinalMeasurements => .removeFinalMeasurements
  | backpropagateOutput => .backpropagateOutput
  | decomposeSwaps directed => .decomposeSwaps directed
  | replaceControlledX => .replaceControlledX
  | eliminateResets => .eliminateResets
  | deferMeasurements => .deferMeasurements
  | reorder => .reorder
  | flatten => .flatten
  | collectBlocks limit => .collectBlocks limit

/-- What the pass leaves of a circuit when it fails on it. -/
def Leaves : BuiltIn → PassError → Circuit → Circuit → Prop
  | dynamicAnalysis, _, c, c' => c' = c
  | removeDiagonalGates, _, c, c' => c' = c
  | removeFinalMeasurements, _, c, c' => c' = c
  | backpropagateOutput, _, c, c' => c' = c
  | reorder, _, c, c' => c' = c
  | reconstructSwaps, e, c, c' =>
    Sweep.StopsWith SwapReconstruction.passName SwapReconstruction.step e c c'
  | cancelCnots, e, c, c' =>
    Sweep.StopsWith CnotCancellation.passName CnotCancellation.step e c c'
  | fuseSingleQubitGates, e, c, c' => Sweep.StopsWith Fusion.passName Fusion.step e c c'
  | eliminateResets, e, c, c' => Circuit.RunsOut e c c'
  | deferMeasurements, e, c, c' => Deferral.StopsWith e c c'
  | collectBlocks limit, e, c, c' =>
    c' = c ∨ limit ≠ 0 ∧ ∃ r, c.reorder = .done r ∧ Deferral.StopsWith e r c'
  -- These passes never fail.
  | removeIdentities, _, _, _ => False
  | decomposeSwaps _, _, _, _ => False
  | replaceControlledX, _, _, _ => False
  | flatten, _, _, _ => False

/-- Whether a failed run of the pass leaves every circuit as it was. -/
def restores : BuiltIn → Bool
  | reconstructSwaps | cancelCnots | fuseSingleQubitGates => false
  | eliminateResets | deferMeasurements => false
  | collectBlocks limit => limit = 0
  | _ => true

end BuiltIn

/-! ## Single passes -/

section passes
variable {w v : Workspace} {e : PassError} {c c' : Circuit}

/-- What a failed edit leaves, the pass leaves. -/
theorem Pass.leaves_ofEdit {name : String} {edit : Circuit → Outcome Circuit}
    {left : PassError → Circuit → Circuit → Prop}
    (hedit : ∀ {e c c'}, edit c = .failed e c' → left e c c')
    (h : (Pass.ofEdit name edit).run w = .failed e v) :
    ∃ c', v = { w with circuit := c' } ∧ left e w.circuit c' := by
  have hmap : (edit w.circuit).map (fun c => { w with circuit := c }) = .failed e v := h
  cases hrun : edit w.circuit with
  | done c' =>
    rw [hrun] at hmap
    cases hmap
  | failed cause c' =>
    rw [hrun] at hmap
    cases hmap
    exact ⟨c', rfl, hedit hrun⟩

theorem Pass.run_ofAnalysis_eq_failed {α : Type} {name : String} {p : Property α}
    {analyse : Circuit → Except PassError α}
    (h : (Pass.ofAnalysis name p analyse).run w = .failed e v) : v = w := by
  have hrun : Outcome.ofExcept w ((analyse w.circuit).map fun a =>
      { w with properties := w.properties.insert p a }) = .failed e v := h
  cases hfound : analyse w.circuit with
  | ok a =>
    rw [hfound] at hrun
    cases hrun
  | error cause =>
    rw [hfound] at hrun
    cases hrun
    rfl

theorem Walk.runOn_eq_failed {pass : String} {rule : Rule}
    {start : List Operation → List Nat → List Nat} (h : runOn pass rule start c = .failed e c') :
    c' = c := by
  rw [runOn] at h
  split at h
  · cases h
    rfl
  · cases h

theorem Circuit.reorder_eq_failed (h : c.reorder = .failed e c') : c' = c := by
  rw [reorder] at h
  split at h
  · cases h
    rfl
  · cases h

theorem Circuit.backpropagateOutput_eq_failed (h : c.backpropagateOutput = .failed e c') :
    c' = c := by
  rw [backpropagateOutput] at h
  split at h
  · cases h
  · cases h
    rfl

theorem Circuit.collectBlocks_eq_failed {limit : Nat} (h : c.collectBlocks limit = .failed e c') :
    c' = c ∨ limit ≠ 0 ∧ ∃ r, c.reorder = .done r ∧ Deferral.StopsWith e r c' := by
  rw [collectBlocks] at h
  split at h
  · cases h
  · split at h
    · cases h
      exact .inl rfl
    · next hlimit =>
      cases hreorder : c.reorder with
      | failed cause r =>
        rw [hreorder] at h
        cases h
        exact .inl (reorder_eq_failed hreorder)
      | done r =>
        rw [hreorder] at h
        cases hdefer : r.deferMeasurements with
        | done r' =>
          have hrun : (Outcome.andThen (.done r) deferMeasurements) = .done r' := hdefer
          rw [hrun] at h
          cases h
        | failed cause r' =>
          have hrun : (Outcome.andThen (.done r) deferMeasurements) = .failed cause r' := hdefer
          rw [hrun] at h
          cases h
          exact .inr ⟨hlimit, r, rfl, Deferral.stopsWith_of_deferMeasurements hdefer⟩

/-- A failed pass has changed nothing but the circuit. -/
theorem BuiltIn.leaves_of_run {b : BuiltIn} (h : b.pass.run w = .failed e v) :
    ∃ c', v = { w with circuit := c' } ∧ b.Leaves e w.circuit c' := by
  cases b with
  | dynamicAnalysis => exact ⟨w.circuit, Pass.run_ofAnalysis_eq_failed h, rfl⟩
  | removeIdentities => cases h
  | reconstructSwaps => exact Pass.leaves_ofEdit SwapReconstruction.local_step.stopsWith_of_run h
  | cancelCnots => exact Pass.leaves_ofEdit CnotCancellation.local_step.stopsWith_of_run h
  | fuseSingleQubitGates => exact Pass.leaves_ofEdit Fusion.local_step.stopsWith_of_run h
  | removeDiagonalGates => exact Pass.leaves_ofEdit Walk.runOn_eq_failed h
  | removeFinalMeasurements => exact Pass.leaves_ofEdit Walk.runOn_eq_failed h
  | backpropagateOutput => exact Pass.leaves_ofEdit Circuit.backpropagateOutput_eq_failed h
  | decomposeSwaps directed => cases h
  | replaceControlledX => cases h
  | eliminateResets => exact Pass.leaves_ofEdit Circuit.runsOut_of_eliminateResets h
  | deferMeasurements => exact Pass.leaves_ofEdit Deferral.stopsWith_of_deferMeasurements h
  | reorder => exact Pass.leaves_ofEdit Circuit.reorder_eq_failed h
  | flatten => cases h
  | collectBlocks limit => exact Pass.leaves_ofEdit Circuit.collectBlocks_eq_failed h

theorem BuiltIn.eq_of_leaves {b : BuiltIn} (hb : b.restores = true) (h : b.Leaves e c c') :
    c' = c := by
  cases b with
  | dynamicAnalysis => exact h
  | removeDiagonalGates => exact h
  | removeFinalMeasurements => exact h
  | backpropagateOutput => exact h
  | reorder => exact h
  | collectBlocks limit =>
    rcases h with h | ⟨hlimit, -⟩
    · exact h
    · exact absurd (of_decide_eq_true hb) hlimit
  | reconstructSwaps => cases hb
  | cancelCnots => cases hb
  | fuseSingleQubitGates => cases hb
  | eliminateResets => cases hb
  | deferMeasurements => cases hb
  | removeIdentities => cases h
  | decomposeSwaps directed => cases h
  | replaceControlledX => cases h
  | flatten => cases h

theorem BuiltIn.eq_of_run_failed {b : BuiltIn} (hb : b.restores = true)
    (h : b.pass.run w = .failed e v) : v = w := by
  obtain ⟨c', rfl, hleaves⟩ := leaves_of_run h
  rw [eq_of_leaves hb hleaves]

end passes

/-! ## Failures that leave their mark -/

namespace Circuit

/-- Pairs of gates that cancel, in front of a gate that is none. -/
def misplaced : Circuit :=
  { withSize "misplaced" 2 0 with
    ops := [.gate (.cnot ⟨0⟩ ⟨1⟩), .gate (.cnot ⟨0⟩ ⟨1⟩), .gate (.ofKind .h [⟨0⟩]),
      .gate (.ofKind .h [⟨0⟩]), .gate (.ofKind .measure [⟨1⟩])] }

def resetting (q : Qubit) : Operation := .effect { kind := .reset, targets := [q] }

/-- A qubit is reset after its measurement. -/
def lateReset : Circuit :=
  { withSize "lateReset" 1 1 with
    ops := [.gate (.ofKind .i [⟨0⟩]), Deferral.measuring (⟨0⟩, ⟨0⟩), resetting ⟨0⟩] }

end Circuit

theorem Pass.exists_failed_ofEdit {name : String} {edit : Circuit → Outcome Circuit}
    {c c' : Circuit} {e : PassError} (hfailed : edit c = .failed e c') (hne : c' ≠ c) :
    ∃ w e v, (Pass.ofEdit name edit).run w = .failed e v ∧ v ≠ w := by
  refine ⟨⟨c, ∅⟩, e, ⟨c', ∅⟩, ?_, fun hv => hne (congrArg Workspace.circuit hv)⟩
  show (edit c).map _ = _
  rw [hfailed]
  rfl

theorem Circuit.deferMeasurements_lateReset :
    lateReset.deferMeasurements = .failed .resetAfterMeasure
      { lateReset with ops := [.gate (.ofKind .i [⟨0⟩]), resetting ⟨0⟩] } := by
  cbv

theorem Circuit.reorder_lateReset : lateReset.reorder = .done lateReset := rfl

/-- A pass that may leave its mark does so on one of three circuits. -/
theorem BuiltIn.exists_failed {b : BuiltIn} (hb : b.restores = false) :
    ∃ w e v, b.pass.run w = .failed e v ∧ v ≠ w := by
  cases b with
  | reconstructSwaps =>
    exact Pass.exists_failed_ofEdit
      (show Circuit.misplaced.reconstructSwaps = .failed _ _ from rfl) (by decide)
  | cancelCnots =>
    exact Pass.exists_failed_ofEdit
      (show Circuit.misplaced.cancelCnots = .failed _ _ from rfl) (by decide)
  | fuseSingleQubitGates =>
    exact Pass.exists_failed_ofEdit
      (show Circuit.misplaced.fuseSingleQubitGates = .failed _ _ from rfl) (by decide)
  | eliminateResets =>
    exact Pass.exists_failed_ofEdit Circuit.eliminateResets_outOfWords (by decide)
  | deferMeasurements =>
    exact Pass.exists_failed_ofEdit Circuit.deferMeasurements_lateReset (by decide)
  | collectBlocks limit =>
    have hlimit : ¬ limit = 0 := of_decide_eq_false hb
    have hrun : Circuit.lateReset.collectBlocks limit = .failed .resetAfterMeasure
        { Circuit.lateReset with ops := [.gate (.ofKind .i [⟨0⟩]), Circuit.resetting ⟨0⟩] } := by
      rw [Circuit.collectBlocks, if_neg (by decide), if_neg hlimit, Circuit.reorder_lateReset,
        Outcome.andThen, Circuit.deferMeasurements_lateReset, Outcome.andThen]
    exact Pass.exists_failed_ofEdit hrun (by decide)
  | dynamicAnalysis => cases hb
  | removeDiagonalGates => cases hb
  | removeFinalMeasurements => cases hb
  | backpropagateOutput => cases hb
  | reorder => cases hb
  | removeIdentities => cases hb
  | decomposeSwaps directed => cases hb
  | replaceControlledX => cases hb
  | flatten => cases hb

/-! ## Pipelines -/

namespace Pipeline
variable {p : Pipeline} {w v : Workspace} {e : PassError}

/-- A pipeline that fails does so in one of its passes, on what those in front have left. -/
theorem exists_of_run_eq_failed (h : run p w = .failed e v) :
    ∃ completed pass rest u, p = completed ++ pass :: rest ∧ run completed w = .done u ∧
      pass.run u = .failed e v := by
  induction p generalizing w with
  | nil => cases h
  | cons pass rest ih =>
    rw [run] at h
    split at h
    · next hrun =>
      cases hpass : pass.run w with
      | failed cause w' =>
        rw [hpass] at h
        cases h
        exact ⟨[], pass, rest, w, rfl, rfl, hpass⟩
      | done w' =>
        rw [hpass] at h
        obtain ⟨completed, failing, rest', u, rfl, hdone, hfailed⟩ := ih h
        refine ⟨pass :: completed, failing, rest', u, rfl, ?_, hfailed⟩
        rw [run, if_pos hrun, hpass]
        exact hdone
    · next hskip =>
      obtain ⟨completed, failing, rest', u, rfl, hdone, hfailed⟩ := ih h
      refine ⟨pass :: completed, failing, rest', u, rfl, ?_, hfailed⟩
      rw [run, if_neg hskip]
      exact hdone

/-- A pipeline that fails has run the passes in front of the failed one and kept their
properties, and the failed one has left of their circuit what it leaves when it fails. The
passes that may leave a changed circuit are exactly the sweeps, the elimination of resets,
the deferral and block collection. -/
theorem run_failed_leaves (p : List BuiltIn) (w : Workspace) :
    (∀ (v : Workspace) (e : PassError), run (p.map BuiltIn.pass) w = .failed e v →
        ∃ completed b rest u c', p = completed ++ b :: rest ∧
          run (completed.map BuiltIn.pass) w = .done u ∧ b.pass.run u = .failed e v ∧
          v = { u with circuit := c' } ∧ b.Leaves e u.circuit c' ∧
          (b.restores = true → v = u)) ∧
      ∀ b ∈ p, (b.restores = true ↔
        ∀ (u v : Workspace) (e : PassError), b.pass.run u = .failed e v → v = u) := by
  refine ⟨fun v e h => ?_, fun b _ => ⟨fun hb u v e => BuiltIn.eq_of_run_failed hb, fun h => ?_⟩⟩
  · obtain ⟨completed, pass, rest, u, hsplit, hdone, hfailed⟩ := exists_of_run_eq_failed h
    obtain ⟨front, back, rfl, rfl, hback⟩ := List.map_eq_append_iff.1 hsplit
    obtain ⟨b, rest', rfl, rfl, -⟩ := List.map_eq_cons_iff.1 hback
    obtain ⟨c', hv, hleaves⟩ := BuiltIn.leaves_of_run hfailed
    exact ⟨front, b, rest', u, c', rfl, hdone, hfailed, hv, hleaves,
      fun hb => BuiltIn.eq_of_run_failed hb hfailed⟩
  · by_contra hb
    obtain ⟨u, e, v, hfailed, hne⟩ := BuiltIn.exists_failed (Bool.eq_false_iff.2 hb)
    exact hne (h u v e hfailed)

/-- The measurement that the first pass leaves is gone when the second one has failed. -/
theorem run_lateReset :
    run ([.removeIdentities].map BuiltIn.pass) ⟨.lateReset, ∅⟩ = .done ⟨{ Circuit.lateReset with
        ops := [Deferral.measuring (⟨0⟩, ⟨0⟩), Circuit.resetting ⟨0⟩] }, ∅⟩ ∧
      run ([.removeIdentities, .deferMeasurements, .flatten].map BuiltIn.pass) ⟨.lateReset, ∅⟩ =
        .failed .resetAfterMeasure
          ⟨{ Circuit.lateReset with ops := [Circuit.resetting ⟨0⟩] }, ∅⟩ :=
  ⟨by cbv, by cbv⟩

theorem run_failed_leaves_lateReset :
    ∃ completed b rest u c', [.removeIdentities, .deferMeasurements, .flatten] =
        completed ++ b :: rest ∧
      run (completed.map BuiltIn.pass) ⟨.lateReset, ∅⟩ = .done u ∧
      b.pass.run u = .failed .resetAfterMeasure
        ⟨{ Circuit.lateReset with ops := [Circuit.resetting ⟨0⟩] }, ∅⟩ ∧
      b.Leaves .resetAfterMeasure u.circuit c' ∧ BuiltIn.deferMeasurements.restores = false := by
  obtain ⟨completed, b, rest, u, c', hsplit, hdone, hfailed, -, hleaves, -⟩ :=
    (run_failed_leaves _ _).1 _ _ run_lateReset.2
  exact ⟨completed, b, rest, u, c', hsplit, hdone, hfailed, hleaves, rfl⟩

end Pipeline
end QuantumCircuit
