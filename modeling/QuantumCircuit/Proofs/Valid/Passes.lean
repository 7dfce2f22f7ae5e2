import QuantumCircuit.Proofs.Backpropagation
import QuantumCircuit.Proofs.Nesting
import QuantumCircuit.Proofs.Reset.Sound
import QuantumCircuit.Proofs.Schedule.Extension
import QuantumCircuit.Proofs.Valid.Basic
import QuantumCircuit.Proofs.Walk

/-! Passes on valid circuits. Each of them succeeds and leaves a valid circuit: what it
writes are leaves it has found, gates on their qubits, or identities that are swept up
at the end. -/
namespace QuantumCircuit
open Operation

/-! ## Identities -/

namespace Operation
variable {n m : Nat} {op : Operation}

/-- The leaves that are not identities fit. -/
def NearlyFits (n m : Nat) (op : Operation) : Prop :=
  ∀ leaf ∈ op.leaves, leaf.isIdentity = false → leaf.Fits n m

theorem Fits.nearlyFits (h : op.Fits n m) : op.NearlyFits n m :=
  fun leaf hleaf _ => fits_iff_leaves.1 h leaf hleaf

theorem nearlyFits_of_isIdentity (h : op.isIdentity = true) : op.NearlyFits n m := by
  intro leaf hleaf hnot
  rw [leaves_of_isIdentity h, List.mem_singleton] at hleaf
  rw [hleaf, h] at hnot
  cases hnot

theorem nearlyFits_compound {children : List Operation} :
    (Operation.compound children).NearlyFits n m ↔ ∀ c ∈ children, c.NearlyFits n m := by
  simp only [NearlyFits, leaves_compound, mem_leavesOfAll]
  constructor
  · intro h c hc leaf hleaf
    exact h leaf ⟨c, hc, hleaf⟩
  · rintro h leaf ⟨c, hc, hleaf⟩
    exact h c hc leaf hleaf

-- Only compounds, and conditions on them, keep their kind.
theorem retag_eq_or_isIdentity (op : Operation) :
    op.retag .i = op ∨ (op.retag .i).isIdentity = true := by
  induction op using inductionOn with
  | gate g => exact .inr rfl
  | effect e => exact .inr rfl
  | conditional cond body ih => exact ih.imp_left (congrArg _)
  | compound children _ => exact .inl rfl

theorem NearlyFits.retag (h : op.NearlyFits n m) : (op.retag .i).NearlyFits n m := by
  rcases op.retag_eq_or_isIdentity with hsame | hid
  · rwa [hsame]
  · exact nearlyFits_of_isIdentity hid

end Operation

namespace Circuit
variable {c : Circuit}

/-- Sweeping up the identities leaves a valid circuit if all else fits. -/
theorem Valid.strip (h : c.Valid) {out : List Operation}
    (hout : ∀ op ∈ out, op.NearlyFits c.numQubits c.numClbits) :
    Valid (removeIdentities { c with ops := out }) := by
  refine h.withOps fun leaf hleaf => ?_
  rw [leavesOfAll_stripAll, List.mem_filter] at hleaf
  obtain ⟨op, hop, hmem⟩ := mem_leavesOfAll.1 hleaf.1
  exact hout op hop leaf hmem (by simpa using hleaf.2)

theorem Valid.removeIdentities (h : c.Valid) : c.removeIdentities.Valid :=
  h.strip fun op hop => (h.ops op hop).nearlyFits

theorem Valid.flatten (h : c.Valid) : c.flatten.Valid := by
  refine h.withOps fun leaf hleaf => h.leaf ?_
  rwa [leavesOfAll_leavesOfAll] at hleaf

/-! ## Sweeps -/

/-- A sweep whose steps keep the invariant keeps the circuit valid. -/
theorem Valid.sweep {M : Type*} [Monoid M] {val : Operation → M}
    {step : Nat → Sweep → Except PassError Sweep} (h : c.Valid)
    (hone : ∀ leaf, leaf.isIdentity = true → val leaf = 1)
    (hstep : ∀ k s, k < c.ops.length → Sweep.Inv val c.ops k s →
      ∃ s', step k s = .ok s' ∧ Sweep.Inv val c.ops (k + 1) s') :
    ∃ out, Sweep.run step c = .done out ∧ out.Valid := by
  obtain ⟨out, hrun, -, hleaves⟩ := Sweep.run_spec hone hstep
  refine ⟨_, hrun, h.withOps fun leaf hleaf => ?_⟩
  obtain ⟨hid, hderived⟩ := hleaves leaf hleaf
  rcases hderived.cases hid with hold | ⟨g, rfl, hvalid, hacts⟩
  · exact h.leaf hold
  · refine fits_gate hvalid fun q hq => ?_
    obtain ⟨op, hop, hopq⟩ := hacts q hq
    exact (h.ops op hop).index_lt hopq

-- The invariant is about the value of the circuit as well, which does not matter here, so
-- any interpretation of the gates will do.
theorem Valid.reconstructSwaps (h : c.Valid) :
    ∃ out, c.reconstructSwaps = .done out ∧ out.Valid :=
  h.sweep signModel.val_of_isIdentity fun _ _ =>
    SwapReconstruction.step_spec signModel.pairLaws fun op hop => (h.ops op hop).shape

theorem Valid.cancelCnots (h : c.Valid) : ∃ out, c.cancelCnots = .done out ∧ out.Valid :=
  h.sweep signModel.val_of_isIdentity fun _ _ =>
    CnotCancellation.step_spec signModel.pairLaws fun op hop => (h.ops op hop).shape

theorem Valid.fuseSingleQubitGates (h : c.Valid) :
    ∃ out, c.fuseSingleQubitGates = .done out ∧ out.Valid :=
  h.sweep signModel.val_of_isIdentity fun _ _ =>
    Fusion.step_spec signModel.singleLaws fun op hop => (h.ops op hop).shape

end Circuit

/-! ## Walks from the back -/

section walks
variable {n m : Nat} {q : Qubit} {op : Operation}

theorem Diagonal.nearlyFits_gatePlan {g : Gate} (h : op.NearlyFits n m) :
    ∀ stage ∈ (gatePlan q op g).stages, stage.result.NearlyFits n m := by
  intro stage hstage
  rw [gatePlan] at hstage
  split at hstage
  · split at hstage
    · cases hstage
    · rw [List.mem_singleton.1 hstage]
      exact h.retag
  · cases hstage

/-- The walk in front of measurements turns operations into identities, alone or among
their siblings. -/
theorem Diagonal.nearlyFits_rule (h : op.NearlyFits n m) :
    ∀ stage ∈ (rule q op).stages, stage.result.NearlyFits n m := by
  intro stage hstage
  cases op with
  | gate g => exact nearlyFits_gatePlan h stage hstage
  | effect e => cases hstage
  | conditional cond body =>
    cases body with
    | gate g => exact nearlyFits_gatePlan h stage hstage
    | compound children => cases hstage
    | effect e => cases hstage
    | conditional cond' body' => cases hstage
  | compound children =>
    have hchildren := nearlyFits_compound.1 h
    have hretag : ∀ c ∈ children.map (retag .i), c.NearlyFits n m := by
      intro c hc
      obtain ⟨old, hold, rfl⟩ := List.mem_map.1 hc
      exact (hchildren old hold).retag
    rw [rule, compoundPlan] at hstage
    split at hstage
    · rw [List.mem_singleton.1 hstage]
      refine nearlyFits_compound.2 fun c hc => ?_
      rcases List.mem_append.1 hc with hc | hc
      · exact hchildren c (List.mem_of_mem_take hc)
      · exact hretag c (List.map_subset _ (List.drop_subset _ _) hc)
    · split at hstage
      · rw [List.mem_singleton.1 hstage]
        exact nearlyFits_compound.2 hretag
      · cases hstage

theorem FinalMeasurement.nearlyFits_childStages {slots : List Nat} {children : List Operation}
    (h : ∀ c ∈ children, c.NearlyFits n m) :
    ∀ stage ∈ childStages q slots children, stage.result.NearlyFits n m := by
  induction slots generalizing children with
  | nil => simp [childStages]
  | cons i rest ih =>
    intro stage hstage
    rw [childStages] at hstage
    split at hstage
    · exact ih h stage hstage
    · next child hchild =>
      split at hstage
      · have hset : ∀ c ∈ children.set i (child.retag .i), c.NearlyFits n m := by
          intro c hc
          rcases List.mem_or_eq_of_mem_set hc with hc | rfl
          · exact h c hc
          · exact (h child (List.mem_of_getElem? hchild)).retag
        rcases List.mem_cons.1 hstage with rfl | hstage
        · exact nearlyFits_compound.2 hset
        · exact ih hset stage hstage
      · exact ih h stage hstage

theorem FinalMeasurement.nearlyFits_rule (h : op.NearlyFits n m) :
    ∀ stage ∈ (rule q op).stages, stage.result.NearlyFits n m := by
  intro stage hstage
  cases op with
  | gate g => cases hstage
  | conditional cond body => cases hstage
  | effect e =>
    rw [rule] at hstage
    split at hstage
    · rw [List.mem_singleton.1 hstage]
      exact h.retag
    · cases hstage
  | compound children =>
    rw [rule] at hstage
    split at hstage
    · exact nearlyFits_childStages (nearlyFits_compound.1 h) stage hstage
    · cases hstage

end walks

namespace Circuit
variable {c : Circuit}

theorem Valid.runOn (h : c.Valid) {rule : Rule}
    (hrule : ∀ {n m} q op, op.NearlyFits n m →
      ∀ stage ∈ (rule q op).stages, stage.result.NearlyFits n m)
    (passName : String) (start : List Operation → List Nat → List Nat) :
    ∃ out, Walk.runOn passName rule start c = .done out ∧ out.Valid := by
  obtain ⟨lanes, hlanes⟩ := Lanes.exists_build passName fun op hop => (h.ops op hop).shape
  rw [Walk.runOn, hlanes]
  refine ⟨_, rfl, h.strip ?_⟩
  exact Walk.forall_run hrule fun op hop => (h.ops op hop).nearlyFits

theorem Valid.removeDiagonalGates (h : c.Valid) :
    ∃ out, c.removeDiagonalGates = .done out ∧ out.Valid :=
  h.runOn (fun _ _ => Diagonal.nearlyFits_rule) _ _

theorem Valid.removeFinalMeasurements (h : c.Valid) :
    ∃ out, c.removeFinalMeasurements = .done out ∧ out.Valid :=
  h.runOn (fun _ _ => FinalMeasurement.nearlyFits_rule) _ _

/-! ## Expansions -/

/-- A circuit stays valid when gates are replaced by ones that pass the check, on the
qubits of the gate in whose place they stand. -/
theorem Valid.substitute (h : c.Valid) {f : Substitution}
    (hf : ∀ {g gates}, g.validate = .ok () → f g = some gates →
      ∀ g' ∈ gates, g'.validate = .ok () ∧ ∀ q, g'.actsOn q = true → g.actsOn q = true) :
    (c.substitute f).Valid := by
  refine h.withOps fun leaf hleaf => ?_
  rcases mem_leavesOfAll_substituteAll hleaf with hold | ⟨g, gates, g', hg, hgates, hg', rfl⟩
  · exact h.leaf hold
  · have hfits := h.leaf hg
    obtain ⟨hvalid, hacts⟩ := hf hfits.shape hgates g' hg'
    exact fits_gate hvalid fun q hq => hfits.index_lt (hacts q hq)

theorem Valid.decomposeSwaps (h : c.Valid) (directed : Bool) : (c.decomposeSwaps directed).Valid :=
  h.substitute valid_expandSwap

theorem Valid.replaceControlledX (h : c.Valid) : c.replaceControlledX.Valid :=
  h.substitute valid_expandControlledX

/-! ## Resets -/

/-- A valid circuit has no qubits in use above those it counts. -/
theorem Valid.ceiling_eq (h : c.Valid) : c.ceiling = c.numQubits := by
  refine eq_of_forall_lt_iff fun k => (lt_ceiling_iff (q := ⟨k⟩)).trans (or_iff_left_of_imp ?_)
  rintro (⟨p, hp, hle⟩ | ⟨op, hop, p, hp, hle⟩)
  · exact Nat.lt_of_le_of_lt hle (h.initial p (OrderedMap.mem_keys.2 hp))
  · exact Nat.lt_of_le_of_lt hle ((h.ops op hop).index_lt hp)

end Circuit

namespace Renaming

theorem numClbits_renewAll (r : Renaming) (qs : List Qubit) :
    (r.renewAll qs).circuit.numClbits = r.circuit.numClbits := by
  induction qs generalizing r with
  | nil => rfl
  | cons q rest ih => exact ih (r.renew q)

/-- Leaves that keep to the qubits below the first fresh one fit when they are renamed,
once the fresh ones count as well. -/
theorem fits_relabelLeaves {base m : Nat} {r : Renaming} (hr : r.Apart base)
    {leaves : List Operation} (h : ∀ leaf ∈ leaves, leaf.Fits base m)
    (hroom : r.next + (Operation.resetTargets leaves).length < wordBound) :
    ∀ leaf ∈ r.relabelLeaves leaves,
      leaf.Fits (r.next + (Operation.resetTargets leaves).length) m := by
  induction leaves generalizing r with
  | nil => simp [relabelLeaves]
  | cons op rest ih =>
    have hrest := fun leaf hleaf => h leaf (List.mem_cons_of_mem op hleaf)
    cases hop : op.isReset with
    | true =>
      rw [resetTargets_cons_of_isReset hop, List.length_append] at hroom ⊢
      have hhere : r.next + op.targets.length < wordBound := by omega
      have hnext := next_renewAll_of_lt hhere
      rw [relabelLeaves_cons_of_isReset r hop, ← Nat.add_assoc, ← hnext]
      exact ih (hr.renewAll hhere) hrest (by omega)
    | false =>
      rw [resetTargets_cons_of_not_isReset hop] at hroom ⊢
      rw [relabelLeaves_cons_of_not_isReset r hop]
      intro leaf hleaf
      rcases List.mem_cons.1 hleaf with rfl | hleaf
      · have hfits : (op.mapQubits r.apply).Fits r.next m :=
          (h op List.mem_cons_self).mapQubits hr.injOn fun q hq => hr.apply_lt hq
        exact hfits.mono (Nat.le_add_right _ _)
      · exact ih hr hrest hroom leaf hleaf

end Renaming

theorem Layout.index_lt_of_fresh {old new : Layout} {n k : Nat} {p : Qubit}
    (hget : new.get? p = if p ∈ qubitsFrom n k then some p else old.get? p)
    (hold : ∀ q ∈ old.keys, q.index < n) (hp : p ∈ new.keys) : p.index < n + k := by
  rw [OrderedMap.mem_keys, hget] at hp
  split at hp
  · next hfresh => exact (mem_qubitsFrom.1 hfresh).2
  · exact Nat.lt_of_lt_of_le (hold p (OrderedMap.mem_keys.2 hp)) (Nat.le_add_right n k)

namespace Circuit
variable {c : Circuit}

theorem Valid.hasRoom_iff (h : c.Valid) :
    c.HasRoom ↔ c.numQubits + c.resetTargets.length < wordBound := by
  rw [HasRoom, h.ceiling_eq]

theorem Valid.eliminateResets (h : c.Valid) (hroom : c.HasRoom) :
    ∃ out, c.eliminateResets = .done out ∧ out.Valid := by
  obtain ⟨ops, hrun, hleaves, -⟩ := eliminateResets_of_done hroom.freshened
  refine ⟨_, hrun, ?_⟩
  have hwords := hroom.next_add_lt
  have hnext : c.unrenamed.next = c.numQubits := hroom.next_unrenamed.trans h.ceiling_eq
  have hcount : (c.unrenamed.renewAll c.resetTargets).circuit.numQubits =
      c.numQubits + c.resetTargets.length :=
    Renaming.numQubits_renewAll_of_lt hroom.numQubits_add_lt
  have hbits : (c.unrenamed.renewAll c.resetTargets).circuit.numClbits = c.numClbits :=
    Renaming.numClbits_renewAll _ _
  have hfits : ∀ leaf ∈ leavesOfAll ops,
      leaf.Fits (c.numQubits + c.resetTargets.length) c.numClbits := by
    rw [hleaves, ← hnext]
    exact Renaming.fits_relabelLeaves hroom.apart
      (fun leaf hleaf => h.ceiling_eq.symm ▸ h.leaf hleaf) hwords
  have hlayouts := fun p => Renaming.layouts_renewAll hwords p
  rw [hnext] at hlayouts
  refine ⟨fun op hop => fits_iff_leaves.2 fun leaf hleaf => ?_, fun p hp => ?_, fun p hp => ?_⟩
  · rw [hcount, hbits]
    exact hfits leaf (mem_leavesOfAll.2 ⟨op, hop, hleaf⟩)
  · rw [hcount]
    exact Layout.index_lt_of_fresh (hlayouts p).1 h.initial hp
  · rw [hcount]
    exact Layout.index_lt_of_fresh (hlayouts p).2 h.output hp

/-- Without room the count starts again from zero, and the first fresh qubit is above it. -/
theorem Valid.not_valid_of_not_hasRoom (h : c.Valid) (hcount : c.numQubits < wordBound)
    (hroom : ¬ c.HasRoom) {out : Circuit} (hrun : c.eliminateResets = .done out) :
    ¬ out.Valid := by
  have hnext : c.unrenamed.next = c.numQubits := by
    show c.firstFree = _
    rw [firstFree_eq_ceiling (by rwa [h.ceiling_eq]), h.ceiling_eq]
  rw [h.hasRoom_iff] at hroom
  cases hfresh : c.freshened with
  | failed cause r =>
    rw [eliminateResets_of_failed hfresh] at hrun
    cases hrun
  | done r =>
    obtain ⟨ops, hdone, -⟩ := eliminateResets_of_done hfresh
    rw [hdone] at hrun
    cases hrun
    obtain rfl := Renaming.eq_renewAll_of_forEach hfresh
    intro hvalid
    have hne : c.resetTargets ≠ [] := by
      intro hnil
      rw [hnil] at hroom
      exact hroom hcount
    have hlength : c.resetTargets.length ≤ wordBound :=
      Renaming.length_le_of_forEach hfresh (hnext.symm ▸ hcount)
    have hlt : c.numQubits < (c.unrenamed.renewAll c.resetTargets).circuit.numQubits := by
      refine hvalid.initial ⟨c.numQubits⟩ (OrderedMap.mem_keys.2 ?_)
      rw [← hnext]
      exact c.unrenamed.isSome_next_renewAll hne
    rw [Renaming.numQubits_renewAll hcount] at hlt
    exact Nat.not_lt.2 (wordAdd_le_left hcount hlength (Nat.le_of_not_lt hroom)) hlt

/-! ## Order and layouts -/

theorem Valid.reorder (h : c.Valid) : ∃ out, c.reorder = .done out ∧ out.Valid := by
  obtain ⟨out, hrun, -, hmem⟩ := reorder_spec fun op hop => (h.ops op hop).shape
  exact ⟨_, hrun, fun op hop => h.ops op (hmem op hop), h.initial, h.output⟩

theorem Valid.backpropagateOutput (h : c.Valid) :
    ∃ out, c.backpropagateOutput = .done out ∧ out.Valid := by
  obtain ⟨p, hp, hroom⟩ := exists_startPlacement (fun op hop q hq => (h.ops op hop).index_lt hq)
    fun q hq => h.output q (OrderedMap.mem_keys.2 hq)
  refine ⟨{ c with initial := p.layout }, by rw [backpropagateOutput_eq, hp]; rfl, h.ops, ?_,
    h.output⟩
  intro q hq
  exact hroom.below q (OrderedMap.mem_keys.1 hq)

/-- On a valid circuit each of these passes succeeds and leaves a valid circuit. Eliminating
resets does so as long as the count of qubits stays a word: if it does not, the elimination
fails or the circuit that it leaves is not valid. -/
theorem passes_keep_valid (h : c.Valid) :
    (∀ edit ∈ [Circuit.removeIdentities, Circuit.flatten, Circuit.decomposeSwaps false,
        Circuit.decomposeSwaps true, Circuit.replaceControlledX], (edit c).Valid) ∧
      (∀ edit ∈ [Circuit.reconstructSwaps, Circuit.cancelCnots, Circuit.fuseSingleQubitGates,
          Circuit.removeDiagonalGates, Circuit.removeFinalMeasurements, Circuit.reorder,
          Circuit.backpropagateOutput],
        ∃ out, edit c = .done out ∧ out.Valid) ∧
      (c.numQubits < wordBound →
        ((∃ out, c.eliminateResets = .done out ∧ out.Valid) ↔
          c.numQubits + c.resetTargets.length < wordBound)) := by
  refine ⟨?_, ?_, fun hcount => ⟨?_, fun hroom => ?_⟩⟩
  · simp only [List.forall_mem_cons]
    exact ⟨h.removeIdentities, h.flatten, h.decomposeSwaps false, h.decomposeSwaps true,
      h.replaceControlledX, by simp⟩
  · simp only [List.forall_mem_cons]
    exact ⟨h.reconstructSwaps, h.cancelCnots, h.fuseSingleQubitGates, h.removeDiagonalGates,
      h.removeFinalMeasurements, h.reorder, h.backpropagateOutput, by simp⟩
  · rintro ⟨out, hrun, hvalid⟩
    by_contra hnot
    exact h.not_valid_of_not_hasRoom hcount (mt h.hasRoom_iff.1 hnot) hrun hvalid
  · exact h.eliminateResets (h.hasRoom_iff.2 hroom)

/-- A nested SWAP and reset, a measurement that a later gate depends on, and an output
layout that leaves a qubit out. -/
def shuttle : Circuit where
  name := "shuttle"
  numQubits := 3
  numClbits := 2
  ops := [
    .compound [.gate (.swap ⟨0⟩ ⟨1⟩), .compound [.effect { kind := .reset, targets := [⟨0⟩] }]],
    .gate (.cnot ⟨0⟩ ⟨1⟩),
    .gate (.ofKind .z [⟨1⟩]),
    .effect { kind := .measure, targets := [⟨1⟩], clbits := [⟨0⟩] },
    .conditional ⟨.single ⟨0⟩, 1⟩ (.gate (.ofKind .x [⟨2⟩]))]
  output := .ofList [(⟨0⟩, ⟨2⟩), (⟨2⟩, ⟨7⟩)]

theorem passes_keep_valid_shuttle :
    shuttle.Valid ∧ (shuttle.decomposeSwaps true).Valid ∧
      (∃ out, shuttle.eliminateResets = .done out ∧ out.Valid) ∧
      ∃ out, shuttle.backpropagateOutput = .done out ∧ out.Valid := by
  have hvalid : shuttle.Valid := by decide
  obtain ⟨htotal, hpartial, hresets⟩ := passes_keep_valid hvalid
  exact ⟨hvalid, htotal _ (by simp), (hresets (by decide)).2 (by decide), hpartial _ (by simp)⟩

/-- As many qubits as there are numbers for, and one of them is reset. -/
def brimful : Circuit where
  name := "brimful"
  numQubits := 4294967295
  ops := [.effect ⟨.reset, [⟨0⟩], []⟩, .gate (.ofKind .x [⟨1⟩])]

/-- The circuit is valid, but the one that is left counts no qubit. -/
theorem eliminateResets_brimful :
    brimful.Valid ∧ ∃ out, brimful.eliminateResets = .done out ∧ out.numQubits = 0 ∧
      out.ops = [.gate (.ofKind .x [⟨1⟩])] ∧ ¬ out.Valid :=
  ⟨by decide, _, by cbv, rfl, rfl, by decide⟩

end Circuit
end QuantumCircuit
