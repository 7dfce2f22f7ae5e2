import QuantumCircuit.Proofs.GateModel

/-! Gates replaced by sequences of gates. A substitution acts on the leaves alone,
so it keeps the meaning of a circuit as soon as it keeps that of each gate; the
expansion of SWAPs does. The gates it brings in stay on the qubits of the old one. -/
namespace QuantumCircuit
open Operation

namespace Operation
variable {f : Substitution}

theorem leavesOfAll_map_gate (gates : List Gate) :
    leavesOfAll (gates.map .gate) = gates.map .gate := by
  induction gates with
  | nil => rfl
  | cons g rest ih =>
    rw [List.map_cons, leavesOfAll_cons, ih]
    rfl

-- As for sweeping up identities, the statement over a list follows from that for
-- each operation in it.
theorem leavesOfAll_substituteAll_of {ops : List Operation}
    (h : ∀ op ∈ ops, leavesOfAll (op.substitute f) = op.leaves.flatMap (substitute f)) :
    leavesOfAll (substituteAll f ops) = (leavesOfAll ops).flatMap (substitute f) := by
  induction ops with
  | nil => rfl
  | cons op rest ih =>
    rw [substituteAll, leavesOfAll_append, leavesOfAll_cons, List.flatMap_append,
      h op List.mem_cons_self, ih fun c hc => h c (List.mem_cons_of_mem _ hc)]

theorem leavesOfAll_substitute (op : Operation) :
    leavesOfAll (op.substitute f) = op.leaves.flatMap (substitute f) := by
  induction op using inductionOn with
  | gate g =>
    have hleaf : (Operation.gate g).leaves = [.gate g] := rfl
    rw [hleaf, List.flatMap_singleton, substitute]
    cases f g with
    | none => rfl
    | some gates => exact leavesOfAll_map_gate gates
  | effect e => simp [substitute, leaves]
  | conditional cond body _ => simp [substitute, leaves]
  | compound children ih =>
    rw [substitute, leavesOfAll_cons, leavesOfAll_nil, List.append_nil, leaves_compound,
      leavesOfAll_substituteAll_of ih, leaves_compound]

/-- A substitution replaces each leaf in its place. -/
theorem leavesOfAll_substituteAll (ops : List Operation) :
    leavesOfAll (substituteAll f ops) = (leavesOfAll ops).flatMap (substitute f) :=
  leavesOfAll_substituteAll_of fun op _ => leavesOfAll_substitute op

/-- After a substitution a leaf is an old one, or one of the gates in place of one. -/
theorem mem_leavesOfAll_substituteAll {ops : List Operation} {leaf : Operation}
    (h : leaf ∈ leavesOfAll (substituteAll f ops)) :
    leaf ∈ leavesOfAll ops ∨ ∃ g gates g', .gate g ∈ leavesOfAll ops ∧ f g = some gates ∧
      g' ∈ gates ∧ leaf = .gate g' := by
  rw [leavesOfAll_substituteAll, List.mem_flatMap] at h
  obtain ⟨old, hold, hnew⟩ := h
  cases old with
  | compound children => cases isCompound_of_mem_leavesOfAll hold
  | effect e => exact .inl (List.mem_singleton.1 hnew ▸ hold)
  | conditional cond body => exact .inl (List.mem_singleton.1 hnew ▸ hold)
  | gate g =>
    rw [substitute] at hnew
    split at hnew
    · next gates hgates =>
      obtain ⟨g', hg', rfl⟩ := List.mem_map.1 hnew
      exact .inr ⟨g, gates, g', hold, hgates, hg', rfl⟩
    · exact .inl (List.mem_singleton.1 hnew ▸ hold)

/-- A substitution that keeps the value of each leaf keeps the meaning. -/
theorem meaning_substituteAll {M : Type*} [Monoid M] {val : Operation → M} {ops : List Operation}
    (h : ∀ leaf ∈ leavesOfAll ops, ((leaf.substitute f).map val).prod = val leaf) :
    meaning val (substituteAll f ops) = meaning val ops := by
  rw [meaning, meaning, leavesOfAll_substituteAll]
  revert h
  induction leavesOfAll ops with
  | nil => exact fun _ => rfl
  | cons leaf rest ih =>
    intro h
    rw [List.flatMap_cons, List.map_append, List.prod_append, List.map_cons, List.prod_cons,
      h leaf List.mem_cons_self, ih fun l hl => h l (List.mem_cons_of_mem _ hl)]

end Operation

/-- A substitution that keeps the value of each gate keeps that of a circuit. -/
theorem GateModel.meaning_substituteAll {M : Type*} [Monoid M] (model : GateModel M)
    {f : Substitution} {ops : List Operation} (hops : ∀ op ∈ ops, op.validate = .ok ())
    (hf : ∀ {g : Gate} {gates : List Gate}, g.validate = .ok () → f g = some gates →
      (gates.map model.eval).prod = model.eval g) :
    meaning model.val (substituteAll f ops) = meaning model.val ops := by
  refine Operation.meaning_substituteAll fun leaf hleaf => ?_
  obtain ⟨op, hop, hmem⟩ := mem_leavesOfAll.1 hleaf
  have hvalid := validate_iff_leaves.1 (hops op hop) leaf hmem
  cases leaf with
  | compound children => cases leaf_not_compound hmem
  | effect e => exact List.prod_singleton
  | conditional cond body => exact List.prod_singleton
  | gate g =>
    rw [substitute]
    split
    · next gates hgates =>
      rw [List.map_map]
      exact hf hvalid hgates
    · exact List.prod_singleton

/-! ## SWAPs -/

namespace Gate
variable {cs : Controls} {a b q : Qubit}

theorem validate_controlledX (h : cs.qubits.Nodup) (ha : a ∉ cs.qubits) :
    (controlledX cs a).validate = .ok () := by
  refine validate_eq_ok_iff.2 ⟨rfl, ?_⟩
  simpa [operands, controlledX, List.nodup_append, h] using fun x hx => ne_of_mem_of_not_mem hx ha

theorem actsOn_controlledX : (controlledX cs a).actsOn q = true ↔ q = a ∨ q ∈ cs.qubits := by
  rw [← mem_operands]
  simp [operands, controlledX, or_comm]

end Gate

theorem valid_hadamard {g : Gate} {t : Qubit} (ht : g.actsOn t = true) :
    (hadamard t).validate = .ok () ∧ ∀ q, (hadamard t).actsOn q = true → g.actsOn q = true := by
  have hsingle : (hadamard t).IsSingle t := rfl
  refine ⟨rfl, fun q hq => ?_⟩
  rw [hsingle.actsOn_iff.1 hq]
  exact ht

section expandSwap
variable {directed : Bool} {g : Gate} {gates : List Gate}

theorem expandSwap_eq_some (h : expandSwap directed g = some gates) :
    ∃ a b, g.kind = .swap ∧ g.targets = [a, b] ∧
      gates = if directed then
          [.cnot a b, hadamard a, hadamard b, .controlledX (g.controls.insert (.pos a)) b,
            hadamard a, hadamard b, .cnot a b]
        else [.cnot a b, .controlledX (g.controls.insert (.pos b)) a, .cnot a b] := by
  rw [expandSwap] at h
  split at h
  · next a b hkind htargets =>
    refine ⟨a, b, hkind, htargets, ?_⟩
    cases directed <;> exact (Option.some.inj h).symm
  · cases h

/-- The two targets of a SWAP that passes the check differ and carry no control. -/
theorem operands_of_valid {a b : Qubit} (hg : g.validate = .ok ()) (ht : g.targets = [a, b]) :
    a ≠ b ∧ a ∉ g.controls.qubits ∧ b ∉ g.controls.qubits ∧ g.controls.qubits.Nodup := by
  have hnodup := (Gate.validate_eq_ok_iff.1 hg).2
  rw [Gate.operands, ht, List.nodup_append] at hnodup
  obtain ⟨hcontrols, hpair, hapart⟩ := hnodup
  refine ⟨by simpa using hpair, fun ha => ?_, fun hb => ?_, hcontrols⟩
  · exact hapart a ha a List.mem_cons_self rfl
  · exact hapart b hb b (by simp) rfl

/-- The expansion of a SWAP has the value of the SWAP. -/
theorem eval_expandSwap {M : Type*} [Monoid M] (model : GateModel M) (hg : g.validate = .ok ())
    (h : expandSwap directed g = some gates) : (gates.map model.eval).prod = model.eval g := by
  obtain ⟨a, b, hkind, htargets, rfl⟩ := expandSwap_eq_some h
  obtain ⟨hne, ha, hb, hnodup⟩ := operands_of_valid hg htargets
  have hplain : model.eval g =
      model.eval { kind := .swap, controls := g.controls, targets := [a, b] } := by
    have hparams := model.params g [] (by rw [hkind]; rfl)
    rw [← hparams, ← hkind, ← htargets]
  rw [hplain, model.controlled_swap hne ha hb hnodup]
  cases directed with
  | false => simp [mul_assoc]
  | true => simp [← model.hadamard_turn hne ha hb hnodup, mul_assoc]

/-- The expansion of a SWAP is made of gates that pass the check, on its qubits. -/
theorem valid_expandSwap (hg : g.validate = .ok ()) (h : expandSwap directed g = some gates) :
    ∀ g' ∈ gates, g'.validate = .ok () ∧ ∀ q, g'.actsOn q = true → g.actsOn q = true := by
  obtain ⟨a, b, -, htargets, rfl⟩ := expandSwap_eq_some h
  obtain ⟨hne, ha, hb, hnodup⟩ := operands_of_valid hg htargets
  have hacts : ∀ q, q ∈ g.controls.qubits ∨ q = a ∨ q = b → g.actsOn q = true := by
    intro q hq
    rw [← Gate.mem_operands, Gate.operands, htargets]
    simpa using hq
  have hcnot : (Gate.cnot a b).validate = .ok () ∧
      ∀ q, (Gate.cnot a b).actsOn q = true → g.actsOn q = true := by
    have hshape : (Gate.cnot a b).IsCnot a b := rfl
    exact ⟨hshape.validate_iff.2 hne, fun q hq => hacts q (.inr (Gate.actsOn_cnot.1 hq))⟩
  have hmiddle : ∀ s t, s ≠ t → s ∉ g.controls.qubits → t ∉ g.controls.qubits →
      g.actsOn s = true → g.actsOn t = true →
      (Gate.controlledX (g.controls.insert (.pos s)) t).validate = .ok () ∧
        ∀ q, (Gate.controlledX (g.controls.insert (.pos s)) t).actsOn q = true →
          g.actsOn q = true := by
    intro s t hst hs ht hgs hgt
    refine ⟨Gate.validate_controlledX (Controls.nodup_qubits_insert hnodup hs) ?_, fun q hq => ?_⟩
    · rw [Controls.mem_qubits_insert]
      rintro (h | h)
      · exact hst h.symm
      · exact ht h
    · rcases Gate.actsOn_controlledX.1 hq with rfl | hq
      · exact hgt
      · rcases Controls.mem_qubits_insert.1 hq with rfl | hq
        · exact hgs
        · exact hacts q (.inl hq)
  have hga := hacts a (by simp)
  have hgb := hacts b (by simp)
  intro g' hg'
  cases directed with
  | false =>
    simp only [Bool.false_eq_true, if_false, List.mem_cons, List.not_mem_nil, or_false] at hg'
    rcases hg' with rfl | rfl | rfl
    · exact hcnot
    · exact hmiddle b a hne.symm hb ha hgb hga
    · exact hcnot
  | true =>
    simp only [if_true, List.mem_cons, List.not_mem_nil, or_false] at hg'
    rcases hg' with rfl | rfl | rfl | rfl | rfl | rfl | rfl
    · exact hcnot
    · exact valid_hadamard hga
    · exact valid_hadamard hgb
    · exact hmiddle a b hne ha hb hga hgb
    · exact valid_hadamard hga
    · exact valid_hadamard hgb
    · exact hcnot

end expandSwap

/-! ## Controlled X gates -/

/-- The expansion of a controlled X is made of gates that pass the check, on its qubits. -/
theorem valid_expandControlledX {g : Gate} {gates : List Gate} (hg : g.validate = .ok ())
    (h : expandControlledX g = some gates) :
    ∀ g' ∈ gates, g'.validate = .ok () ∧ ∀ q, g'.actsOn q = true → g.actsOn q = true := by
  rw [expandControlledX] at h
  split at h
  · next t hkind htargets =>
    split at h
    · cases h
    · have ht : g.actsOn t = true := by simp [Gate.actsOn, htargets]
      have hmiddle : Gate.validate { kind := .z, controls := g.controls, targets := [t] } = .ok () ∧
          ∀ q, Gate.actsOn { kind := .z, controls := g.controls, targets := [t] } q = true →
            g.actsOn q = true := by
        obtain ⟨-, hnodup⟩ := Gate.validate_eq_ok_iff.1 hg
        rw [Gate.operands, htargets] at hnodup
        refine ⟨Gate.validate_eq_ok_iff.2 ⟨rfl, hnodup⟩, fun q hq => ?_⟩
        simpa [Gate.actsOn, htargets] using hq
      intro g' hg'
      rw [← Option.some.inj h] at hg'
      simp only [List.mem_cons, List.not_mem_nil, or_false] at hg'
      rcases hg' with rfl | rfl | rfl
      · exact valid_hadamard ht
      · exact hmiddle
      · exact valid_hadamard ht
  · cases h

end QuantumCircuit
