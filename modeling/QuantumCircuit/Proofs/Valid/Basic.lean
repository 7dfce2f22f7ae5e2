import QuantumCircuit.Proofs.Ordered
import QuantumCircuit.Proofs.Renamed

/-! Valid circuits: every operation passes the check, and operations and layouts keep to
the qubits and bits that the circuit counts. All of this can be read off the leaves. -/
namespace QuantumCircuit

/-! ## The check under a renaming -/

theorem Operation.accesses_mapQubits (f : Qubit → Qubit) (op : Operation) :
    (op.mapQubits f).accesses = op.accesses := by
  induction op using inductionOn with
  | gate g => rfl
  | effect e => rfl
  | conditional cond body ih => rw [mapQubits, accesses, accesses, ih]
  | compound children ih =>
    rw [mapQubits, mapQubitsAll_eq, accesses, accesses, accessesOfAll_eq, accessesOfAll_eq,
      List.flatMap_map]
    exact List.flatMap_congr ih

section renamed
variable {f : Qubit → Qubit} {s : Set Qubit}

/-- A renaming that keeps the qubits in use apart keeps the operands of a gate apart. -/
theorem Gate.validate_mapQubits {g : Gate} (hf : Set.InjOn f s)
    (hs : ∀ q, g.actsOn q = true → q ∈ s) (h : g.validate = .ok ()) :
    (g.mapQubits f).validate = .ok () := by
  obtain ⟨hcount, hnodup⟩ := Gate.validate_eq_ok_iff.1 h
  have hinj : ∀ p ∈ g.operands, ∀ q ∈ g.operands, f p = f q → p = q := fun p hp q hq hpq =>
    hf (hs p (Gate.mem_operands.1 hp)) (hs q (Gate.mem_operands.1 hq)) hpq
  rw [operands, List.nodup_append] at hnodup
  obtain ⟨hcontrols, htargets, hapart⟩ := hnodup
  have hcontrol : ∀ {c}, c ∈ g.controls → c.qubit ∈ g.operands := fun {c} hc =>
    List.mem_append_left _ (List.mem_map_of_mem hc)
  have htarget : ∀ {t}, t ∈ g.targets → t ∈ g.operands := fun ht => List.mem_append_right _ ht
  have hmem : ∀ {c}, c ∈ (g.mapQubits f).controls →
      ∃ d ∈ g.controls, { d with qubit := f d.qubit } = c := by
    intro c hc
    exact List.mem_map.1 (OrderedSet.mem_ofList.1 hc)
  refine Gate.validate_eq_ok_iff.2 ⟨by simpa [mapQubits] using hcount, ?_⟩
  refine List.nodup_append.2 ⟨(OrderedSet.nodup _).map_on ?_, htargets.map_on ?_, ?_⟩
  · intro x hx y hy hxy
    obtain ⟨c, hc, rfl⟩ := hmem hx
    obtain ⟨d, hd, rfl⟩ := hmem hy
    have hqubit : c.qubit = d.qubit := hinj _ (hcontrol hc) _ (hcontrol hd) hxy
    rw [List.inj_on_of_nodup_map hcontrols hc hd hqubit]
  · intro t ht u hu htu
    exact hinj t (htarget ht) u (htarget hu) htu
  · intro p hp q hq hpq
    obtain ⟨x, hx, rfl⟩ := List.mem_map.1 hp
    obtain ⟨c, hc, rfl⟩ := hmem hx
    obtain ⟨t, ht, rfl⟩ := List.mem_map.1 hq
    exact hapart c.qubit (List.mem_map_of_mem hc) t ht
      (hinj _ (hcontrol hc) _ (htarget ht) hpq)

theorem Operation.validate_mapQubits {op : Operation} (hf : Set.InjOn f s)
    (hs : ∀ q, op.actsOn q = true → q ∈ s) (h : op.validate = .ok ()) :
    (op.mapQubits f).validate = .ok () := by
  induction op using inductionOn with
  | gate g => exact Gate.validate_mapQubits hf hs h
  | effect e => simpa [validate, Effect.validate, mapQubits, isWellFormed] using h
  | conditional cond body _ =>
    obtain ⟨g, rfl, hg⟩ := validate_conditional_iff.1 h
    exact validate_conditional_iff.2 ⟨_, rfl, Gate.validate_mapQubits hf hs hg⟩
  | compound children ih =>
    rw [mapQubits, mapQubitsAll_eq, validate_compound_iff, List.forall_mem_map]
    intro c hc
    exact ih c hc (fun q hq => hs q (actsOn_compound.2 ⟨c, hc, hq⟩))
      (validate_compound_iff.1 h c hc)

end renamed

/-! ## Valid circuits -/

/-- The operation passes the check and keeps to the first `n` qubits and `m` bits. -/
structure Operation.Fits (n m : Nat) (op : Operation) : Prop where
  shape : op.validate = .ok ()
  qubits : ∀ q ∈ op.qubits, q.index < n
  clbits : ∀ b ∈ op.bitsUsed, b.index < m

/-- Operations and layouts keep to what the circuit counts. -/
structure Circuit.Valid (c : Circuit) : Prop where
  ops : ∀ op ∈ c.ops, op.Fits c.numQubits c.numClbits
  initial : ∀ q ∈ c.initial.keys, q.index < c.numQubits
  output : ∀ q ∈ c.output.keys, q.index < c.numQubits

instance (n m : Nat) (op : Operation) : Decidable (op.Fits n m) :=
  decidable_of_iff (op.validate = .ok () ∧ (∀ q ∈ op.qubits.toList, q.index < n) ∧
      ∀ b ∈ op.bitsUsed, b.index < m)
    ⟨fun h => ⟨h.1, h.2.1, h.2.2⟩, fun h => ⟨h.shape, h.qubits, h.clbits⟩⟩

instance (c : Circuit) : Decidable c.Valid :=
  decidable_of_iff ((∀ op ∈ c.ops, op.Fits c.numQubits c.numClbits) ∧
      (∀ q ∈ c.initial.keys, q.index < c.numQubits) ∧ ∀ q ∈ c.output.keys, q.index < c.numQubits)
    ⟨fun h => ⟨h.1, h.2.1, h.2.2⟩, fun h => ⟨h.ops, h.initial, h.output⟩⟩

namespace Operation
variable {n m : Nat} {op : Operation}

theorem Fits.index_lt (h : op.Fits n m) {q : Qubit} (hq : op.actsOn q = true) : q.index < n :=
  h.qubits q (mem_qubits.2 hq)

theorem Fits.mono (h : op.Fits n m) {n' : Nat} (hn : n ≤ n') : op.Fits n' m :=
  ⟨h.shape, fun q hq => Nat.lt_of_lt_of_le (h.qubits q hq) hn, h.clbits⟩

theorem fits_gate {g : Gate} (hvalid : g.validate = .ok ())
    (hacts : ∀ q, g.actsOn q = true → q.index < n) : (Operation.gate g).Fits n m :=
  ⟨hvalid, fun q hq => hacts q (mem_qubits.1 hq), fun _ hb => absurd hb List.not_mem_nil⟩

/-- An operation fits when its leaves do. -/
theorem fits_iff_leaves : op.Fits n m ↔ ∀ leaf ∈ op.leaves, leaf.Fits n m := by
  constructor
  · intro h leaf hleaf
    refine ⟨validate_iff_leaves.1 h.shape leaf hleaf, fun q hq => ?_, fun b hb => ?_⟩
    · exact h.index_lt (actsOn_iff_leaf.2 ⟨leaf, hleaf, mem_qubits.1 hq⟩)
    · exact h.clbits b (mem_bitsUsed_iff_leaf.2 ⟨leaf, hleaf, hb⟩)
  · intro h
    refine ⟨validate_iff_leaves.2 fun leaf hleaf => (h leaf hleaf).shape, fun q hq => ?_,
      fun b hb => ?_⟩
    · obtain ⟨leaf, hleaf, hacts⟩ := actsOn_iff_leaf.1 (mem_qubits.1 hq)
      exact (h leaf hleaf).index_lt hacts
    · obtain ⟨leaf, hleaf, hbit⟩ := mem_bitsUsed_iff_leaf.1 hb
      exact (h leaf hleaf).clbits b hbit

/-- What keeps to the first qubits still fits under a renaming that keeps them apart. -/
theorem Fits.mapQubits {base : Nat} {f : Qubit → Qubit} (h : op.Fits base m)
    (hinj : Set.InjOn f {q | q.index < base})
    (hlt : ∀ q : Qubit, q.index < base → (f q).index < n) : (op.mapQubits f).Fits n m := by
  refine ⟨validate_mapQubits hinj (fun q hq => h.index_lt hq) h.shape, fun p hp => ?_, ?_⟩
  · obtain ⟨q, hq, rfl⟩ := actsOn_mapQubits.1 (mem_qubits.1 hp)
    exact hlt q (h.index_lt hq)
  · rw [bitsUsed, accesses_mapQubits]
    exact h.clbits

end Operation

namespace Circuit
open Operation
variable {c : Circuit}

theorem Valid.leaf (h : c.Valid) {leaf : Operation} (hleaf : leaf ∈ leavesOfAll c.ops) :
    leaf.Fits c.numQubits c.numClbits := by
  obtain ⟨op, hop, hmem⟩ := mem_leavesOfAll.1 hleaf
  exact fits_iff_leaves.1 (h.ops op hop) leaf hmem

/-- A circuit stays valid with other operations whose leaves fit. -/
theorem Valid.withOps (h : c.Valid) {out : List Operation}
    (hout : ∀ leaf ∈ leavesOfAll out, leaf.Fits c.numQubits c.numClbits) :
    Circuit.Valid { c with ops := out } := by
  refine ⟨fun op hop => fits_iff_leaves.2 fun leaf hleaf => ?_, h.initial, h.output⟩
  exact hout leaf (mem_leavesOfAll.2 ⟨op, hop, hleaf⟩)

end Circuit
end QuantumCircuit
