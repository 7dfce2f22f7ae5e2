import Mathlib.Data.Set.Function
import QuantumCircuit.Proofs.Execution
import QuantumCircuit.Proofs.Ordered
import QuantumCircuit.Proofs.Validity

/-! Execution under a renaming of the qubits. Where a renaming keeps the qubits in use
apart, an operation does to the renamed qubits what it did before; the qubits that are not
the new name of one it acts on keep their values. -/
namespace QuantumCircuit

/-! ## What an operation acts on -/

theorem Gate.actsOn_mapQubits {g : Gate} {f : Qubit → Qubit} {p : Qubit} :
    (g.mapQubits f).actsOn p = true ↔ ∃ q, g.actsOn q = true ∧ f q = p := by
  simp only [← Gate.mem_operands, operands, Controls.qubits, mapQubits, OrderedSet.map,
    List.mem_append, List.mem_map, OrderedSet.mem_toList, OrderedSet.mem_ofList]
  constructor
  · rintro (⟨-, ⟨c, hc, rfl⟩, rfl⟩ | ⟨q, hq, rfl⟩)
    · exact ⟨c.qubit, .inl ⟨c, hc, rfl⟩, rfl⟩
    · exact ⟨q, .inr hq, rfl⟩
  · rintro ⟨q, ⟨c, hc, rfl⟩ | hq, rfl⟩
    · exact .inl ⟨_, ⟨c, hc, rfl⟩, rfl⟩
    · exact .inr ⟨q, hq, rfl⟩

theorem Gate.mapQubits_id (g : Gate) : g.mapQubits (fun q => q) = g := by
  have hcontrols : g.controls.map (fun c => { c with qubit := c.qubit }) = g.controls := by
    show OrderedSet.ofList (g.controls.toList.map id) = g.controls
    rw [List.map_id, OrderedSet.ofList_toList]
  rw [mapQubits, hcontrols, List.map_id']

namespace Operation

theorem mapQubitsAll_eq (f : Qubit → Qubit) (ops : List Operation) :
    mapQubitsAll f ops = ops.map (mapQubits f) := by
  induction ops with
  | nil => rfl
  | cons op rest ih => rw [mapQubitsAll, ih, List.map_cons]

theorem actsOn_mapQubits {op : Operation} {f : Qubit → Qubit} {p : Qubit} :
    (op.mapQubits f).actsOn p = true ↔ ∃ q, op.actsOn q = true ∧ f q = p := by
  induction op using inductionOn with
  | gate g => exact Gate.actsOn_mapQubits
  | effect e => simp [mapQubits, actsOn]
  | conditional cond body ih => exact ih
  | compound children ih =>
    rw [mapQubits, mapQubitsAll_eq, actsOn_compound]
    constructor
    · rintro ⟨renamed, hmem, hp⟩
      obtain ⟨child, hchild, rfl⟩ := List.mem_map.1 hmem
      obtain ⟨q, hq, rfl⟩ := (ih child hchild).1 hp
      exact ⟨q, actsOn_compound.2 ⟨child, hchild, hq⟩, rfl⟩
    · rintro ⟨q, hq, rfl⟩
      obtain ⟨child, hchild, hacts⟩ := actsOn_compound.1 hq
      exact ⟨child.mapQubits f, List.mem_map_of_mem hchild, (ih child hchild).2 ⟨q, hacts, rfl⟩⟩

theorem mapQubits_id (op : Operation) : op.mapQubits (fun q => q) = op := by
  induction op using inductionOn with
  | gate g => rw [mapQubits, Gate.mapQubits_id]
  | effect e => rw [mapQubits, List.map_id']
  | conditional cond body ih => rw [mapQubits, ih]
  | compound children ih =>
    rw [mapQubits, mapQubitsAll_eq, List.map_congr_left ih, List.map_id']

/-! ## What an operation leaves alone -/

theorem execAll_qubits_of {ops : List Operation} {q : Qubit}
    (h : ∀ op ∈ ops, ∀ s, (op.exec s).qubits q = s.qubits q) (s : BitState) :
    (execAll ops s).qubits q = s.qubits q := by
  induction ops generalizing s with
  | nil => rfl
  | cons op rest ih =>
    rw [execAll_cons, ih (fun o ho => h o (List.mem_cons_of_mem _ ho)), h op List.mem_cons_self]

theorem exec_qubits_of_not_actsOn {op : Operation} {q : Qubit} (h : op.actsOn q = false)
    (s : BitState) : (op.exec s).qubits q = s.qubits q := by
  induction op using inductionOn generalizing s with
  | gate g => exact Gate.permute_of_not_actsOn h
  | effect e =>
    have hq : q ∉ e.targets := by simpa [actsOn] using h
    rw [exec, Effect.run]
    split
    · rfl
    · exact if_neg hq
    · rfl
  | conditional cond body ih =>
    rw [exec]
    split
    · exact ih h s
    · rfl
  | compound children ih =>
    refine execAll_qubits_of (fun child hchild => ih child hchild ?_) s
    by_contra hon
    have hacts := actsOn_compound.2 ⟨child, hchild, Bool.eq_true_of_not_eq_false hon⟩
    rw [h] at hacts
    cases hacts

/-- Compounds are executed as their leaves are. -/
theorem execAll_leavesOfAll (ops : List Operation) (s : BitState) :
    execAll (leavesOfAll ops) s = execAll ops s := by
  have hop : ∀ op : Operation, ∀ s, execAll op.leaves s = op.exec s := by
    intro op
    induction op using inductionOn with
    | gate g => exact fun _ => rfl
    | effect e => exact fun _ => rfl
    | conditional cond body _ => exact fun _ => rfl
    | compound children ih =>
      intro s
      rw [leaves_compound, exec]
      induction children generalizing s with
      | nil => rfl
      | cons child rest ihrest =>
        rw [leavesOfAll_cons, execAll_append, ih child List.mem_cons_self, execAll_cons,
          ihrest fun c hc => ih c (List.mem_cons_of_mem _ hc)]
  exact hop (.compound ops) s

end Operation

/-! ## Renamed states -/

/-- The second state has the same bits, and the value of every qubit in use under its new
name. What it holds elsewhere is left open. -/
structure Renamed (f : Qubit → Qubit) (used : Set Qubit) (s t : BitState) : Prop where
  clbits : t.clbits = s.clbits
  qubits : ∀ q ∈ used, t.qubits (f q) = s.qubits q

section renamed
variable {f : Qubit → Qubit} {used : Set Qubit} {v w : Qubit → Bool} {s t : BitState}

theorem Gate.enabled_mapQubits {g : Gate} (h : ∀ c ∈ g.controls, w (f c.qubit) = v c.qubit) :
    (g.mapQubits f).enabled w = g.enabled v := by
  have hiff : (g.mapQubits f).enabled w = true ↔ g.enabled v = true := by
    simp only [enabled, mapQubits, OrderedSet.map, List.all_eq_true, OrderedSet.mem_toList,
      OrderedSet.mem_ofList, List.mem_map]
    constructor
    · intro hall c hc
      have := hall _ ⟨c, hc, rfl⟩
      rwa [Control.holds, h c hc] at this
    · rintro hall - ⟨c, hc, rfl⟩
      have := hall c hc
      rwa [Control.holds, h c hc]
  exact Bool.eq_iff_iff.2 hiff

theorem Gate.act_mapQubits {g : Gate} (hf : Set.InjOn f used) (hg : ∀ q ∈ g.targets, q ∈ used)
    (h : ∀ q ∈ used, w (f q) = v q) {q : Qubit} (hq : q ∈ used) :
    (g.mapQubits f).act w (f q) = g.act v q := by
  have hsame : ∀ r ∈ g.targets, f q = f r ↔ q = r := fun r hr => hf.eq_iff hq (hg r hr)
  have hvalue : ∀ r ∈ g.targets, w (f r) = v r := fun r hr => h r (hg r hr)
  unfold act
  split
  · next t' hkind htargets =>
    obtain ⟨t, ht, rfl⟩ := List.map_eq_singleton_iff.1 htargets
    replace hkind : g.kind = .x := hkind
    simp only [ht, List.mem_singleton, forall_eq] at hsame hvalue
    simp only [hkind, ht, hsame, hvalue, h q hq]
  · next a' b' hkind htargets =>
    obtain ⟨a, rest, ha, rfl, hrest⟩ := List.map_eq_cons_iff.1 htargets
    obtain ⟨b, rfl, rfl⟩ := List.map_eq_singleton_iff.1 hrest
    replace hkind : g.kind = .swap := hkind
    simp only [ha, List.mem_cons, List.not_mem_nil, or_false, forall_eq_or_imp, forall_eq]
      at hsame hvalue
    simp only [hkind, ha, hsame, hvalue, h q hq]
  · next hx hswap =>
    rw [h q hq]
    split
    · next t hkind htargets => exact absurd (by simp [mapQubits, htargets]) (hx (f t) hkind)
    · next a b hkind htargets =>
      exact absurd (by simp [mapQubits, htargets]) (hswap (f a) (f b) hkind)
    · rfl

theorem Gate.permute_mapQubits {g : Gate} (hf : Set.InjOn f used)
    (hg : ∀ q, g.actsOn q = true → q ∈ used) (h : ∀ q ∈ used, w (f q) = v q) {q : Qubit}
    (hq : q ∈ used) : (g.mapQubits f).permute w (f q) = g.permute v q := by
  have henabled : (g.mapQubits f).enabled w = g.enabled v := by
    refine enabled_mapQubits fun c hc => h c.qubit (hg _ (mem_operands.1 ?_))
    exact List.mem_append_left _ (List.mem_map_of_mem hc)
  have htargets : ∀ r ∈ g.targets, r ∈ used :=
    fun r hr => hg r (mem_operands.1 (List.mem_append_right _ hr))
  rw [permute, permute, henabled]
  split
  · exact act_mapQubits hf htargets h hq
  · exact h q hq

theorem Renamed.run {e : Effect} (h : Renamed f used s t) (hf : Set.InjOn f used)
    (he : ∀ q ∈ e.targets, q ∈ used) :
    Renamed f used (e.run s) ({ e with targets := e.targets.map f }.run t) := by
  unfold Effect.run
  dsimp only
  split
  · refine ⟨?_, h.qubits⟩
    dsimp only
    rw [h.clbits, List.zip_map_left, List.foldl_map]
    refine List.foldl_ext _ _ _ fun bits m hm => ?_
    rw [Prod.map_fst, Prod.map_snd, h.qubits m.1 (he m.1 (List.of_mem_zip hm).1)]
    rfl
  · refine ⟨h.clbits, fun q hq => ?_⟩
    have hmem : f q ∈ e.targets.map f ↔ q ∈ e.targets := by
      constructor
      · intro hmap
        obtain ⟨r, hr, heq⟩ := List.mem_map.1 hmap
        rwa [← hf (he r hr) hq heq]
      · exact List.mem_map_of_mem
    simp only [hmem, h.qubits q hq]
  · exact h

-- Over a list the statement follows from that for each operation in it.
theorem Renamed.execAll_of {ops : List Operation} (h : Renamed f used s t)
    (hops : ∀ op ∈ ops, ∀ s t, Renamed f used s t →
      Renamed f used (op.exec s) ((op.mapQubits f).exec t)) :
    Renamed f used (Operation.execAll ops s)
      (Operation.execAll (ops.map (Operation.mapQubits f)) t) := by
  induction ops generalizing s t with
  | nil => exact h
  | cons op rest ih =>
    rw [List.map_cons, Operation.execAll_cons, Operation.execAll_cons]
    exact ih (hops op List.mem_cons_self s t h) fun o ho => hops o (List.mem_cons_of_mem _ ho)

/-- The same operation on renamed qubits leads from a renamed state to a renamed state. -/
theorem Renamed.exec {op : Operation} (h : Renamed f used s t) (hf : Set.InjOn f used)
    (hop : ∀ q, op.actsOn q = true → q ∈ used) :
    Renamed f used (op.exec s) ((op.mapQubits f).exec t) := by
  induction op using Operation.inductionOn generalizing s t with
  | gate g => exact ⟨h.clbits, fun q hq => Gate.permute_mapQubits hf hop h.qubits hq⟩
  | effect e => exact h.run hf fun q hq => hop q (by simpa [Operation.actsOn] using hq)
  | conditional cond body ih =>
    rw [Operation.mapQubits, Operation.exec, Operation.exec, h.clbits]
    split
    · exact ih h hop
    · exact h
  | compound children ih =>
    rw [Operation.mapQubits, Operation.mapQubitsAll_eq, Operation.exec, Operation.exec]
    refine h.execAll_of fun child hchild s t hst => ih child hchild hst fun q hq => ?_
    exact hop q (Operation.actsOn_compound.2 ⟨child, hchild, hq⟩)

/-- What an operation does depends on the bits and on the qubits it acts on. -/
theorem Operation.exec_congr {op : Operation} (hclbits : t.clbits = s.clbits)
    (hqubits : ∀ q, op.actsOn q = true → t.qubits q = s.qubits q) :
    (op.exec t).clbits = (op.exec s).clbits ∧
      ∀ q, op.actsOn q = true → (op.exec t).qubits q = (op.exec s).qubits q := by
  have hsame : Renamed (fun q => q) {q | op.actsOn q = true} s t := ⟨hclbits, hqubits⟩
  have hrun : Renamed (fun q => q) _ (op.exec s) ((op.mapQubits fun q => q).exec t) :=
    hsame.exec (Set.injOn_id _) fun q hq => hq
  rw [mapQubits_id] at hrun
  exact ⟨hrun.clbits, hrun.qubits⟩

end renamed
end QuantumCircuit
