import QuantumCircuit.Peephole.Fusion
import QuantumCircuit.Proofs.Ordered
import QuantumCircuit.Proofs.Sweep

/-! Uncontrolled gates on one qubit. Gathering a run of them into a compound, with
gates that undo one another cancelled, keeps the meaning of a circuit. -/
namespace QuantumCircuit
open Operation Sweep

/-! ## Shapes -/

/-- An uncontrolled gate with one target. -/
def Gate.IsSingle (g : Gate) (q : Qubit) : Prop :=
  g = { Gate.ofKind g.kind [q] with params := g.params }

namespace Gate
variable {g : Gate} {q r : Qubit}

theorem controls_eq_empty (h : g.controls.toList = []) : g.controls = ∅ := by
  refine OrderedSet.eq_of_mem_iff fun x => ?_
  rw [← OrderedSet.mem_toList, h]
  exact ⟨nofun, nofun⟩

theorem isSingle_iff : g.IsSingle q ↔ g.targets = [q] ∧ g.controls = ∅ := by
  constructor
  · intro h
    rw [h]
    exact ⟨rfl, rfl⟩
  · rintro ⟨htargets, hcontrols⟩
    rw [IsSingle]
    cases g
    simp_all [ofKind]

theorem isSingle_of_soleTarget? (h : Fusion.soleTarget? g = some q) : g.IsSingle q := by
  rw [Fusion.soleTarget?] at h
  split at h
  · next t ht =>
    split at h
    · next hempty =>
      cases Option.some.inj h
      exact isSingle_iff.2 ⟨ht, controls_eq_empty (List.isEmpty_iff.1 hempty)⟩
    · cases h
  · cases h

theorem IsSingle.actsOn_iff (h : g.IsSingle q) : g.actsOn r = true ↔ r = q := by
  obtain ⟨htargets, hcontrols⟩ := isSingle_iff.1 h
  have hrfl : g.actsOn r = (decide (r ∈ g.targets) || g.controls.toList.any (·.qubit = r)) := rfl
  rw [hrfl, htargets, hcontrols]
  have hnil : (∅ : Controls).toList = [] := rfl
  simp [hnil]

end Gate

/-! ## Laws -/

/-- The kinds that undo one another, apart from the identity. -/
def inversePairs : List (Kind × Kind) :=
  [(.x, .x), (.y, .y), (.z, .z), (.h, .h), (.s, .sdg), (.sdg, .s), (.t, .tdg), (.tdg, .t),
    (.sx, .sxdg), (.sxdg, .sx)]

theorem inverse?_eq_some {k l : Kind} (h : k.inverse? = some l) :
    (k = .i ∧ l = .i) ∨ (k, l) ∈ inversePairs := by
  cases k <;> cases h <;> simp [inversePairs]

theorem of_mem_inversePairs {k l : Kind} (h : (k, l) ∈ inversePairs) :
    k ≠ .i ∧ k.numTargets = some 1 ∧ k.numParams = 0 ∧ l.numParams = 0 := by
  simp only [inversePairs, List.mem_cons, List.not_mem_nil, or_false, Prod.mk.injEq] at h
  rcases h with ⟨rfl, rfl⟩ | ⟨rfl, rfl⟩ | ⟨rfl, rfl⟩ | ⟨rfl, rfl⟩ | ⟨rfl, rfl⟩ | ⟨rfl, rfl⟩ |
    ⟨rfl, rfl⟩ | ⟨rfl, rfl⟩ | ⟨rfl, rfl⟩ | ⟨rfl, rfl⟩ <;> decide

variable {M : Type*} [Monoid M] {val : Operation → M}

/-- The laws of uncontrolled gates on one qubit in a monoid. -/
structure SingleLaws (val : Operation → M) : Prop where
  one : ∀ leaf, leaf.isIdentity = true → val leaf = 1
  params : ∀ (g : Gate) (ps : List Binary64), g.kind.numParams = 0 →
    val (.gate { g with params := ps }) = val (.gate g)
  apart : ∀ {g : Gate} {q : Qubit}, g.IsSingle q → CommutesApart val (.gate g)
  inverse : ∀ {k l : Kind} (q : Qubit), (k, l) ∈ inversePairs →
    val (.gate (.ofKind k [q])) * val (.gate (.ofKind l [q])) = 1

theorem SingleLaws.val_eq (laws : SingleLaws val) {g : Gate} {q : Qubit} (hg : g.IsSingle q)
    (hparams : g.kind.numParams = 0) : val (.gate g) = val (.gate (.ofKind g.kind [q])) := by
  conv_lhs => rw [hg]
  exact laws.params (.ofKind g.kind [q]) g.params hparams

/-- Gates of kinds that undo one another cancel, if in case they are no
identities they are single gates on one qubit. -/
theorem SingleLaws.mul_eq_one (laws : SingleLaws val) {g c : Gate} {q : Qubit}
    (hinv : Fusion.areInverse g.kind c.kind = true) (hc : c.IsSingle q)
    (hg : (g.kind, c.kind) ∈ inversePairs → g.IsSingle q) :
    val (.gate g) * val (.gate c) = 1 := by
  rcases inverse?_eq_some (of_decide_eq_true hinv) with ⟨hgi, hci⟩ | hpair
  · rw [laws.one (.gate g) (decide_eq_true hgi), laws.one (.gate c) (decide_eq_true hci), mul_one]
  · obtain ⟨-, -, hgp, hcp⟩ := of_mem_inversePairs hpair
    rw [laws.val_eq (hg hpair) hgp, laws.val_eq hc hcp, laws.inverse q hpair]

namespace Fusion

variable {ops : List Operation} {s : Sweep} {k prev : Nat} {current : Gate} {target : Qubit}

theorem eq_of_size_le_one {qs : OrderedSet Qubit} (h : qs.size ≤ 1) {q r : Qubit} (hq : q ∈ qs)
    (hr : r ∈ qs) : q = r := by
  have hq' : q ∈ qs.toList := hq
  have hr' : r ∈ qs.toList := hr
  have hlen : qs.toList.length ≤ 1 := h
  match hl : qs.toList with
  | [] => rw [hl] at hq'; cases hq'
  | [x] =>
    rw [hl] at hq' hr'
    rw [List.mem_singleton.1 hq', List.mem_singleton.1 hr']
  | x :: y :: rest =>
    rw [hl] at hlen
    simp at hlen

/-- The children of a compound that takes up gates use one qubit. -/
theorem eq_of_takesGates {children : List Operation} (h : takesGates children = true)
    {q r : Qubit} (hq : (Operation.compound children).actsOn q = true)
    (hr : (Operation.compound children).actsOn r = true) : q = r := by
  have hsize : (Operation.compound children).qubits.size ≤ 1 := by
    simp only [takesGates, Bool.and_eq_true, decide_eq_true_eq] at h
    exact h.2
  exact eq_of_size_le_one hsize (mem_qubits.2 hq) (mem_qubits.2 hr)

theorem undoesLast_eq_true {l : Kind} {children : List Operation}
    (h : undoesLast l children = true) :
    ∃ front g, children = front ++ [.gate g] ∧ children.dropLast = front ∧
      areInverse g.kind l = true := by
  rw [undoesLast] at h
  split at h
  · next g hlast =>
    refine ⟨children.dropLast, g, ?_, rfl, h⟩
    obtain ⟨front, rfl⟩ := List.getLast?_eq_some_iff.1 hlast
    rw [List.dropLast_concat]
  · cases h

/-- A gate of a compound that uses one qubit only is a single gate. -/
theorem isSingle_of_valid {children : List Operation} {g : Gate} {l : Kind}
    (htakes : takesGates children = true) (hg : .gate g ∈ leavesOfAll children)
    (hvalid : g.validate = .ok ()) (hpair : (g.kind, l) ∈ inversePairs)
    (htarget : (Operation.compound children).actsOn target = true) : g.IsSingle target := by
  obtain ⟨hcount, hnodup⟩ := Gate.validate_eq_ok_iff.1 hvalid
  obtain ⟨-, hone, -, -⟩ := of_mem_inversePairs hpair
  rw [hone] at hcount
  obtain ⟨t, ht⟩ := List.length_eq_one_iff.1 (Option.some.inj hcount).symm
  have hall : ∀ {q : Qubit}, g.actsOn q = true → q = target := by
    intro q hq
    have hin : (Operation.compound children).actsOn q = true :=
      actsOn_iff_leaf.2 ⟨.gate g, hg, hq⟩
    exact eq_of_takesGates htakes hin htarget
  have htt : t = target := hall (Gate.mem_operands.1 (by simp [Gate.operands, ht]))
  rw [Gate.isSingle_iff]
  refine ⟨by rw [ht, htt], Gate.controls_eq_empty ?_⟩
  -- a control would stand on the target
  cases hcs : g.controls.toList with
  | nil => rfl
  | cons c rest =>
    have hcq : c.qubit = target :=
      hall (Gate.mem_operands.1 (by simp [Gate.operands, Controls.qubits, hcs]))
    simp [Gate.operands, Controls.qubits, hcs, ht, hcq, htt] at hnodup

/-! ## Steps -/

theorem top_of_actsOn (hcur : current.IsSingle target) (htop : s.lanes.top? target = some prev)
    (q : Qubit) (hq : current.actsOn q = true) : s.lanes.top? q = some prev := by
  rw [hcur.actsOn_iff.1 hq]
  exact htop

section step
variable (laws : SingleLaws val) (h : Inv val ops k s) (hc : s.ops[k]? = some (.gate current))
  (hcur : current.IsSingle target) (htop : s.lanes.top? target = some prev)
include laws h hc hcur htop

/-- A compound on one qubit takes up a gate, or loses its last one to it. -/
theorem compound_spec (hvalid : ∀ op ∈ ops, op.validate = .ok ()) {children : List Operation}
    (hp : s.ops[prev]? = some (.compound children)) (htakes : takesGates children = true) :
    Inv val ops (k + 1) ((s.set prev (.compound
      (if undoesLast current.kind children then children.dropLast
        else children ++ [.gate current]))).discard k) := by
  have hin : prev ∈ s.lanes.stack target := List.mem_of_mem_head? htop
  have hlisted : ∀ q, (Operation.compound children).actsOn q = true → prev ∈ s.lanes.stack q :=
    fun q hq => (h.tidy.listed (h.tidy.below hin) hp hq).resolve_right Bool.false_ne_true
  have htarget : ∀ {q : Qubit}, (Operation.compound children).actsOn q = true →
      (Operation.compound children).actsOn target = true := by
    intro q hq
    rcases h.tidy.acts hin hp with hacts | ⟨hnone, -⟩
    · exact hacts
    · rw [hnone q] at hq
      cases hq
  -- the compound is on one lane only
  have honly : ∀ r, prev ∈ s.lanes.stack r → r = target := by
    intro r hr
    rcases h.tidy.acts hr hp with hacts | ⟨-, hunique⟩
    · exact eq_of_takesGates htakes hacts (htarget hacts)
    · exact (hunique target hin).symm
  have hleaf : ∀ leaf ∈ leavesOfAll children, leaf ∈ leavesOfAll s.ops :=
    fun leaf hmem => mem_leavesOfAll.2 ⟨_, List.mem_of_getElem? hp, hmem⟩
  have hsome : ∃ q, current.actsOn q = true := ⟨target, hcur.actsOn_iff.2 rfl⟩
  split
  · next hundo =>
    obtain ⟨front, g, rfl, hfront, hinv⟩ := undoesLast_eq_true hundo
    rw [hfront]
    have hg : Operation.gate g ∈ leavesOfAll (front ++ [.gate g]) := by simp [leaves]
    have hsub : ∀ q, (Operation.compound front).actsOn q = true →
        (Operation.compound (front ++ [.gate g])).actsOn q = true := by
      intro q hq
      obtain ⟨op, hop, hacts⟩ := actsOn_compound.1 hq
      exact actsOn_compound.2 ⟨op, List.mem_append_left _ hop, hacts⟩
    refine h.absorb laws.one hc (laws.apart hcur) hsome (top_of_actsOn hcur htop) hp
      ?_ ?_ (fun q hq => hlisted q (hsub q hq)) ?_
    · have hone : val (.gate g) * val (.gate current) = 1 := by
        refine laws.mul_eq_one hinv hcur fun hpair => ?_
        have hgvalid := h.valid_gate hvalid (hleaf _ hg) (of_mem_inversePairs hpair).1
        obtain ⟨q, hq⟩ := Gate.exists_actsOn_of_valid hgvalid
        exact isSingle_of_valid htakes hg hgvalid hpair
          (htarget (actsOn_iff_leaf.2 ⟨.gate g, hg, hq⟩))
      rw [meaning_compound, meaning_compound, meaning_append, meaning_gate, mul_assoc, hone,
        mul_one]
    · intro leaf hmem
      refine h.leaf leaf (hleaf leaf ?_)
      rw [leavesOfAll_append]
      exact List.mem_append_left _ hmem
    · intro q hq
      by_cases hacts : (Operation.compound front).actsOn q = true
      · exact .inl hacts
      · refine .inr ⟨fun r => ?_, fun r hr => (honly r hr).trans (honly q hq).symm⟩
        by_contra hr
        have hr' : (Operation.compound front).actsOn r = true := by simpa using hr
        rw [honly r (hlisted r (hsub r hr')), ← honly q hq] at hr'
        exact hacts hr'
  · refine h.absorb laws.one hc (laws.apart hcur) hsome (top_of_actsOn hcur htop) hp
      ?_ ?_ ?_ ?_
    · rw [meaning_compound, meaning_compound, meaning_append, meaning_gate]
    · intro leaf hmem
      rw [leaves_compound, leavesOfAll_append] at hmem
      rcases List.mem_append.1 hmem with hmem | hmem
      · exact h.leaf leaf (hleaf leaf hmem)
      · have heq : leaf = .gate current := by simpa [leavesOfAll, leaves] using hmem
        rw [heq]
        exact h.leaf _ (mem_leaves_of_slot hc)
    · intro q hq
      obtain ⟨op, hop, hacts⟩ := actsOn_compound.1 hq
      rcases List.mem_append.1 hop with hop | hop
      · exact hlisted q (actsOn_compound.2 ⟨op, hop, hacts⟩)
      · rw [List.mem_singleton.1 hop] at hacts
        rw [hcur.actsOn_iff.1 hacts]
        exact hin
    · intro q hq
      rw [honly q hq]
      refine .inl (actsOn_compound.2 ⟨.gate current, by simp, ?_⟩)
      exact hcur.actsOn_iff.2 rfl

/-- A gate behind another one on its qubit cancels with it, or the two become a
compound. -/
theorem gate_spec {earlier : Gate} (hp : s.ops[prev]? = some (.gate earlier))
    (hold : earlier.IsSingle target) :
    Inv val ops (k + 1)
      (if areInverse earlier.kind current.kind then
        { (s.discard prev).discard k with
          lanes := ((s.discard prev).discard k).lanes.pop target }
      else (s.set prev (.compound [.gate earlier, .gate current])).discard k) := by
  have hsome : ∃ q, current.actsOn q = true := ⟨target, hcur.actsOn_iff.2 rfl⟩
  have htops := top_of_actsOn hcur htop
  split
  · next hinv =>
    show Inv val ops (k + 1) (((Sweep.mk s.ops (s.lanes.pop target)).discard prev).discard k)
    refine h.drop laws.one hc (laws.apart hcur) hsome htops hp ?_ ?_ ?_
    · intro q
      rw [Bool.eq_iff_iff, hold.actsOn_iff, hcur.actsOn_iff]
    · exact laws.mul_eq_one hinv hcur fun _ => hold
    · intro q
      rw [Lanes.stack_pop]
      by_cases hq : q = target
      · rw [if_pos hq, if_pos (hcur.actsOn_iff.2 hq), hq]
      · rw [if_neg hq, if_neg fun hacts => hq (hcur.actsOn_iff.1 hacts)]
  · have hon : ∀ q, (Operation.compound [.gate earlier, .gate current]).actsOn q = true ↔
        q = target := by
      intro q
      have hrfl : (Operation.compound [.gate earlier, .gate current]).actsOn q =
          (earlier.actsOn q || (current.actsOn q || false)) := rfl
      rw [hrfl, Bool.or_false, Bool.or_eq_true, hold.actsOn_iff, hcur.actsOn_iff, or_self]
    refine h.absorb laws.one hc (laws.apart hcur) hsome htops hp ?_ ?_ ?_ ?_
    · rw [meaning_compound, meaning_cons (.gate earlier) [.gate current], meaning_gate,
        meaning_gate]
    · intro leaf hmem
      have hor : leaf = .gate earlier ∨ leaf = .gate current := by
        simpa [leavesOfAll, leaves] using hmem
      rcases hor with rfl | rfl
      · exact h.leaf _ (mem_leaves_of_slot hp)
      · exact h.leaf _ (mem_leaves_of_slot hc)
    · intro q hq
      rw [(hon q).1 hq]
      exact List.mem_of_mem_head? htop
    · intro q hq
      rcases h.tidy.acts hq hp with hacts | ⟨hnone, -⟩
      · exact .inl ((hon q).2 (hold.actsOn_iff.1 hacts))
      · have htarget : earlier.actsOn target = true := hold.actsOn_iff.2 rfl
        rw [show earlier.actsOn target = false from hnone target] at htarget
        cases htarget

end step

theorem step_spec (laws : SingleLaws val) (hvalid : ∀ op ∈ ops, op.validate = .ok ())
    (hk : k < ops.length) (h : Inv val ops k s) :
    ∃ s', step k s = .ok s' ∧ Inv val ops (k + 1) s' := by
  have hplace := h.place_current hvalid hk passName
  rw [step]
  split
  · next current hc =>
    cases hsole : soleTarget? current with
    | none => exact hplace
    | some target =>
      dsimp only
      have hcur := Gate.isSingle_of_soleTarget? hsole
      cases htop : s.lanes.top? target with
      | none => exact hplace
      | some prev =>
        dsimp only
        split
        · next children hp =>
          split
          · next htakes =>
            exact ⟨_, rfl, compound_spec laws h hc hcur htop hvalid hp htakes⟩
          · exact hplace
        · next earlier hp =>
          cases hsole' : soleTarget? earlier with
          | none => exact hplace
          | some t =>
            have hold := Gate.isSingle_of_soleTarget? hsole'
            -- the earlier gate is on this lane, so this is its qubit
            have ht : t = target := by
              rcases h.tidy.acts (List.mem_of_mem_head? htop) hp with hacts | ⟨hnone, -⟩
              · exact (hold.actsOn_iff.1 hacts).symm
              · have hon : earlier.actsOn t = true := hold.actsOn_iff.2 rfl
                rw [show earlier.actsOn t = false from hnone t] at hon
                cases hon
            have hspec := gate_spec laws h hc hcur htop hp (ht ▸ hold)
            rw [if_neg (by simp)]
            split at hspec
            · next hinv =>
              rw [if_pos hinv]
              exact ⟨_, rfl, hspec⟩
            · next hinv =>
              rw [if_neg hinv]
              exact ⟨_, rfl, hspec⟩
        · exact hplace
  · exact hplace

end Fusion
end QuantumCircuit
