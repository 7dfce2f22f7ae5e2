import Mathlib.Data.List.Chain
import QuantumCircuit.Proofs.Action
import QuantumCircuit.Proofs.Sweep.Neighbours

/-! Fusing gates on one qubit reduces their runs fully: on no qubit of what comes out is a gate
followed by one that undoes it. -/
namespace QuantumCircuit
open Operation Sweep

/-! ## Runs -/

/-- An uncontrolled gate with one target. -/
def Lone (op : Operation) : Prop := ∃ g q, op = .gate g ∧ g.IsSingle q

/-- Two uncontrolled gates with one target each, of kinds that are inverse to one another. -/
def Undoes (x y : Operation) : Prop :=
  ∃ p g, x = .gate p ∧ y = .gate g ∧ Lone x ∧ Lone y ∧ p.kind.inverse? = some g.kind

theorem Undoes.lone {x y : Operation} (h : Undoes x y) : Lone x ∧ Lone y := by
  obtain ⟨p, g, -, -, hx, hy, -⟩ := h
  exact ⟨hx, hy⟩

namespace Fusion

/-- A leaf on the qubit that ends a run. -/
structure Barrier (q : Qubit) (op : Operation) : Prop where
  flat : op.isCompound = false
  counts : op.isIdentity = false
  acts : op.actsOn q = true
  other : ¬ Lone op

/-- Gates on one qubit of which none undoes the one before it. -/
structure Word (q : Qubit) (gs : List Gate) : Prop where
  single : ∀ g ∈ gs, g.IsSingle q
  counts : ∀ g ∈ gs, g.kind ≠ .i
  chain : gs.IsChain fun x y => x.kind.inverse? ≠ some y.kind

/-- A gate on one qubit, or what such gates have been gathered into; it may have been emptied. -/
inductive Run (q : Qubit) : Operation → Prop where
  | one {g : Gate} (h : Word q [g]) : Run q (.gate g)
  | many {gs : List Gate} (h : Word q gs) : Run q (.compound (gs.map .gate))

variable {ops : List Operation} {s : Sweep} {k i j : Nat} {q r : Qubit} {op : Operation}
  {g : Gate} {gs : List Gate}

theorem soleTarget?_of_isSingle (h : g.IsSingle q) : soleTarget? g = some q := by
  rw [h]
  rfl

theorem word_singleton (hg : g.IsSingle q) (hkind : g.kind ≠ .i) : Word q [g] :=
  ⟨by simpa using hg, by simpa using hkind, List.isChain_singleton g⟩

theorem Word.dropLast (h : Word q gs) : Word q gs.dropLast :=
  ⟨fun g hg => h.single g (List.dropLast_subset gs hg),
    fun g hg => h.counts g (List.dropLast_subset gs hg), h.chain.dropLast⟩

/-- A gate that does not undo the last one lengthens the run. -/
theorem Word.concat (h : Word q gs) (hg : g.IsSingle q) (hkind : g.kind ≠ .i)
    (hlast : ∀ p ∈ gs.getLast?, p.kind.inverse? ≠ some g.kind) : Word q (gs ++ [g]) := by
  refine ⟨?_, ?_, ?_⟩
  · simpa [or_imp, forall_and] using ⟨h.single, hg⟩
  · simpa [or_imp, forall_and] using ⟨h.counts, hkind⟩
  · exact List.isChain_append.2 ⟨h.chain, List.isChain_singleton g, by simpa using hlast⟩

theorem Run.leaves (h : Run q op) : ∃ gs, Word q gs ∧ op.leaves = gs.map .gate := by
  cases h with
  | @one g hg => exact ⟨[g], hg, rfl⟩
  | @many gs hgs =>
    refine ⟨gs, hgs, ?_⟩
    rw [leaves_compound]
    exact leavesOfAll_eq_self (by simp [isCompound])

theorem Run.eq_of_actsOn (h : Run q op) (hr : op.actsOn r = true) : r = q := by
  obtain ⟨gs, hgs, hleaves⟩ := h.leaves
  obtain ⟨leaf, hleaf, hacts⟩ := actsOn_iff_leaf.1 hr
  rw [hleaves] at hleaf
  obtain ⟨g, hg, rfl⟩ := List.mem_map.1 hleaf
  exact (hgs.single g hg).actsOn_iff.1 hacts

theorem Barrier.not_run (h : Barrier q op) : ¬ Run r op := by
  intro hrun
  cases hrun with
  | @one g hg => exact h.other ⟨g, r, rfl, hg.single g (by simp)⟩
  | many hgs => cases h.flat

/-- A run takes up more gates. -/
theorem takesGates_of_word (h : Word q gs) : takesGates (gs.map .gate) = true := by
  have hrun : Run q (.compound (gs.map .gate)) := .many h
  have hunitary : (gs.map Operation.gate).all isUnitary = true := by simp [isUnitary]
  rw [takesGates, hunitary, Bool.true_and, decide_eq_true_eq]
  -- all its qubits are the one
  have hall : ∀ r ∈ (Operation.compound (gs.map .gate)).qubits.toList, r = q :=
    fun r hr => hrun.eq_of_actsOn (mem_qubits.1 hr)
  have hnodup := (Operation.compound (gs.map .gate)).qubits.nodup
  show (Operation.compound (gs.map .gate)).qubits.toList.length ≤ 1
  rw [List.eq_replicate_of_mem hall] at hnodup
  exact List.nodup_replicate.1 hnodup

/-! ## What is behind the sweep -/

/-- On each lane runs are kept apart. -/
structure Fused (s : Sweep) : Prop where
  slot : ∀ {i : Nat} {q : Qubit}, i ∈ s.lanes.stack q →
    ∃ op, s.ops[i]? = some op ∧ (Barrier q op ∨ Run q op)
  clear : ∀ {i j : Nat} {q : Qubit} {op : Operation}, s.lanes.Above q i j →
    s.ops[i]? = some op → Run q op → ∃ below, s.ops[j]? = some below ∧ Barrier q below

namespace Fused

theorem of_suffix (h : Fused s) {lanes : Lanes}
    (hlanes : ∀ q, lanes.stack q <:+ s.lanes.stack q) : Fused ⟨s.ops, lanes⟩ :=
  ⟨fun hi => h.slot ((hlanes _).subset hi), fun hij => h.clear (hij.of_suffix (hlanes _))⟩

theorem set_off (h : Fused s) (hoff : ∀ q, i ∉ s.lanes.stack q) : Fused (s.set i op) := by
  have hget : ∀ {q : Qubit} {j : Nat}, j ∈ s.lanes.stack q →
      (s.set i op).ops[j]? = s.ops[j]? := by
    intro q j hj
    refine List.getElem?_set_ne ?_
    rintro rfl
    exact hoff q hj
  refine ⟨?_, ?_⟩
  · intro j q hj
    rw [hget hj]
    exact h.slot hj
  · intro j m q x hjm hx hrun
    rw [hget hjm.mem_left] at hx
    rw [hget hjm.mem_right]
    exact h.clear hjm hx hrun

theorem discard_off (h : Fused s) (hoff : ∀ q, i ∉ s.lanes.stack q) (hi : s.ops[i]? = some op) :
    Fused (s.discard i) := by
  rw [discard_eq_set hi]
  exact h.set_off hoff

/-- A run that is last on its only lane may become another one. -/
theorem set_top (h : Fused s) (hsorted : ∀ q, (s.lanes.stack q).Pairwise (· > ·))
    (honly : ∀ r, i ∈ s.lanes.stack r → r = q) (htop : s.lanes.top? q = some i) {old : Operation}
    (hi : s.ops[i]? = some old) (hold : Run q old) (hop : Run q op) : Fused (s.set i op) := by
  have hlt := (List.getElem?_eq_some_iff.1 hi).1
  have hself : (s.set i op).ops[i]? = some op := List.getElem?_set_self hlt
  have hother : ∀ {j : Nat}, i ≠ j → (s.set i op).ops[j]? = s.ops[j]? :=
    fun hne => List.getElem?_set_ne hne
  refine ⟨?_, ?_⟩
  · intro j r hj
    by_cases hij : i = j
    · subst hij
      rw [honly r hj]
      exact ⟨op, hself, .inr hop⟩
    · rw [hother hij]
      exact h.slot hj
  · intro j m r x hjm hx hrun
    have hne : i ≠ m := by
      rintro rfl
      obtain rfl := honly r hjm.mem_right
      exact hjm.ne_top (hsorted r) htop rfl
    rw [hother hne]
    by_cases hij : i = j
    · subst hij
      obtain rfl := honly r hjm.mem_left
      exact h.clear hjm hi hold
    · rw [hother hij] at hx
      exact h.clear hjm hx hrun

/-- The current operation is put on the lanes; a run is put on no other one. -/
theorem put (h : Fused s) (hbehind : ∀ {i : Nat} {q : Qubit}, i ∈ s.lanes.stack q → i < k)
    (hk : s.ops[k]? = some op)
    (hfits : ∀ q, op.actsOn q = true → Barrier q op ∨ Run q op ∧
      ∀ {j : Nat}, s.lanes.top? q = some j → ∃ below, s.ops[j]? = some below ∧ Barrier q below) :
    Fused (s.put k) := by
  rw [put_eq hk]
  refine ⟨?_, ?_⟩
  · intro i q hi
    rcases Lanes.mem_pushAll hi with ⟨rfl, hq⟩ | hi
    · exact ⟨op, hk, (hfits q hq).imp_right And.left⟩
    · exact h.slot hi
  · intro i j q x hij hx hrun
    rcases hij.of_pushAll with ⟨rfl, hq, htop⟩ | hold
    · cases Option.some.inj (hk.symm.trans hx)
      rcases hfits q hq with hbarrier | ⟨-, hbelow⟩
      · exact absurd hrun hbarrier.not_run
      · exact hbelow htop
    · exact h.clear hold hx hrun

end Fused

/-! ## One step -/

theorem step_of_barrier {current : Gate} {target : Qubit} {prev : Nat} {below : Operation}
    (hk : s.ops[k]? = some (.gate current)) (hcur : current.IsSingle target)
    (htop : s.lanes.top? target = some prev) (hprev : s.ops[prev]? = some below)
    (hbelow : Barrier target below) : step k s = s.place passName k := by
  simp only [step, hk, soleTarget?_of_isSingle hcur, htop, hprev]
  cases below with
  | compound children => cases hbelow.flat
  | effect e => rfl
  | conditional cond body => rfl
  | gate earlier =>
    cases hsole : soleTarget? earlier with
    | none => simp [hsole]
    | some t => exact absurd ⟨earlier, t, rfl, Gate.isSingle_of_soleTarget? hsole⟩ hbelow.other

theorem step_of_not_lone (hk : s.ops[k]? = some op) (hop : ¬ Lone op) :
    step k s = s.place passName k := by
  rw [step, hk]
  cases op with
  | compound children => rfl
  | effect e => rfl
  | conditional cond body => rfl
  | gate current =>
    cases hsole : soleTarget? current with
    | none => simp [hsole]
    | some t => exact absurd ⟨current, t, rfl, Gate.isSingle_of_soleTarget? hsole⟩ hop

/-- A run that is on a lane is on no other one, also when it has been emptied. -/
theorem Run.only_lane (hold : Run q op) (htidy : Tidy k s) (htop : s.lanes.top? q = some i)
    (hi : s.ops[i]? = some op) (hr : i ∈ s.lanes.stack r) : r = q := by
  rcases htidy.acts hr hi with hacts | ⟨-, hunique⟩
  · exact hold.eq_of_actsOn hacts
  · exact (hunique q (List.mem_of_mem_head? htop)).symm

section run
variable {current : Gate} {target : Qubit} {prev : Nat} (h : Fused s) (htidy : Tidy k s)
  (hk : s.ops[k]? = some (.gate current)) (htop : s.lanes.top? target = some prev)
include h htidy hk htop

/-- A run takes up the current gate, or loses its last one to it. -/
theorem Fused.replace {old : Operation} (hprev : s.ops[prev]? = some old) (hold : Run target old)
    (hop : Run target op) : Fused ((s.set prev op).discard k) := by
  have hlt := htidy.lt_of_top htop
  have honly := fun r => hold.only_lane (r := r) htidy htop hprev
  refine (h.set_top htidy.sorted honly htop hprev hold hop).discard_off ?_
    ((List.getElem?_set_ne (by omega)).trans hk)
  exact fun q hin => Nat.lt_irrefl k (htidy.below hin)

/-- The current gate and a single one before it undo each other. -/
theorem Fused.drop {earlier : Gate} (hprev : s.ops[prev]? = some (.gate earlier))
    (hold : Run target (.gate earlier)) :
    Fused { (s.discard prev).discard k with
      lanes := ((s.discard prev).discard k).lanes.pop target } := by
  have hsuffix := s.lanes.pop_suffix target
  have hpopped : Fused ⟨s.ops, s.lanes.pop target⟩ := h.of_suffix hsuffix
  have hlt := htidy.lt_of_top htop
  have hprevOff : ∀ q, prev ∉ (s.lanes.pop target).stack q := by
    intro q hin
    have hq := hold.only_lane htidy htop hprev ((hsuffix q).subset hin)
    rw [Lanes.stack_pop, if_pos hq] at hin
    exact Lanes.not_mem_tail_of_top (htidy.sorted target) htop hin
  have hkept : ((Sweep.mk s.ops (s.lanes.pop target)).discard prev).ops[k]? =
      some (.gate current) := by
    rw [discard_eq_set (s := Sweep.mk s.ops (s.lanes.pop target)) hprev]
    exact (List.getElem?_set_ne (by omega)).trans hk
  refine (hpopped.discard_off hprevOff hprev).discard_off ?_ hkept
  exact fun q hin => Nat.lt_irrefl k (htidy.below ((hsuffix q).subset hin))

/-- Behind a run the current gate is taken up by it or cancels with its last gate. -/
theorem Fused.extend (hcur : current.IsSingle target) (hkind : current.kind ≠ .i)
    {old : Operation} (hprev : s.ops[prev]? = some old) (hold : Run target old) {s' : Sweep}
    (hs' : step k s = .ok s') : Fused s' := by
  cases hold with
  | @one earlier hearlier =>
    have hsingle := hearlier.single earlier (by simp)
    simp only [step, hk, soleTarget?_of_isSingle hcur, htop, hprev] at hs'
    rw [soleTarget?_of_isSingle hsingle, if_neg (by simp)] at hs'
    split at hs'
    · cases hs'
      exact h.drop htidy hk htop hprev (.one hearlier)
    · next hinv =>
      cases hs'
      have hword : Word target [earlier, current] :=
        hearlier.concat hcur hkind (by simpa [areInverse] using hinv)
      exact h.replace htidy hk htop hprev (.one hearlier) (.many hword)
  | @many gs hgs =>
    simp only [step, hk, soleTarget?_of_isSingle hcur, htop, hprev] at hs'
    rw [if_pos (takesGates_of_word hgs)] at hs'
    split at hs'
    · cases hs'
      rw [← List.map_dropLast]
      exact h.replace htidy hk htop hprev (.many hgs) (.many hgs.dropLast)
    · next hundo =>
      cases hs'
      have hword : Word target (gs ++ [current]) := by
        refine hgs.concat hcur hkind fun p hp hinv => hundo ?_
        rw [Option.mem_def] at hp
        rw [undoesLast, List.getLast?_map, hp]
        exact decide_eq_true hinv
      have hmap : gs.map Operation.gate ++ [.gate current] = (gs ++ [current]).map .gate := by simp
      rw [hmap]
      exact h.replace htidy hk htop hprev (.many hgs) (.many hword)

end run

/-- A gate on one qubit begins a run or goes on with one. -/
theorem Fused.step_lone (h : Fused s) (htidy : Tidy k s) {current : Gate} {target : Qubit}
    (hk : s.ops[k]? = some (.gate current)) (hcur : current.IsSingle target)
    (hkind : current.kind ≠ .i) (hplace : s.place passName k = .ok (s.put k)) {s' : Sweep}
    (hs' : step k s = .ok s') : Fused s' := by
  have hrun : Run target (.gate current) := .one (word_singleton hcur hkind)
  have hstart : (∀ {j : Nat}, s.lanes.top? target = some j →
      ∃ below, s.ops[j]? = some below ∧ Barrier target below) → Fused (s.put k) := by
    intro hbelow
    refine h.put htidy.below hk fun q hq => ?_
    rw [hcur.actsOn_iff.1 hq]
    exact .inr ⟨hrun, hbelow⟩
  cases htop : s.lanes.top? target with
  | none =>
    have hstep : step k s = s.place passName k := by
      simp only [step, hk, soleTarget?_of_isSingle hcur, htop]
    cases (hs'.symm.trans hstep).trans hplace
    apply hstart
    intro j hj
    rw [htop] at hj
    cases hj
  | some prev =>
    obtain ⟨below, hprev, hor⟩ := h.slot (List.mem_of_mem_head? htop)
    rcases hor with hbarrier | hold
    · cases (hs'.symm.trans (step_of_barrier hk hcur htop hprev hbarrier)).trans hplace
      apply hstart
      intro j hj
      cases Option.some.inj (htop.symm.trans hj)
      exact ⟨below, hprev, hbarrier⟩
    · exact h.extend htidy hk htop hcur hkind hprev hold hs'

/-- One step keeps the runs behind it apart and reduced. -/
theorem step_fused (hvalid : ∀ op ∈ ops, op.validate = .ok ())
    (hflat : ∀ op ∈ ops, op.isCompound = false) (hid : ∀ op ∈ ops, op.isIdentity = false)
    (hk : k < ops.length) (inv : Inv action ops k s) (h : Fused s) :
    ∃ s', step k s = .ok s' ∧ Inv action ops (k + 1) s' ∧ Fused s' := by
  obtain ⟨s', hs', inv'⟩ := step_spec singleLaws_action hvalid hk inv
  refine ⟨s', hs', inv', ?_⟩
  have hcurrent := inv.getElem?_current hk
  have hmem := List.getElem_mem hk
  have hcounts := hid _ hmem
  have hplace := place_eq hcurrent (check_of_validate passName (hvalid _ hmem))
  by_cases hlone : Lone ops[k]
  · obtain ⟨current, target, heq, hcur⟩ := hlone
    rw [heq] at hcurrent hcounts
    exact h.step_lone inv.tidy hcurrent hcur (by simpa [isIdentity] using hcounts) hplace hs'
  · -- what is no gate on one qubit ends the runs of its qubits
    cases (hs'.symm.trans (step_of_not_lone hcurrent hlone)).trans hplace
    exact h.put inv.tidy.below hcurrent fun q hq => .inl ⟨hflat _ hmem, hcounts, hq, hlone⟩

theorem fused_start (c : Circuit) : Fused ⟨c.ops, .forCircuit c⟩ :=
  ⟨fun hi => absurd hi (Lanes.not_mem_forCircuit c),
    fun hij => absurd hij.mem_left (Lanes.not_mem_forCircuit c)⟩

/-! ## The leaves on a qubit -/

/-- The leaves on a qubit that count. -/
def kept (q : Qubit) (ops : List Operation) : List Operation :=
  (Dynamic.leavesOn q ops).filter (!·.isIdentity)

theorem kept_append (q : Qubit) (as bs : List Operation) :
    kept q (as ++ bs) = kept q as ++ kept q bs := by
  simp [kept]

theorem kept_eq_nil (h : op.actsOn q = true → op.isIdentity = true) : kept q [op] = [] := by
  by_cases hq : op.actsOn q = true
  · have hflat : op.isCompound = false := by
      cases op with
      | compound children => cases h hq
      | gate g => rfl
      | effect e => rfl
      | conditional cond body => rfl
    simp [kept, Dynamic.leavesOn, leaves_eq_self hflat, h hq, hq]
  · have hnil : Dynamic.leavesOn q [op] = [] := Dynamic.leavesOn_eq_nil (by simpa using hq)
    rw [kept, hnil]
    rfl

theorem Barrier.kept_eq (h : Barrier q op) : kept q [op] = [op] := by
  simp [kept, Dynamic.leavesOn, leaves_eq_self h.flat, h.counts, h.acts]

theorem Run.kept_eq (h : Run q op) : ∃ gs, Word q gs ∧ kept q [op] = gs.map .gate := by
  obtain ⟨gs, hgs, hleaves⟩ := h.leaves
  refine ⟨gs, hgs, ?_⟩
  have hall : ∀ leaf ∈ gs.map Operation.gate, leaf.actsOn q = true ∧ leaf.isIdentity = false := by
    intro leaf hleaf
    obtain ⟨g, hg, rfl⟩ := List.mem_map.1 hleaf
    exact ⟨(hgs.single g hg).actsOn_iff.2 rfl, by simpa [isIdentity] using hgs.counts g hg⟩
  have hleaves' : leavesOfAll [op] = gs.map .gate := by simp [hleaves]
  rw [kept, Dynamic.leavesOn, hleaves', List.filter_filter, List.filter_eq_self]
  exact fun leaf hleaf => by simp [hall leaf hleaf]

theorem Word.isChain (h : Word q gs) :
    (gs.map Operation.gate).IsChain fun x y => ¬ Undoes x y := by
  rw [List.isChain_map]
  refine h.chain.imp ?_
  rintro x y hxy ⟨p, g, hp, hg, -, -, hinv⟩
  cases hp
  cases hg
  exact hxy hinv

/-- The leaves of the first slots: no gate undoes the one before it, and if the last leaf is a
gate on one qubit the last slot on the lane is a run. -/
structure Reduced (s : Sweep) (q : Qubit) (n : Nat) : Prop where
  chain : (kept q (s.ops.take n)).IsChain fun x y => ¬ Undoes x y
  last : ∀ x ∈ (kept q (s.ops.take n)).getLast?, Lone x →
    ∃ i op, i ∈ s.lanes.stack q ∧ i < n ∧ s.ops[i]? = some op ∧ Run q op ∧
      ∀ m ∈ s.lanes.stack q, m < n → m ≤ i

theorem Fused.reduced (h : Fused s) (htidy : Tidy s.ops.length s) (q : Qubit) {n : Nat}
    (hn : n ≤ s.ops.length) : Reduced s q n := by
  induction n with
  | zero => exact ⟨.nil, by simp [kept]⟩
  | succ n ih =>
    have hr := ih (by omega)
    have hget := List.getElem?_eq_getElem hn
    have hsplit : kept q (s.ops.take (n + 1)) = kept q (s.ops.take n) ++ kept q [s.ops[n]] := by
      rw [List.take_add_one, hget, Option.toList_some, kept_append]
    by_cases hlane : n ∈ s.lanes.stack q
    · obtain ⟨op, hop, hor⟩ := h.slot hlane
      cases Option.some.inj (hget.symm.trans hop)
      rcases hor with hbarrier | hrun
      · rw [hbarrier.kept_eq] at hsplit
        refine ⟨?_, ?_⟩
        · rw [hsplit, List.isChain_append]
          refine ⟨hr.chain, List.isChain_singleton _, ?_⟩
          intro x _ y hy hundo
          cases hy
          exact hbarrier.other hundo.lone.2
        · intro x hx hlone
          rw [hsplit, List.getLast?_concat] at hx
          cases hx
          exact absurd hlone hbarrier.other
      · obtain ⟨gs, hgs, hkept⟩ := hrun.kept_eq
        rw [hkept] at hsplit
        -- the run stands on a slot that ends runs
        have hbefore : ∀ x ∈ (kept q (s.ops.take n)).getLast?, ¬ Lone x := by
          intro x hx hlone
          obtain ⟨i, op, hi, hin, hiop, hirun, hmax⟩ := hr.last x hx hlone
          have habove : s.lanes.Above q n i := by
            refine Lanes.above_of_mem (htidy.sorted q) hlane hi hin ?_
            rintro m hm ⟨him, hmn⟩
            exact absurd (hmax m hm hmn) (by omega)
          obtain ⟨below, hbelow, hbarrier⟩ := h.clear habove hop hrun
          cases Option.some.inj (hiop.symm.trans hbelow)
          exact hbarrier.not_run hirun
        refine ⟨?_, fun x _ _ => ⟨n, _, hlane, Nat.lt_succ_self n, hop, hrun, ?_⟩⟩
        · rw [hsplit, List.isChain_append]
          exact ⟨hr.chain, hgs.isChain, fun x hx y _ hundo => hbefore x hx hundo.lone.1⟩
        · exact fun m _ hmn => Nat.lt_succ_iff.1 hmn
    · have hnil : kept q [s.ops[n]] = [] :=
        kept_eq_nil fun hq => (htidy.listed hn hget hq).resolve_left hlane
      rw [hnil, List.append_nil] at hsplit
      refine ⟨hsplit ▸ hr.chain, ?_⟩
      intro x hx hlone
      rw [hsplit] at hx
      obtain ⟨i, op, hi, hin, hiop, hrun, hmax⟩ := hr.last x hx hlone
      refine ⟨i, op, hi, Nat.lt_succ_of_lt hin, hiop, hrun, fun m hm hmn => hmax m hm ?_⟩
      refine Nat.lt_of_le_of_ne (Nat.lt_succ_iff.1 hmn) ?_
      rintro rfl
      exact hlane hm

end Fusion

namespace Circuit
variable {c : Circuit}

/-- Fusing gates is complete on circuits of single operations: what comes out does the same, and
on no qubit is a gate followed by one that undoes it. -/
theorem fuseSingleQubitGates_complete (hvalid : ∀ op ∈ c.ops, op.validate = .ok ())
    (hflat : ∀ op ∈ c.ops, op.isCompound = false) (hid : ∀ op ∈ c.ops, op.isIdentity = false) :
    ∃ ops, c.fuseSingleQubitGates = .done { c with ops := ops } ∧
      (∀ st, execAll ops st = execAll c.ops st) ∧
      ∀ q, (Dynamic.leavesOn q ops).IsChain fun x y => ¬ Undoes x y := by
  have hstep : ∀ k s, k < c.ops.length → Inv action c.ops k s ∧ Fusion.Fused s →
      ∃ s', Fusion.step k s = .ok s' ∧ Inv action c.ops (k + 1) s' ∧ Fusion.Fused s' :=
    fun _ _ hk h => Fusion.step_fused hvalid hflat hid hk h.1 h.2
  obtain ⟨s, hdone, inv, hfused⟩ := run_of_steps
    (P := fun k s => Inv action c.ops k s ∧ Fusion.Fused s)
    ⟨inv_start action c, Fusion.fused_start c⟩ hstep
  have hmeaning : meaning action (stripAll s.ops) = meaning action c.ops := by
    rw [meaning_stripAll singleLaws_action.one, inv.meaning]
  refine ⟨stripAll s.ops, hdone, meaning_action_eq_iff.1 hmeaning, fun q => ?_⟩
  have hreduced := hfused.reduced (inv.length ▸ inv.tidy) q (Nat.le_refl s.ops.length)
  rw [Dynamic.leavesOn_stripAll]
  simpa [Fusion.kept] using hreduced.chain

/-- Gates on one qubit that cancel one after the other until their compound is empty, then one
more that it takes up, next to gates on another qubit that a measurement keeps apart. -/
def unwinding : Circuit :=
  { Circuit.withSize "unwinding" 2 1 with
    ops := [.gate (.ofKind .s [⟨0⟩]), .gate (.ofKind .x [⟨1⟩]), .gate (.ofKind .t [⟨0⟩]),
      .effect ⟨.measure, [⟨1⟩], [⟨0⟩]⟩, .gate (.ofKind .tdg [⟨0⟩]), .gate (.ofKind .x [⟨1⟩]),
      .gate (.ofKind .sdg [⟨0⟩]), .gate (.ofKind .h [⟨0⟩]), .gate (.cnot ⟨0⟩ ⟨1⟩),
      .gate (.ofKind .h [⟨0⟩]), .gate (.ofKind .h [⟨0⟩])] }

theorem fuseSingleQubitGates_complete_unwinding :
    (∀ op ∈ unwinding.ops, op.validate = .ok ()) ∧
      (∀ op ∈ unwinding.ops, op.isCompound = false) ∧
      (∀ op ∈ unwinding.ops, op.isIdentity = false) ∧
      ∃ ops, unwinding.fuseSingleQubitGates = .done { unwinding with ops := ops } ∧
        ops = [.gate (.ofKind .h [⟨0⟩]), .gate (.ofKind .x [⟨1⟩]),
          .effect ⟨.measure, [⟨1⟩], [⟨0⟩]⟩, .gate (.ofKind .x [⟨1⟩]), .gate (.cnot ⟨0⟩ ⟨1⟩)] ∧
        ∀ q, (Dynamic.leavesOn q ops).IsChain fun x y => ¬ Undoes x y := by
  have hvalid : ∀ op ∈ unwinding.ops, op.validate = .ok () := validateAll_eq_ok_iff.1 rfl
  have hflat : ∀ op ∈ unwinding.ops, op.isCompound = false := by decide
  have hid : ∀ op ∈ unwinding.ops, op.isIdentity = false := by decide
  obtain ⟨ops, hdone, -, hchain⟩ := fuseSingleQubitGates_complete hvalid hflat hid
  have hops : ops = unwinding.fuseSingleQubitGates.state.ops := by rw [hdone]; rfl
  refine ⟨hvalid, hflat, hid, ops, hdone, ?_, hchain⟩
  rw [hops]
  rfl

end Circuit
end QuantumCircuit
