import QuantumCircuit.Peephole.CnotCancellation
import QuantumCircuit.Peephole.SwapReconstruction
import QuantumCircuit.Proofs.Ordered
import QuantumCircuit.Proofs.Sweep

/-! CNOTs and SWAPs on one pair of qubits. The rules that cancel and rewrite them
keep the meaning of a circuit in every monoid in which a SWAP is three alternating
CNOTs and a CNOT undoes itself. -/
namespace QuantumCircuit
open Operation Sweep

/-! ## Shapes -/

namespace Gate

def swap (a b : Qubit) : Gate := .ofKind .swap [a, b]

/-- A CNOT up to parameters. -/
def IsCnot (g : Gate) (control target : Qubit) : Prop :=
  g = { cnot control target with params := g.params }

/-- An uncontrolled SWAP up to parameters. -/
def IsSwap (g : Gate) (a b : Qubit) : Prop := g = { swap a b with params := g.params }

variable {g : Gate} {a b q : Qubit}

theorem controls_cnot (a b : Qubit) : (cnot a b).controls.toList = [.pos a] := rfl

theorem isCnot_of_operands (h : g.cnotOperands? = some (a, b)) : g.IsCnot a b := by
  rw [cnotOperands?] at h
  split at h
  · next hcnot =>
    simp only [isCnot, Bool.and_eq_true, decide_eq_true_eq] at hcnot
    obtain ⟨⟨⟨hkind, hlen⟩, hsize⟩, hpos⟩ := hcnot
    obtain ⟨t, ht⟩ := List.length_eq_one_iff.1 hlen
    obtain ⟨c, hc⟩ := List.length_eq_one_iff.1 hsize
    have hpositive : c.polarity = .positive := by simpa [hc, Control.isPositive] using hpos
    simp only [controlQubit?, hc, ht, Option.some.injEq, Prod.mk.injEq] at h
    obtain ⟨rfl, rfl⟩ := h
    have hcontrols : g.controls = (cnot c.qubit t).controls := by
      refine OrderedSet.eq_of_mem_iff fun x => ?_
      have hx : x ∈ g.controls ↔ x = c := by
        rw [← OrderedSet.mem_toList, hc, List.mem_singleton]
      have hcpos : c = .pos c.qubit := by rw [Control.pos, ← hpositive]
      rw [hx, ← OrderedSet.mem_toList, controls_cnot, List.mem_singleton, ← hcpos]
    rw [IsCnot]
    cases g
    simp_all [cnot, controlled]
  · cases h

theorem isSwap_of_targets (h : g.isSwap = true) (ht : g.targets = [a, b]) : g.IsSwap a b := by
  simp only [isSwap, Bool.and_eq_true, decide_eq_true_eq] at h
  obtain ⟨⟨hkind, hcontrols⟩, -⟩ := h
  have hempty : g.controls = ∅ := by
    refine OrderedSet.eq_of_mem_iff fun x => ?_
    have hnil : g.controls.toList = [] := List.isEmpty_iff.1 hcontrols
    rw [← OrderedSet.mem_toList, hnil]
    exact ⟨nofun, nofun⟩
  rw [IsSwap]
  cases g
  simp_all [swap, ofKind]

theorem actsOn_cnot : (cnot a b).actsOn q = true ↔ q = a ∨ q = b := by
  have hrfl : (cnot a b).actsOn q = (decide (q ∈ [b]) || (decide (a = q) || false)) := rfl
  rw [hrfl, Bool.or_false, Bool.or_eq_true, decide_eq_true_eq, decide_eq_true_eq,
    List.mem_singleton]
  exact ⟨fun h => h.symm.imp_left Eq.symm, fun h => h.symm.imp_right Eq.symm⟩

theorem actsOn_swap : (swap a b).actsOn q = true ↔ q = a ∨ q = b := by
  have hrfl : (swap a b).actsOn q = (decide (q ∈ [a, b]) || false) := rfl
  simp [hrfl]

theorem IsCnot.actsOn_iff (h : g.IsCnot a b) : g.actsOn q = true ↔ q = a ∨ q = b := by
  rw [h]
  exact actsOn_cnot

theorem IsSwap.actsOn_iff (h : g.IsSwap a b) : g.actsOn q = true ↔ q = a ∨ q = b := by
  rw [h]
  exact actsOn_swap

theorem IsCnot.validate_iff (h : g.IsCnot a b) : g.validate = .ok () ↔ a ≠ b := by
  rw [h, validate_eq_ok_iff]
  have hoperands : operands { cnot a b with params := g.params } = [a, b] := rfl
  have hcount : ({ cnot a b with params := g.params } : Gate).kind.numTargets = some 1 := rfl
  rw [hoperands, hcount]
  simp [cnot, controlled]

theorem IsSwap.validate_iff (h : g.IsSwap a b) : g.validate = .ok () ↔ a ≠ b := by
  rw [h, validate_eq_ok_iff]
  have hoperands : operands { swap a b with params := g.params } = [a, b] := rfl
  have hcount : ({ swap a b with params := g.params } : Gate).kind.numTargets = some 2 := rfl
  rw [hoperands, hcount]
  simp [swap, ofKind]

theorem isCnot_becomeCnot (g : Gate) (a b : Qubit) : (g.becomeCnot a b).IsCnot a b := rfl

/-- The lower qubit is written first. -/
theorem isSwap_becomeSwap (g : Gate) (a b : Qubit) :
    (g.becomeSwap a b).IsSwap a b ∨ (g.becomeSwap a b).IsSwap b a := by
  rw [becomeSwap]
  split
  · exact .inl rfl
  · exact .inr rfl

end Gate

/-! ## Laws -/

variable {M : Type*} [Monoid M] {val : Operation → M}

/-- The laws of CNOTs and SWAPs in a monoid. -/
structure PairLaws (val : Operation → M) : Prop where
  one : ∀ leaf, leaf.isIdentity = true → val leaf = 1
  params : ∀ (g : Gate) (ps : List Binary64), g.kind = .x ∨ g.kind = .swap →
    val (.gate { g with params := ps }) = val (.gate g)
  cnot_apart : ∀ {a b : Qubit}, a ≠ b → CommutesApart val (.gate (.cnot a b))
  swap_apart : ∀ {a b : Qubit}, a ≠ b → CommutesApart val (.gate (.swap a b))
  cnot_cnot : ∀ {a b : Qubit}, a ≠ b → val (.gate (.cnot a b)) * val (.gate (.cnot a b)) = 1
  swap_comm : ∀ {a b : Qubit}, a ≠ b → val (.gate (.swap a b)) = val (.gate (.swap b a))
  cnot_three : ∀ {a b : Qubit}, a ≠ b →
    val (.gate (.cnot a b)) * val (.gate (.cnot b a)) * val (.gate (.cnot a b)) =
      val (.gate (.swap a b))

namespace PairLaws
variable {g : Gate} {a b : Qubit}

theorem val_cnot (h : PairLaws val) (hg : g.IsCnot a b) :
    val (.gate g) = val (.gate (.cnot a b)) := by
  rw [hg]
  exact h.params (.cnot a b) g.params (.inl rfl)

theorem val_swap (h : PairLaws val) (hg : g.IsSwap a b) :
    val (.gate g) = val (.gate (.swap a b)) := by
  rw [hg]
  exact h.params (.swap a b) g.params (.inr rfl)

theorem val_becomeSwap (h : PairLaws val) (hne : a ≠ b) :
    val (.gate (g.becomeSwap a b)) = val (.gate (.swap a b)) := by
  rcases g.isSwap_becomeSwap a b with hg | hg
  · exact h.val_swap hg
  · exact (h.val_swap hg).trans (h.swap_comm hne).symm

theorem apart_cnot (h : PairLaws val) (hne : a ≠ b) (hg : g.IsCnot a b) :
    CommutesApart val (.gate g) := by
  intro leaf hleaf hindep
  rw [h.val_cnot hg]
  refine h.cnot_apart hne leaf hleaf fun q hq => hindep q ?_
  exact hg.actsOn_iff.2 (Gate.actsOn_cnot.1 hq)

theorem apart_swap (h : PairLaws val) (hne : a ≠ b) (hg : g.IsSwap a b) :
    CommutesApart val (.gate g) := by
  intro leaf hleaf hindep
  rw [h.val_swap hg]
  refine h.swap_apart hne leaf hleaf fun q hq => hindep q ?_
  exact hg.actsOn_iff.2 (Gate.actsOn_swap.1 hq)

/-- A SWAP before a CNOT leaves two CNOTs. -/
theorem swap_mul_cnot (h : PairLaws val) (hne : a ≠ b) :
    val (.gate (.swap a b)) * val (.gate (.cnot a b)) =
      val (.gate (.cnot a b)) * val (.gate (.cnot b a)) := by
  rw [← h.cnot_three hne, mul_assoc, h.cnot_cnot hne, mul_one]

/-- A SWAP behind a CNOT leaves two CNOTs. -/
theorem cnot_mul_swap (h : PairLaws val) (hne : a ≠ b) :
    val (.gate (.cnot a b)) * val (.gate (.swap a b)) =
      val (.gate (.cnot b a)) * val (.gate (.cnot a b)) := by
  rw [← h.cnot_three hne, ← mul_assoc, ← mul_assoc, h.cnot_cnot hne, one_mul]

theorem swap_mul_swap (h : PairLaws val) (hne : a ≠ b) :
    val (.gate (.swap a b)) * val (.gate (.swap a b)) = 1 := by
  calc val (.gate (.swap a b)) * val (.gate (.swap a b))
      = val (.gate (.swap a b)) * (val (.gate (.cnot a b)) * val (.gate (.cnot b a)) *
          val (.gate (.cnot a b))) := by rw [h.cnot_three hne]
    _ = val (.gate (.swap a b)) * val (.gate (.cnot a b)) * val (.gate (.cnot b a)) *
          val (.gate (.cnot a b)) := by simp only [mul_assoc]
    _ = val (.gate (.cnot a b)) * (val (.gate (.cnot b a)) * val (.gate (.cnot b a))) *
          val (.gate (.cnot a b)) := by rw [h.swap_mul_cnot hne]; simp only [mul_assoc]
    _ = 1 := by rw [h.cnot_cnot hne.symm, mul_one, h.cnot_cnot hne]

end PairLaws

/-! ## Lanes of a pair -/

theorem Lanes.top?_of_sharedTop? {l : Lanes} {a b : Qubit} {i : Nat}
    (h : l.sharedTop? a b = some i) : l.top? a = some i ∧ l.top? b = some i := by
  rw [sharedTop?] at h
  split at h
  · next x y hx hy =>
    split at h
    · next hxy =>
      cases Option.some.inj h
      exact ⟨hx, hxy ▸ hy⟩
    · cases h
  · cases h

theorem Lanes.second?_of_sharedSecond? {l : Lanes} {a b : Qubit} {i : Nat}
    (h : l.sharedSecond? a b = some i) : l.second? a = some i ∧ l.second? b = some i := by
  rw [sharedSecond?] at h
  split at h
  · next x y hx hy =>
    split at h
    · next hxy =>
      cases Option.some.inj h
      exact ⟨hx, hxy ▸ hy⟩
    · cases h
  · cases h

theorem Lanes.stack_eq_of_second? {l : Lanes} {q : Qubit} {last i : Nat}
    (htop : l.top? q = some last) (hsecond : l.second? q = some i) :
    ∃ below, l.stack q = last :: i :: below := by
  rw [top?] at htop
  rw [second?] at hsecond
  refine ⟨(l.stack q).tail.tail, ?_⟩
  rw [List.cons_head?_tail hsecond, List.cons_head?_tail htop]

theorem Sweep.stack_popBoth (s : Sweep) {a b : Qubit} (hne : a ≠ b) (q : Qubit) :
    (s.popBoth a b).lanes.stack q =
      if q = a ∨ q = b then (s.lanes.stack q).tail else s.lanes.stack q := by
  rw [popBoth]
  by_cases ha : q = a
  · subst ha
    simp [hne]
  · by_cases hb : q = b
    · subst hb
      simp [ha]
    · simp [ha, hb]

variable {ops : List Operation} {s : Sweep} {k i : Nat} {a b u v : Qubit}

/-- A gate on two qubits that is last on two lanes acts on their qubits. -/
theorem Sweep.Tidy.same_pair (h : Tidy k s) {p : Gate} (hp : s.ops[i]? = some (.gate p))
    (hacts : ∀ q, p.actsOn q = true ↔ q = u ∨ q = v) (ha : s.lanes.top? a = some i)
    (hb : s.lanes.top? b = some i) (hne : a ≠ b) : (u = a ∧ v = b) ∨ (u = b ∧ v = a) := by
  have hon : ∀ {q : Qubit}, s.lanes.top? q = some i → q = u ∨ q = v := by
    intro q hq
    rcases h.acts (List.mem_of_mem_head? hq) hp with hin | hnone
    · exact (hacts q).1 hin
    · have hu : p.actsOn u = true := (hacts u).2 (.inl rfl)
      rw [show p.actsOn u = false from hnone.1 u] at hu
      cases hu
  rcases hon ha with rfl | rfl
  · rcases hon hb with rfl | rfl
    · exact absurd rfl hne
    · exact .inl ⟨rfl, rfl⟩
  · rcases hon hb with rfl | rfl
    · exact .inr ⟨rfl, rfl⟩
    · exact absurd rfl hne

/-! ## Two gates in a row -/

theorem Sweep.Inv.cnot_ne (h : Inv val ops k s) (hvalid : ∀ op ∈ ops, op.validate = .ok ())
    {g : Gate} (hi : s.ops[i]? = some (.gate g)) (hg : g.IsCnot a b) : a ≠ b := by
  refine hg.validate_iff.1 (h.valid_gate hvalid (mem_leaves_of_slot hi) ?_)
  rw [hg]
  exact nofun

theorem Sweep.Inv.swap_ne (h : Inv val ops k s) (hvalid : ∀ op ∈ ops, op.validate = .ok ())
    {g : Gate} (hi : s.ops[i]? = some (.gate g)) (hg : g.IsSwap a b) : a ≠ b := by
  refine hg.validate_iff.1 (h.valid_gate hvalid (mem_leaves_of_slot hi) ?_)
  rw [hg]
  exact nofun

/-- Gates that act on the same two qubits. -/
theorem Gate.actsOn_congr {g g' : Gate} (h : ∀ q, g.actsOn q = true ↔ q = a ∨ q = b)
    (h' : ∀ q, g'.actsOn q = true ↔ q = a ∨ q = b) (q : Qubit) : g.actsOn q = g'.actsOn q := by
  rw [Bool.eq_iff_iff, h q, h' q]

theorem Gate.validate_becomeSwap {g : Gate} (hne : a ≠ b) :
    (g.becomeSwap a b).validate = .ok () := by
  rcases g.isSwap_becomeSwap a b with h | h
  · exact h.validate_iff.2 hne
  · exact h.validate_iff.2 hne.symm

theorem Gate.actsOn_becomeSwap {g : Gate} (q : Qubit) :
    (g.becomeSwap a b).actsOn q = true ↔ q = a ∨ q = b := by
  rcases g.isSwap_becomeSwap a b with h | h
  · exact h.actsOn_iff
  · rw [h.actsOn_iff, or_comm]

/-- The gate at the current slot acts on a pair of qubits directly behind another
gate on them. -/
structure Adjacent (s : Sweep) (k prev : Nat) (earlier current : Gate) (a b : Qubit) : Prop where
  ne : a ≠ b
  atSlot : s.ops[k]? = some (.gate current)
  currentOn : ∀ q, current.actsOn q = true ↔ q = a ∨ q = b
  atPrev : s.ops[prev]? = some (.gate earlier)
  earlierOn : ∀ q, earlier.actsOn q = true ↔ q = a ∨ q = b
  top : ∀ q, current.actsOn q = true → s.lanes.top? q = some prev

namespace Adjacent
variable {prev : Nat} {current earlier : Gate}

theorem some_qubit (adj : Adjacent s k prev earlier current a b) : ∃ q, current.actsOn q = true :=
  ⟨a, (adj.currentOn a).2 (.inl rfl)⟩

theorem stack_popBoth (adj : Adjacent s k prev earlier current a b) (q : Qubit) :
    (s.popBoth a b).lanes.stack q =
      if current.actsOn q then (s.lanes.stack q).tail else s.lanes.stack q := by
  rw [s.stack_popBoth adj.ne]
  exact if_congr (adj.currentOn q).symm rfl rfl

theorem drop (adj : Adjacent s k prev earlier current a b) (h : Inv val ops k s)
    (laws : PairLaws val) (hcomm : CommutesApart val (.gate current))
    (heq : val (.gate earlier) * val (.gate current) = 1) :
    Inv val ops (k + 1) (((s.popBoth a b).discard prev).discard k) :=
  h.drop laws.one adj.atSlot hcomm adj.some_qubit adj.top adj.atPrev
    (Gate.actsOn_congr adj.earlierOn adj.currentOn) heq adj.stack_popBoth

theorem rewrite (adj : Adjacent s k prev earlier current a b) (h : Inv val ops k s)
    (laws : PairLaws val) (hcomm : CommutesApart val (.gate current)) {p c : Gate} {lanes : Lanes}
    (hp : p.validate = .ok ()) (hpon : ∀ q, p.actsOn q = true ↔ q = a ∨ q = b)
    (hc : c.validate = .ok ()) (hcon : ∀ q, c.actsOn q = true ↔ q = a ∨ q = b)
    (hcomm' : CommutesApart val (.gate c))
    (heq : val (.gate earlier) * val (.gate current) = val (.gate p) * val (.gate c))
    (hlanes : ∀ q, lanes.stack q =
      if current.actsOn q then k :: s.lanes.stack q else s.lanes.stack q) :
    Inv val ops (k + 1) ⟨(s.ops.set prev (.gate p)).set k (.gate c), lanes⟩ :=
  h.rewrite laws.one adj.atSlot hcomm adj.some_qubit adj.top adj.atPrev
    (Gate.actsOn_congr adj.earlierOn adj.currentOn) hp (Gate.actsOn_congr hpon adj.currentOn) hc
    (Gate.actsOn_congr hcon adj.currentOn) hcomm' heq hlanes

/-- The new gate at the current slot is put on the lanes. -/
theorem rewrite_put (adj : Adjacent s k prev earlier current a b) (h : Inv val ops k s)
    (laws : PairLaws val) (hcomm : CommutesApart val (.gate current)) {p c : Gate}
    (hp : p.validate = .ok ()) (hpon : ∀ q, p.actsOn q = true ↔ q = a ∨ q = b)
    (hc : c.validate = .ok ()) (hcon : ∀ q, c.actsOn q = true ↔ q = a ∨ q = b)
    (hcomm' : CommutesApart val (.gate c))
    (heq : val (.gate earlier) * val (.gate current) = val (.gate p) * val (.gate c)) :
    Inv val ops (k + 1) (((s.set prev (.gate p)).set k (.gate c)).put k) := by
  have hklt := (List.getElem?_eq_some_iff.1 adj.atSlot).1
  have hput : ((s.set prev (.gate p)).set k (.gate c)).put k =
      ⟨(s.ops.set prev (.gate p)).set k (.gate c),
        s.lanes.pushAll (Operation.gate c).qubits.toList k⟩ :=
    put_eq (List.getElem?_set_self (by simpa [Sweep.set] using hklt))
  rw [hput]
  refine adj.rewrite h laws hcomm hp hpon hc hcon hcomm' heq fun q => ?_
  have hq : (Operation.gate c).actsOn q = current.actsOn q :=
    Gate.actsOn_congr hcon adj.currentOn q
  rw [Lanes.stack_pushAll_qubits, hq]

end Adjacent

/-- Two gates on two qubits each, the later one last on the shared lanes. -/
theorem adjacent_of_sharedTop? {prev : Nat} {current earlier : Gate} (h : Tidy k s)
    (hc : s.ops[k]? = some (.gate current))
    (hcon : ∀ q, current.actsOn q = true ↔ q = a ∨ q = b)
    (hp : s.ops[prev]? = some (.gate earlier))
    (hpon : ∀ q, earlier.actsOn q = true ↔ q = u ∨ q = v)
    (hshared : s.lanes.sharedTop? a b = some prev) (hne : a ≠ b) :
    Adjacent s k prev earlier current a b := by
  obtain ⟨htopa, htopb⟩ := Lanes.top?_of_sharedTop? hshared
  refine ⟨hne, hc, hcon, hp, ?_, ?_⟩
  · intro q
    rw [hpon]
    rcases h.same_pair hp hpon htopa htopb hne with ⟨rfl, rfl⟩ | ⟨rfl, rfl⟩
    · rfl
    · exact or_comm
  · intro q hq
    rcases (hcon q).1 hq with rfl | rfl
    · exact htopa
    · exact htopb

/-! ## SWAP reconstruction -/

namespace SwapReconstruction

theorem cnotAt?_eq_some {g : Gate}
    (h : cnotAt? s i = some (g, a, b)) : s.ops[i]? = some (.gate g) ∧ g.IsCnot a b := by
  rw [cnotAt?] at h
  split at h
  · next g' hg' =>
    obtain ⟨⟨a', b'⟩, hoperands, heq⟩ := Option.map_eq_some_iff.1 h
    cases heq
    exact ⟨hg', Gate.isCnot_of_operands hoperands⟩
  · cases h

/-- A CNOT behind the reversed one becomes that one, behind a SWAP. -/
theorem reverse_spec (laws : PairLaws val) {prev : Nat} {current earlier : Gate}
    {control target : Qubit} (adj : Adjacent s k prev earlier current control target)
    (h : Inv val ops k s) (hcur : current.IsCnot control target)
    (hold : earlier.IsCnot target control) :
    Inv val ops (k + 1)
      (((((s.popBoth control target).set prev (.gate (earlier.becomeSwap control target))).put
        prev).set k (.gate (current.becomeCnot target control))).put k) := by
  have hplt := (List.getElem?_eq_some_iff.1 adj.atPrev).1
  have hklt := (List.getElem?_eq_some_iff.1 adj.atSlot).1
  have hnew := current.isCnot_becomeCnot target control
  have hnewOn : ∀ q, (current.becomeCnot target control).actsOn q = true ↔
      q = control ∨ q = target := fun q => hnew.actsOn_iff.trans or_comm
  have hswapOn : ∀ q, (earlier.becomeSwap control target).actsOn q = true ↔
      q = control ∨ q = target := fun q => Gate.actsOn_becomeSwap q
  set swapped := Operation.gate (earlier.becomeSwap control target) with hswapped
  set turned := Operation.gate (current.becomeCnot target control) with hturned
  have hput : ((s.popBoth control target).set prev swapped).put prev =
      ⟨s.ops.set prev swapped, (s.popBoth control target).lanes.pushAll
        swapped.qubits.toList prev⟩ := put_eq (List.getElem?_set_self hplt)
  have hput' : ∀ lanes : Lanes, ((Sweep.mk (s.ops.set prev swapped) lanes).set k turned).put k =
      ⟨(s.ops.set prev swapped).set k turned, lanes.pushAll turned.qubits.toList k⟩ :=
    fun lanes => put_eq (List.getElem?_set_self (by simpa using hklt))
  rw [hput, hput']
  refine adj.rewrite h laws (laws.apart_cnot adj.ne hcur) (Gate.validate_becomeSwap adj.ne)
    hswapOn (hnew.validate_iff.2 adj.ne.symm) hnewOn (laws.apart_cnot adj.ne.symm hnew) ?_ ?_
  · rw [laws.val_cnot hold, laws.val_cnot hcur, laws.val_becomeSwap adj.ne,
      laws.val_cnot hnew, laws.swap_comm adj.ne, laws.swap_mul_cnot adj.ne.symm]
  · intro q
    have hs : swapped.actsOn q = current.actsOn q := Gate.actsOn_congr hswapOn adj.currentOn q
    have ht : turned.actsOn q = current.actsOn q := Gate.actsOn_congr hnewOn adj.currentOn q
    rw [Lanes.stack_pushAll_qubits, Lanes.stack_pushAll_qubits, adj.stack_popBoth, hs, ht]
    by_cases hq : current.actsOn q = true
    · simp only [hq, if_true]
      rw [List.cons_head?_tail (adj.top q hq)]
    · simp only [hq, Bool.false_eq_true, if_false]

theorem step_spec (laws : PairLaws val) (hvalid : ∀ op ∈ ops, op.validate = .ok ())
    (hk : k < ops.length) (h : Inv val ops k s) :
    ∃ s', step k s = .ok s' ∧ Inv val ops (k + 1) s' := by
  have hplace := h.place_current hvalid hk passName
  rw [step]
  cases hcur : cnotAt? s k with
  | none => exact hplace
  | some e =>
    obtain ⟨current, control, target⟩ := e
    dsimp only
    cases hshared : s.lanes.sharedTop? control target with
    | none => exact hplace
    | some prev =>
      dsimp only
      cases hprev : cnotAt? s prev with
      | none => exact hplace
      | some e' =>
        obtain ⟨earlier, prevControl, prevTarget⟩ := e'
        obtain ⟨hc, hcnot⟩ := cnotAt?_eq_some hcur
        obtain ⟨hp, hpcnot⟩ := cnotAt?_eq_some hprev
        have hne := h.cnot_ne hvalid hc hcnot
        have adj := adjacent_of_sharedTop? h.tidy hc (fun q => hcnot.actsOn_iff) hp
          (fun q => hpcnot.actsOn_iff) hshared hne
        have hpairs := h.tidy.same_pair hp (fun q => hpcnot.actsOn_iff)
          (Lanes.top?_of_sharedTop? hshared).1 (Lanes.top?_of_sharedTop? hshared).2 hne
        dsimp only
        split
        · next heq =>
          obtain ⟨rfl, rfl⟩ := heq
          refine ⟨_, rfl, adj.drop h laws (laws.apart_cnot hne hcnot) ?_⟩
          rw [laws.val_cnot hpcnot, laws.val_cnot hcnot, laws.cnot_cnot hne]
        · next hdiff =>
          obtain ⟨rfl, rfl⟩ := hpairs.resolve_left hdiff
          exact ⟨_, rfl, reverse_spec laws adj h hcnot hpcnot⟩

end SwapReconstruction

/-! ## CNOT cancellation -/

namespace CnotCancellation

/-- The gate is the given one up to parameters. -/
def Realizes (g : Gate) : PairGate → Prop
  | .cnot target control => g.IsCnot control target
  | .swap a b => g.IsSwap a b

theorem Realizes.actsOn_iff {g : Gate} {p : PairGate} (h : Realizes g p) (q : Qubit) :
    g.actsOn q = true ↔ q = p.first ∨ q = p.second := by
  cases p with
  | cnot target control => exact (Gate.IsCnot.actsOn_iff h).trans or_comm
  | swap a b => exact Gate.IsSwap.actsOn_iff h

theorem Realizes.ne {g : Gate} {p : PairGate} (hg : Realizes g p) (h : Inv val ops k s)
    (hvalid : ∀ op ∈ ops, op.validate = .ok ()) (hi : s.ops[i]? = some (.gate g)) :
    p.first ≠ p.second := by
  cases p with
  | cnot target control => exact (h.cnot_ne hvalid hi hg).symm
  | swap a b => exact h.swap_ne hvalid hi hg

theorem Realizes.apart {g : Gate} {p : PairGate} (hg : Realizes g p) (laws : PairLaws val)
    (hne : p.first ≠ p.second) : CommutesApart val (.gate g) := by
  cases p with
  | cnot target control => exact laws.apart_cnot hne.symm hg
  | swap a b => exact laws.apart_swap hne hg

theorem realizes_of_pairGate? {g : Gate} {p : PairGate} (h : pairGate? g = some p) :
    Realizes g p := by
  rw [pairGate?] at h
  split at h
  · next control target hoperands =>
    cases Option.some.inj h
    exact Gate.isCnot_of_operands hoperands
  · split at h
    · next hswap =>
      split at h
      · next a b htargets =>
        cases Option.some.inj h
        exact Gate.isSwap_of_targets hswap htargets
      · cases h
    · cases h

theorem pairGateAt?_eq_some {g : Gate} {p : PairGate} (h : pairGateAt? s i = some (g, p)) :
    s.ops[i]? = some (.gate g) ∧ Realizes g p := by
  rw [pairGateAt?] at h
  split at h
  · next g' hg' =>
    obtain ⟨p', hp', heq⟩ := Option.map_eq_some_iff.1 h
    cases heq
    exact ⟨hg', realizes_of_pairGate? hp'⟩
  · cases h

theorem thirdCnot?_eq_some {g : Gate} {target control : Qubit}
    (h : thirdCnot? s target control = some (i, g)) :
    s.lanes.sharedSecond? target control = some i ∧ s.ops[i]? = some (.gate g) ∧
      g.IsCnot control target := by
  rw [thirdCnot?] at h
  split at h
  · cases h
  · next slot hslot =>
    split at h
    · next g' p hp =>
      split at h
      · next heq =>
        obtain ⟨rfl, rfl⟩ := Prod.mk.inj (Option.some.inj h)
        obtain ⟨hg, hreal⟩ := pairGateAt?_eq_some hp
        rw [heq] at hreal
        exact ⟨hslot, hg, hreal⟩
      · cases h
    · cases h

theorem val_of_swap (laws : PairLaws val) (hne : a ≠ b) {g : Gate} (hg : g.IsSwap u v)
    (hpairs : (u = a ∧ v = b) ∨ (u = b ∧ v = a)) : val (.gate g) = val (.gate (.swap a b)) := by
  rcases hpairs with ⟨rfl, rfl⟩ | ⟨rfl, rfl⟩
  · exact laws.val_swap hg
  · exact (laws.val_swap hg).trans (laws.swap_comm hne.symm)

/-- Three alternating CNOTs become a SWAP. -/
theorem collapse_third (laws : PairLaws val) (h : Inv val ops k s) {prev first : Nat}
    {current earlier g : Gate} {target control : Qubit}
    (adj : Adjacent s k prev earlier current target control)
    (hcur : current.IsCnot control target) (hold : earlier.IsCnot target control)
    (hthird : thirdCnot? s target control = some (first, g)) :
    Inv val ops (k + 1)
      (cancel (s.set first (.gate (g.becomeSwap target control))) prev k target control) := by
  obtain ⟨hshared, hg, hgcnot⟩ := thirdCnot?_eq_some hthird
  obtain ⟨hsecond, hsecond'⟩ := Lanes.second?_of_sharedSecond? hshared
  have hgOn : ∀ q, g.actsOn q = true ↔ q = target ∨ q = control :=
    fun q => hgcnot.actsOn_iff.trans or_comm
  refine h.collapse laws.one adj.atSlot (laws.apart_cnot adj.ne.symm hcur) adj.some_qubit adj.top
    adj.atPrev (Gate.actsOn_congr adj.earlierOn adj.currentOn) hg
    (Gate.actsOn_congr hgOn adj.currentOn) (Gate.validate_becomeSwap adj.ne)
    (Gate.actsOn_congr (fun q => Gate.actsOn_becomeSwap q) adj.currentOn)
    (laws.apart_cnot adj.ne hold) ?_ ?_ adj.stack_popBoth
  · intro q hq
    refine Lanes.stack_eq_of_second? (adj.top q hq) ?_
    rcases (adj.currentOn q).1 hq with rfl | rfl
    · exact hsecond
    · exact hsecond'
  · rw [laws.val_cnot hgcnot, laws.val_cnot hold, laws.val_cnot hcur,
      laws.val_becomeSwap adj.ne, laws.swap_comm adj.ne, ← mul_assoc,
      laws.cnot_three adj.ne.symm]

theorem rewritePair_spec (laws : PairLaws val) (h : Inv val ops k s) {prev : Nat}
    {current earlier : Gate} {now before : PairGate}
    (adj : Adjacent s k prev earlier current now.first now.second)
    (hplace : ∃ s', s.place passName k = .ok s' ∧ Inv val ops (k + 1) s')
    (hnow : Realizes current now) (hbefore : Realizes earlier before)
    (hpairs : (before.first = now.first ∧ before.second = now.second) ∨
      (before.first = now.second ∧ before.second = now.first)) :
    ∃ s', rewritePair s prev k earlier current before now = .ok s' ∧
      Inv val ops (k + 1) s' := by
  have hcomm := hnow.apart laws adj.ne
  cases now with
  | cnot target control =>
    have hne : target ≠ control := adj.ne
    have hcur : current.IsCnot control target := hnow
    cases before with
    | cnot t c =>
      rw [rewritePair]
      split
      · next heq =>
        obtain ⟨rfl, rfl⟩ := heq
        refine ⟨_, rfl, adj.drop h laws hcomm ?_⟩
        rw [laws.val_cnot hbefore, laws.val_cnot hnow, laws.cnot_cnot hne.symm]
      · next hdiff =>
        obtain ⟨rfl, rfl⟩ : t = control ∧ c = target := hpairs.resolve_left hdiff
        cases hthird : thirdCnot? s c t with
        | none => exact hplace
        | some e =>
          obtain ⟨first, g⟩ := e
          exact ⟨_, rfl, collapse_third laws h adj hcur hbefore hthird⟩
    | swap a b =>
      have hnew := earlier.isCnot_becomeCnot control target
      have hnew' := current.isCnot_becomeCnot target control
      refine ⟨_, rfl, adj.rewrite_put h laws hcomm (hnew.validate_iff.2 hne.symm)
        (fun q => hnew.actsOn_iff.trans or_comm) (hnew'.validate_iff.2 hne)
        (fun q => hnew'.actsOn_iff) (laws.apart_cnot hne hnew') ?_⟩
      rw [val_of_swap laws hne hbefore hpairs, laws.val_cnot hcur, laws.val_cnot hnew,
        laws.val_cnot hnew', laws.swap_comm hne]
      exact laws.swap_mul_cnot hne.symm
  | swap a b =>
    have hne : a ≠ b := adj.ne
    cases before with
    | cnot t c =>
      have hnew := earlier.isCnot_becomeCnot t c
      have hnew' := current.isCnot_becomeCnot c t
      have htc : t ≠ c := by
        rcases hpairs with ⟨ht, hc⟩ | ⟨ht, hc⟩
        · exact fun heq => hne (ht.symm.trans (heq.trans hc))
        · exact fun heq => hne (hc.symm.trans (heq.symm.trans ht))
      have hon : ∀ q, q = t ∨ q = c ↔ q = a ∨ q = b := by
        intro q
        rcases hpairs with ⟨ht, hc⟩ | ⟨ht, hc⟩
        · rw [show t = a from ht, show c = b from hc]
        · rw [show t = b from ht, show c = a from hc, or_comm]
      refine ⟨_, rfl, adj.rewrite_put h laws hcomm (hnew.validate_iff.2 htc)
        (fun q => hnew.actsOn_iff.trans (hon q)) (hnew'.validate_iff.2 htc.symm)
        (fun q => hnew'.actsOn_iff.trans (or_comm.trans (hon q)))
        (laws.apart_cnot htc.symm hnew') ?_⟩
      have hswap : val (.gate current) = val (.gate (.swap c t)) := by
        rcases hpairs with ⟨ht, hc⟩ | ⟨ht, hc⟩
        · rw [laws.val_swap hnow, laws.swap_comm hne, show t = a from ht, show c = b from hc]
        · rw [laws.val_swap hnow, show t = b from ht, show c = a from hc]
      rw [hswap, laws.val_cnot hbefore, laws.val_cnot hnew, laws.val_cnot hnew']
      exact laws.cnot_mul_swap htc.symm
    | swap a' b' =>
      refine ⟨_, rfl, adj.drop h laws hcomm ?_⟩
      rw [val_of_swap laws hne hbefore hpairs, laws.val_swap hnow]
      exact laws.swap_mul_swap hne

theorem step_spec (laws : PairLaws val) (hvalid : ∀ op ∈ ops, op.validate = .ok ())
    (hk : k < ops.length) (h : Inv val ops k s) :
    ∃ s', step k s = .ok s' ∧ Inv val ops (k + 1) s' := by
  have hplace := h.place_current hvalid hk passName
  rw [step]
  cases hcur : pairGateAt? s k with
  | none => exact hplace
  | some e =>
    obtain ⟨current, now⟩ := e
    dsimp only
    cases hshared : s.lanes.sharedTop? now.first now.second with
    | none => exact hplace
    | some prev =>
      dsimp only
      cases hprev : pairGateAt? s prev with
      | none => exact hplace
      | some e' =>
        obtain ⟨earlier, before⟩ := e'
        obtain ⟨hc, hnow⟩ := pairGateAt?_eq_some hcur
        obtain ⟨hp, hbefore⟩ := pairGateAt?_eq_some hprev
        have hne := hnow.ne h hvalid hc
        have hpairs := h.tidy.same_pair hp hbefore.actsOn_iff
          (Lanes.top?_of_sharedTop? hshared).1 (Lanes.top?_of_sharedTop? hshared).2 hne
        exact rewritePair_spec laws h (adjacent_of_sharedTop? h.tidy hc hnow.actsOn_iff hp
          hbefore.actsOn_iff hshared hne) hplace hnow hbefore hpairs

end CnotCancellation

end QuantumCircuit
