import QuantumCircuit.Proofs.PairReduction.Settled

/-! Cancelling CNOTs leaves nothing to cancel. A circuit of single operations without SWAPs
comes out with no two gates in a row on a pair of qubits that a rule fits, and no three
alternating CNOTs; a second sweep changes nothing. -/
namespace QuantumCircuit
open Operation Sweep

/-- No rule for CNOTs and SWAPs in a row on one pair of qubits fits. -/
structure PairReduced (ops : List Operation) : Prop where
  cnot : ∀ {p g : Gate} {a b : Qubit}, g.IsCnot a b → InRow a b [.gate p, .gate g] ops →
    ¬ p.IsCnot a b ∧ ¬ p.IsSwap a b ∧ ¬ p.IsSwap b a
  swap : ∀ {p g : Gate} {a b : Qubit}, g.IsSwap a b → InRow a b [.gate p, .gate g] ops →
    ¬ p.IsCnot a b ∧ ¬ p.IsCnot b a ∧ ¬ p.IsSwap a b ∧ ¬ p.IsSwap b a
  three : ∀ {f p g : Gate} {a b : Qubit}, f.IsCnot a b → p.IsCnot b a → g.IsCnot a b →
    ¬ InRow a b [.gate f, .gate p, .gate g] ops

/-- The operation counts on both lanes of a pair. -/
structure Spans (a b : Qubit) (op : Operation) : Prop where
  counts : op.isIdentity = false
  left : op.actsOn a = true
  right : op.actsOn b = true

variable {ops : List Operation} {s : Sweep} {k i j : Nat} {a b : Qubit} {op : Operation}

theorem Spans.symm (h : Spans a b op) : Spans b a op := ⟨h.counts, h.right, h.left⟩

theorem Gate.IsCnot.spans {g : Gate} (h : g.IsCnot a b) : Spans a b (.gate g) := by
  refine ⟨?_, h.actsOn_iff.2 (.inl rfl), h.actsOn_iff.2 (.inr rfl)⟩
  rw [h]
  rfl

theorem Gate.IsSwap.spans {g : Gate} (h : g.IsSwap a b) : Spans a b (.gate g) := by
  refine ⟨?_, h.actsOn_iff.2 (.inl rfl), h.actsOn_iff.2 (.inr rfl)⟩
  rw [h]
  rfl

namespace CnotCancellation

theorem Realizes.validate_iff {g : Gate} {p : PairGate} (h : Realizes g p) :
    g.validate = .ok () ↔ p.first ≠ p.second := by
  cases p with
  | cnot target control => exact (Gate.IsCnot.validate_iff h).trans ne_comm
  | swap a b => exact Gate.IsSwap.validate_iff h

/-! ## What is left is reduced -/

namespace Settled

/-- Two operations in a row among those that are left stand one above the other. -/
theorem covers (h : Settled s) (htidy : Tidy s.ops.length s) {x y : Operation} (hne : a ≠ b)
    (hj : s.ops[j]? = some x) (hx : Spans a b x) (hi : s.ops[i]? = some y) (hy : Spans a b y)
    (hji : j < i) (hmid : ∀ m op, j + 1 ≤ m → m < i → s.ops[m]? = some op →
      (!op.isIdentity) = false ∨ ApartFrom a b op) : Covers s.lanes a b i j := by
  have hilt := (List.getElem?_eq_some_iff.1 hi).1
  have habove : ∀ {q : Qubit}, x.actsOn q = true → y.actsOn q = true →
      (∀ op, ApartFrom a b op → op.actsOn q = false) → s.lanes.Above q i j := by
    intro q hxq hyq hapart
    refine Lanes.above_of_mem (htidy.sorted q) ?_ ?_ hji ?_
    · exact (htidy.listed hilt hi hyq).resolve_right (by simp [hy.counts])
    · exact (htidy.listed (by omega) hj hxq).resolve_right (by simp [hx.counts])
    · rintro m hm ⟨hjm, hmi⟩
      obtain ⟨op, hop, hacts, hid⟩ := h.live hm
      rcases hmid m op hjm hmi hop with hid' | hop'
      · simp [hid] at hid'
      · rw [hapart op hop'] at hacts
        cases hacts
  exact ⟨hne, habove hx.left hy.left fun op hop => hop.1,
    habove hx.right hy.right fun op hop => hop.2⟩

/-- Of two gates in a row on a pair the later one is the reversed CNOT. -/
theorem reversed (h : Settled s) (htidy : Tidy s.ops.length s) (hne : a ≠ b) {p g : Gate}
    {x y : PairGate} (hp : Realizes p y) (hpon : Spans a b (.gate p)) (hg : Realizes g x)
    (hgon : Spans a b (.gate g)) (hrow : InRow a b [.gate p, .gate g] (stripAll s.ops)) :
    ∃ t c, x = .cnot t c ∧ y = .cnot c t := by
  rw [stripAll_eq_filter h.flat] at hrow
  obtain ⟨n, hled⟩ := hrow.of_filter
  obtain ⟨j, -, hj, -, hrest⟩ := led_drop_iff.1 hled
  obtain ⟨i, hji, hi, hmid, -⟩ := led_drop_iff.1 hrest
  exact h.pair (h.covers htidy hne hj hpon hi hgon hji hmid) (pairGateAt?_of_realizes hi hg)
    (pairGateAt?_of_realizes hj hp)

theorem pairReduced (h : Settled s) (inv : Inv action ops s.ops.length s)
    (hvalid : ∀ op ∈ ops, op.validate = .ok ()) : PairReduced (stripAll s.ops) := by
  have hslot : ∀ {op : Operation}, op ∈ stripAll s.ops → ∃ i : Nat, s.ops[i]? = some op := by
    intro op hop
    rw [stripAll_eq_filter h.flat] at hop
    exact List.mem_iff_getElem?.1 (List.mem_filter.1 hop).1
  refine ⟨?_, ?_, ?_⟩
  · intro p g a b hg hrow
    obtain ⟨i, hi⟩ := hslot (hrow.mem (.gate g) (by simp))
    have hne := inv.cnot_ne hvalid hi hg
    refine ⟨fun hp => ?_, fun hp => ?_, fun hp => ?_⟩
    · obtain ⟨t, c, hx, hy⟩ := h.reversed inv.tidy hne (y := .cnot b a) hp hp.spans
        (x := .cnot b a) hg hg.spans hrow
      cases hx
      cases hy
      exact hne rfl
    · obtain ⟨t, c, -, hy⟩ := h.reversed inv.tidy hne (y := .swap a b) hp hp.spans
        (x := .cnot b a) hg hg.spans hrow
      cases hy
    · obtain ⟨t, c, -, hy⟩ := h.reversed inv.tidy hne (y := .swap b a) hp hp.spans.symm
        (x := .cnot b a) hg hg.spans hrow
      cases hy
  · intro p g a b hg hrow
    obtain ⟨i, hi⟩ := hslot (hrow.mem (.gate g) (by simp))
    have hne := inv.swap_ne hvalid hi hg
    -- a SWAP is never the later one of two gates in a row
    have hno : ∀ {y : PairGate}, Realizes p y → ¬ Spans a b (.gate p) := by
      intro y hp hpon
      obtain ⟨t, c, hx, -⟩ := h.reversed inv.tidy hne hp hpon (x := .swap a b) hg hg.spans hrow
      cases hx
    exact ⟨fun hp => hno (y := .cnot b a) hp hp.spans,
      fun hp => hno (y := .cnot a b) hp hp.spans.symm,
      fun hp => hno (y := .swap a b) hp hp.spans,
      fun hp => hno (y := .swap b a) hp hp.spans.symm⟩
  · intro f p g a b hf hp hg hrow
    obtain ⟨i, hi⟩ := hslot (hrow.mem (.gate g) (by simp))
    have hne := inv.cnot_ne hvalid hi hg
    rw [stripAll_eq_filter h.flat] at hrow
    obtain ⟨n, hled⟩ := hrow.of_filter
    obtain ⟨m, -, hm, -, hrest⟩ := led_drop_iff.1 hled
    obtain ⟨j, hmj, hj, hmid, hrest⟩ := led_drop_iff.1 hrest
    obtain ⟨i, hji, hi, hmid', -⟩ := led_drop_iff.1 hrest
    have hnone := h.three (h.covers inv.tidy hne hj hp.spans.symm hi hg.spans hji hmid')
      (h.covers inv.tidy hne hm hf.spans hj hp.spans.symm hmj hmid)
      (pairGateAt?_of_realizes hi (p := .cnot b a) hg)
      (pairGateAt?_of_realizes hj (p := .cnot a b) hp)
    rw [pairGateAt?_of_realizes hm (p := .cnot b a) hf] at hnone
    cases hnone

/-- What is left passes the check. -/
theorem valid_of_mem (h : Settled s) (inv : Inv action ops s.ops.length s)
    (hvalid : ∀ op ∈ ops, op.validate = .ok ()) (hop : op ∈ stripAll s.ops) :
    op.isCompound = false ∧ op.isIdentity = false ∧ op.validate = .ok () := by
  rw [stripAll_eq_filter h.flat, List.mem_filter] at hop
  have hid : op.isIdentity = false := by simpa using hop.2
  have hflat := h.flat op hop.1
  refine ⟨hflat, hid, ?_⟩
  have hleaf : op ∈ leavesOfAll s.ops :=
    mem_leavesOfAll.2 ⟨op, hop.1, by rw [leaves_eq_self hflat]; exact List.mem_singleton_self op⟩
  rcases (inv.leaf op hleaf).cases hid with hold | ⟨g, rfl, hg, -⟩
  · obtain ⟨o, ho, hmem⟩ := mem_leavesOfAll.1 hold
    exact validate_iff_leaves.1 (hvalid o ho) op hmem
  · exact hg

end Settled

/-! ## A reduced circuit is left alone -/

/-- No rule fits a gate of a reduced circuit. -/
theorem free_of_reduced (h : PairReduced s.ops) (htidy : Tidy k s)
    (hvalid : ∀ op ∈ s.ops, op.validate = .ok ()) (hid : ∀ op ∈ s.ops, op.isIdentity = false) :
    Free k s := by
  intro current earlier now before prev hcur hshared hprev
  obtain ⟨hc, hnow⟩ := pairGateAt?_eq_some hcur
  obtain ⟨hp, hbefore⟩ := pairGateAt?_eq_some hprev
  obtain ⟨htop, htop'⟩ := Lanes.top?_of_sharedTop? hshared
  have hne := hnow.validate_iff.1 (hvalid _ (List.mem_of_getElem? hc))
  have hpairs := htidy.same_pair hp hbefore.actsOn_iff htop htop' hne
  have hlt := htidy.lt_of_top htop
  -- between the two gates nothing acts on the pair
  have hled : ∀ {a b : Qubit}, s.lanes.top? a = some prev → s.lanes.top? b = some prev →
      Led (ApartFrom a b) [.gate current] (s.ops.drop (prev + 1)) := by
    intro a b ha hb
    refine led_drop_iff.2 ⟨k, hlt, hc, ?_, trivial⟩
    intro m op hm hmk hop
    have hop' := hid op (List.mem_of_getElem? hop)
    exact ⟨(htidy.behind_top ha hm hmk hop).resolve_left (by simp [hop']),
      (htidy.behind_top hb hm hmk hop).resolve_left (by simp [hop'])⟩
  have hrow : ∀ {a b : Qubit}, s.lanes.top? a = some prev → s.lanes.top? b = some prev →
      InRow a b [.gate earlier, .gate current] s.ops :=
    fun ha hb => inRow_iff_drop.2 ⟨prev, led_of_slot hp (hled ha hb)⟩
  cases now with
  | swap a b =>
    obtain ⟨hcnot, hcnot', hswap, hswap'⟩ := h.swap hnow (hrow htop htop')
    cases before with
    | cnot t c =>
      rcases hpairs with ⟨rfl, rfl⟩ | ⟨rfl, rfl⟩
      · exact absurd hbefore hcnot'
      · exact absurd hbefore hcnot
    | swap u v =>
      rcases hpairs with ⟨rfl, rfl⟩ | ⟨rfl, rfl⟩
      · exact absurd hbefore hswap
      · exact absurd hbefore hswap'
  | cnot t c =>
    obtain ⟨hcnot, hswap, hswap'⟩ := h.cnot hnow (hrow htop' htop)
    cases before with
    | swap u v =>
      rcases hpairs with ⟨rfl, rfl⟩ | ⟨rfl, rfl⟩
      · exact absurd hbefore hswap'
      · exact absurd hbefore hswap
    | cnot u v =>
      rcases hpairs with ⟨rfl, rfl⟩ | ⟨rfl, rfl⟩
      · exact absurd hbefore hcnot
      · refine ⟨_, _, hne, rfl, rfl, ?_⟩
        cases hthird : thirdCnot? s v u with
        | none => exact hthird
        | some e =>
          obtain ⟨first, g⟩ := e
          obtain ⟨hshared', hg, hgcnot⟩ := thirdCnot?_eq_some hthird
          obtain ⟨hsecond', hsecond⟩ := Lanes.second?_of_sharedSecond? hshared'
          have habove := Lanes.stack_eq_of_second? htop' hsecond
          have habove' := Lanes.stack_eq_of_second? htop hsecond'
          refine absurd (inRow_iff_drop.2 ⟨first, led_of_slot hg ?_⟩) (h.three hgcnot hbefore hnow)
          refine led_drop_iff.2 ⟨prev, ?_, hp, ?_, hled htop' htop⟩
          · exact (Lanes.above_of_top htop' hsecond).lt (htidy.sorted u)
          · intro m op hm hmp hop
            have hop' := hid op (List.mem_of_getElem? hop)
            obtain ⟨below, hbelow⟩ := habove
            obtain ⟨below', hbelow'⟩ := habove'
            exact ⟨(htidy.between_top hbelow hm hmp hop).resolve_left (by simp [hop']),
              (htidy.between_top hbelow' hm hmp hop).resolve_left (by simp [hop'])⟩

end CnotCancellation

namespace Circuit
variable {c : Circuit}

/-- Nothing is cancelled in a reduced circuit. -/
theorem cancelCnots_of_reduced (h : PairReduced c.ops)
    (hvalid : ∀ op ∈ c.ops, op.validate = .ok ()) (hflat : ∀ op ∈ c.ops, op.isCompound = false)
    (hid : ∀ op ∈ c.ops, op.isIdentity = false) : c.cancelCnots = .done c := by
  have hstep : ∀ k s, k < c.ops.length → Tidy k s ∧ s.ops = c.ops →
      ∃ s', CnotCancellation.step k s = .ok s' ∧ Tidy (k + 1) s' ∧ s'.ops = c.ops := by
    rintro k s hk ⟨htidy, hops⟩
    have hfree : CnotCancellation.Free k s :=
      CnotCancellation.free_of_reduced (hops ▸ h) htidy (hops ▸ hvalid) (hops ▸ hid)
    have hcurrent : s.ops[k]? = some c.ops[k] := by rw [hops, List.getElem?_eq_getElem hk]
    have hcheck := check_of_validate CnotCancellation.passName (hvalid _ (List.getElem_mem hk))
    refine ⟨s.put k, ?_, htidy.put, ?_⟩
    · rw [CnotCancellation.step_of_free hfree, place_eq hcurrent hcheck]
    · rw [put_eq hcurrent, hops]
  obtain ⟨s, hdone, -, hops⟩ := run_of_steps (P := fun k s => Tidy k s ∧ s.ops = c.ops)
    ⟨tidy_start c, rfl⟩ hstep
  have hstrip : stripAll s.ops = c.ops := by
    rw [hops, stripAll_eq_filter hflat, List.filter_eq_self]
    exact fun op hop => by simp [hid op hop]
  rw [hstrip] at hdone
  exact hdone

/-- Cancelling CNOTs is complete on circuits of single operations without SWAPs: what comes out
does the same, no rule fits it, and doing it again changes nothing. -/
theorem cancelCnots_complete (hvalid : ∀ op ∈ c.ops, op.validate = .ok ())
    (hflat : ∀ op ∈ c.ops, op.isCompound = false) (hid : ∀ op ∈ c.ops, op.isIdentity = false)
    (hswap : ∀ g, .gate g ∈ c.ops → g.isSwap = false) :
    ∃ ops, c.cancelCnots = .done { c with ops := ops } ∧
      (∀ st, execAll ops st = execAll c.ops st) ∧ PairReduced ops ∧
      Circuit.cancelCnots { c with ops := ops } = .done { c with ops := ops } := by
  have hstep : ∀ k s, k < c.ops.length → Inv action c.ops k s ∧ CnotCancellation.Settled s →
      ∃ s', CnotCancellation.step k s = .ok s' ∧ Inv action c.ops (k + 1) s' ∧
        CnotCancellation.Settled s' :=
    fun _ _ hk h => CnotCancellation.step_settled hvalid hid hswap hk h.1 h.2
  obtain ⟨s, hdone, inv, hsettled⟩ := run_of_steps
    (P := fun k s => Inv action c.ops k s ∧ CnotCancellation.Settled s)
    ⟨inv_start action c, CnotCancellation.settled_start hflat⟩ hstep
  rw [← inv.length] at inv
  have hreduced := hsettled.pairReduced inv hvalid
  have hleft := fun op (hop : op ∈ stripAll s.ops) => hsettled.valid_of_mem inv hvalid hop
  have hmeaning : meaning action (stripAll s.ops) = meaning action c.ops := by
    rw [meaning_stripAll pairLaws_action.one, inv.meaning]
  exact ⟨stripAll s.ops, hdone, meaning_action_eq_iff.1 hmeaning, hreduced,
    cancelCnots_of_reduced (c := { c with ops := stripAll s.ops }) hreduced
      (fun op hop => (hleft op hop).2.2) (fun op hop => (hleft op hop).1)
      fun op hop => (hleft op hop).2.1⟩

/-- Three alternating CNOTs that become a SWAP, a fourth that takes it apart again, and two on
another pair that cancel, with a measurement and a gate that depends on it in between. -/
def braid : Circuit :=
  { Circuit.withSize "braid" 3 1 with
    ops := [.gate (.cnot ⟨0⟩ ⟨1⟩), .effect ⟨.measure, [⟨2⟩], [⟨0⟩]⟩, .gate (.cnot ⟨1⟩ ⟨0⟩),
      .gate (.cnot ⟨0⟩ ⟨1⟩), .conditional ⟨.single ⟨0⟩, 1⟩ (.gate (.ofKind .x [⟨2⟩])),
      .gate (.cnot ⟨1⟩ ⟨0⟩), .gate (.cnot ⟨1⟩ ⟨2⟩), .gate (.cnot ⟨1⟩ ⟨2⟩)] }

theorem cancelCnots_complete_braid :
    (∀ op ∈ braid.ops, op.validate = .ok ()) ∧ (∀ op ∈ braid.ops, op.isCompound = false) ∧
      (∀ op ∈ braid.ops, op.isIdentity = false) ∧ (∀ g, .gate g ∈ braid.ops → g.isSwap = false) ∧
      ∃ ops, braid.cancelCnots = .done { braid with ops := ops } ∧
        ops = [.gate (.cnot ⟨1⟩ ⟨0⟩), .effect ⟨.measure, [⟨2⟩], [⟨0⟩]⟩,
          .conditional ⟨.single ⟨0⟩, 1⟩ (.gate (.ofKind .x [⟨2⟩])), .gate (.cnot ⟨0⟩ ⟨1⟩)] ∧
        PairReduced ops ∧
        Circuit.cancelCnots { braid with ops := ops } = .done { braid with ops := ops } := by
  have hvalid : ∀ op ∈ braid.ops, op.validate = .ok () := validateAll_eq_ok_iff.1 rfl
  have hflat : ∀ op ∈ braid.ops, op.isCompound = false := by decide
  have hid : ∀ op ∈ braid.ops, op.isIdentity = false := by decide
  have hswap : ∀ g, .gate g ∈ braid.ops → g.isSwap = false := by
    intro g hg
    simp only [braid, List.mem_cons, List.not_mem_nil, gate.injEq, reduceCtorEq, false_or,
      or_false] at hg
    rcases hg with rfl | rfl | rfl | rfl | rfl | rfl <;> rfl
  obtain ⟨ops, hdone, -, hreduced, hagain⟩ := cancelCnots_complete hvalid hflat hid hswap
  have hops : ops = braid.cancelCnots.state.ops := by rw [hdone]; rfl
  refine ⟨hvalid, hflat, hid, hswap, ops, hdone, ?_, hreduced, hagain⟩
  rw [hops]
  rfl

end Circuit
end QuantumCircuit
