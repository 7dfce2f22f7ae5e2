import Mathlib
import QuantumCircuit.Proofs.Diagonal.Removal

/-! Diagonal gates right in front of the measurement at the end of their qubit. Without
compounds such a gate goes unless another lane has given up its lane first. That takes a gate
with a negative control on the qubit, and a lane with a lower number to start from. -/
namespace QuantumCircuit
namespace Diagonal
open Operation

variable {ops : List Operation} {w : Walk} {q : Qubit} {op : Operation} {g : Gate} {s : ℕ}

/-- A diagonal gate on the qubit alone stands right in front of the measurement at its end. -/
def InFront (ops : List Operation) (q : Qubit) (s : ℕ) : Prop :=
  ∃ lane m g, slotsOn q 0 ops = lane ++ [s, m] ∧ (∃ op, ops[m]? = some op ∧ op.isMeasure = true) ∧
    ops[s]? = some (.gate g) ∧ AloneOn q g

/-- A diagonal gate with a negative control on the qubit, also on another qubit that ends in a
measurement. On that one all slots in between go. -/
def Blocks (ops : List Operation) (R : Finset ℕ) (q : Qubit) (n : ℕ) : Prop :=
  ∃ op g, ops[n]? = some op ∧ gateOf? op = some g ∧ g.kind.isDiagonal = true ∧
    .neg q ∈ g.controls ∧ ∃ r m, r ≠ q ∧ g.actsOn r = true ∧ Ends ops r m ∧ n < m ∧
      ∀ j ∈ slotsOn r 0 ops, n < j → j < m → j ∈ R

/-! ## Operations without compounds -/

theorem result_of_rule (hflat : op.isCompound = false) {stage : Stage}
    (h : stage ∈ (rule q op).stages) : stage.result = op.retag .i := by
  have hgate : ∀ g, stage ∈ (gatePlan q op g).stages → stage.result = op.retag .i := by
    intro g hmem
    rw [gatePlan] at hmem
    split at hmem
    · split at hmem
      · cases hmem
      · rw [List.mem_singleton.1 hmem]
    · cases hmem
  cases op with
  | gate g => exact hgate g h
  | effect e => cases h
  | compound children => cases hflat
  | conditional cond body =>
    cases body with
    | gate g => exact hgate g h
    | effect e => cases h
    | compound children => cases h
    | conditional cond' body' => cases h

theorem isCompound_retag (k : Kind) (op : Operation) :
    (op.retag k).isCompound = op.isCompound := by
  cases op <;> rfl

/-- The slots at which only identities are left. -/
def gone (cur : List Operation) : Finset ℕ :=
  (Finset.range cur.length).filter fun j => cur[j]?.any (·.isIdentity)

theorem mem_gone {cur : List Operation} (h : cur[s]? = some op) :
    s ∈ gone cur ↔ op.isIdentity = true := by
  rw [gone, Finset.mem_filter, Finset.mem_range, h, Option.any_some]
  exact and_iff_right (List.getElem?_eq_some_iff.1 h).1

section flat
variable (hflat : ∀ op ∈ ops, op.isCompound = false)
  (hflat' : ∀ op ∈ w.ops, op.isCompound = false)
include hflat hflat'

theorem Swept.mem_gone (h : Swept ops w.ops s) : s ∈ gone w.ops := by
  obtain ⟨op, op', hop, hop', hphase, hmap⟩ := h
  rw [leaves_eq_self (hflat op (List.mem_of_getElem? hop)),
    leaves_eq_self (hflat' op' (List.mem_of_getElem? hop'))] at hmap
  rw [leaves_eq_self (hflat op (List.mem_of_getElem? hop))] at hphase
  cases hmap
  exact (Diagonal.mem_gone hop').2 (isIdentity_retag (hphase op (List.mem_singleton_self op)))

/-- What has not become an identity is as it was. -/
theorem Inv.stripAll_eq (h : Inv ops w) : stripAll w.ops =
    (ops.zipIdx.filter fun p => p.2 ∉ gone w.ops ∧ p.1.isIdentity = false).map (·.1) := by
  rw [stripAll_eq_filter hflat', filter_eq_of_same h.length]
  intro j op op' hop hop'
  rw [Nat.zero_add, mem_gone hop']
  by_cases hid : op'.isIdentity = true
  · exact .inl ⟨hid, hid⟩
  · obtain ⟨removed, hsweep, hremoved⟩ := h.swept hop hop'
    have hfades := hsweep.forall₂_fades fun a ha => (hremoved a ha).1
    rw [leaves_eq_self (hflat op (List.mem_of_getElem? hop)),
      leaves_eq_self (hflat' op' (List.mem_of_getElem? hop'))] at hfades
    exact .inr ⟨hid, (List.forall₂_cons.1 hfades).1.resolve_right hid⟩

end flat

/-! ## Lanes that have been given up -/

theorem InFront.ends (h : InFront ops q s) : ∃ m, Ends ops q m ∧ s < m ∧
    ∀ j ∈ slotsOn q 0 ops, j < s ∨ j = s ∨ j = m := by
  obtain ⟨lane, m, g, hlane, hmeasure, -, -⟩ := h
  have hsorted := sorted_slotsOn q 0 ops
  rw [hlane, List.pairwise_append] at hsorted
  obtain ⟨-, hlast, hbefore⟩ := hsorted
  refine ⟨m, ⟨?_, hmeasure⟩, (List.pairwise_cons.1 hlast).1 m (List.mem_singleton_self m),
    fun j hj => ?_⟩
  · rw [hlane, List.append_cons, List.getLast?_concat]
  · rw [hlane] at hj
    rcases List.mem_append.1 hj with hj | hj
    · exact .inl (hbefore j hj s List.mem_cons_self)
    · exact .inr (by simpa using hj)

/-- At the end of the walk the gate has been swept, or its lane was given up from another. -/
theorem Inv.swept_or_halted (h : Inv ops w) (hend : w.lanes.stack q = [])
    (hfront : InFront ops q s) : Swept ops w.ops s ∨ Halted ops w.ops q := by
  obtain ⟨m, hends, hlt, hcases⟩ := hfront.ends
  obtain ⟨lane, _, g, hlane, -, hgate, hlone⟩ := hfront
  have hon : s ∈ slotsOn q 0 ops := by
    rw [hlane]
    simp
  have hswept : Done ops w.ops q s → Swept ops w.ops s :=
    fun hdone => hdone hon (hends.ne_getLast? hlt)
  rcases h.clean.lane q with hdone | ⟨-, hgave⟩
  · refine .inl (hswept (hdone s ?_))
    rw [hend]
    exact List.not_mem_nil
  · cases hgave with
    | unmeasured hnone => exact absurd hends (hnone m)
    | @stuck b listed stuck behind =>
      obtain ⟨hb, m', hends', hbm⟩ := listed
      cases hends.1.symm.trans hends'.1
      rcases hcases b hb with hbs | rfl | rfl
      · exact .inl (hswept (behind s hbs))
      · exact absurd hlone (stuck g hgate)
      · exact absurd hbm (Nat.lt_irrefl _)
    | halted hhalted => exact .inr hhalted

/-- The gate that gave up the lane stands in front. -/
theorem InFront.blocks (hfront : InFront ops q s) {cur : List Operation}
    (h : Halted ops cur q) {R : Finset ℕ} (hR : ∀ j, Swept ops cur j → j ∈ R) :
    ∃ n, n < s ∧ Blocks ops R q n := by
  obtain ⟨n, op, g, hop, hg, hdiag, hneg, r, hr, hacts, m, hends, hlt, hswept⟩ := h
  refine ⟨n, ?_, op, g, hop, hg, hdiag, hneg, r, m, hr, hacts, hends, hlt,
    fun j hj hnj hjm => hR j (hswept j hj hnj hjm)⟩
  have hon : n ∈ slotsOn q 0 ops := by
    refine mem_slotsOn.2 ⟨op, hop, ?_⟩
    rw [actsOn_of_gateOf? hg, ← Gate.mem_operands]
    exact List.mem_append_left _ (List.mem_map_of_mem hneg)
  obtain ⟨m', ⟨-, o, ho, hmeasure⟩, -, hcases⟩ := hfront.ends
  obtain ⟨-, -, g', -, -, hgate, -, hnone, -⟩ := hfront
  rcases hcases n hon with hns | rfl | rfl
  · exact hns
  · cases hop.symm.trans hgate
    cases hg
    rw [hnone] at hneg
    exact absurd hneg OrderedSet.not_mem_empty
  · cases hop.symm.trans ho
    rcases gateOf?_eq_some_iff.1 hg with rfl | ⟨cond, rfl⟩ <;> cases hmeasure

/-! ## The lane that is walked first -/

theorem rule_of_aloneOn (h : AloneOn q g) : rule q (.gate g) =
    { stages := [⟨[], .gate { g with kind := .i }⟩], advance := some [] } := by
  obtain ⟨hdiag, hnone, htargets⟩ := h
  have hothers : ((OrderedSet.ofList g.operands).erase q).toList = [] := by
    refine List.eq_nil_iff_forall_not_mem.2 fun r hr => ?_
    obtain ⟨hr, hne⟩ := OrderedSet.mem_erase.1 (OrderedSet.mem_toList.1 hr)
    rw [OrderedSet.mem_ofList, Gate.operands, hnone, htargets] at hr
    exact hne (List.mem_singleton.1 hr)
  have hfind : g.controls.toList.find? (!·.isPositive) = none := by
    rw [hnone]
    rfl
  show gatePlan q (.gate g) g = _
  rw [gatePlan, if_pos hdiag, hfind]
  show removeTogether q _ _ = _
  rw [removeTogether, hothers]
  rfl

/-- The first lane that is walked begins with what stands at its end, and what has become an
identity stays one. -/
theorem run_of_first (hbefore : ∀ p : Qubit, p.index < q.index → w.lanes.stack p = [])
    (htop : w.lanes.top? q = some s) (hop : w.ops[s]? = some (.gate g)) (hlone : AloneOn q g) :
    ∀ op, (Walk.run rule w).ops[s]? = some op → op = .gate { g with kind := .i } := by
  let P : ℕ → Operation → Prop := fun j op => j = s → op = .gate { g with kind := .i }
  have hrule : ∀ q j op, P j op → ∀ stage ∈ (rule q op).stages, P j stage.result := by
    intro q j op hP stage hstage hj
    have hsame := hP hj
    subst hsame
    exact result_of_rule rfl hstage
  have hcount : q.index < w.lanes.count := by
    by_contra hge
    rw [Lanes.top?, Lanes.stack, List.getElem?_eq_none (Nat.le_of_not_lt hge)] at htop
    cases htop
  obtain ⟨before, after, hsplit⟩ := List.append_of_mem (List.mem_range.2 hcount)
  have hsorted := List.pairwise_lt_range (n := w.lanes.count)
  rw [hsplit, List.pairwise_append] at hsorted
  have hidle : ∀ i ∈ before, w.lanes.stack ⟨i⟩ = [] :=
    fun i hi => hbefore ⟨i⟩ (hsorted.2.2 i hi q.index List.mem_cons_self)
  have hfirst : Walk.Everywhere P ⟨w.ops.set s (.gate { g with kind := .i }), w.lanes.pop q⟩ := by
    intro j op hj hjs
    rcases getElem?_set_cases hj with ⟨-, rfl⟩ | ⟨hne, -⟩
    · rfl
    · exact absurd hjs.symm hne
  have hrun : Walk.Everywhere P (Walk.run rule w) := by
    rw [Walk.run, hsplit, List.foldl_append, Walk.foldl_drive_of_stack_nil hidle, List.foldl_cons,
      Walk.drive_of_alone htop rfl hop (rule_of_aloneOn hlone)]
    exact Walk.everywhere_foldl hrule (Walk.everywhere_drive hrule none q hfirst)
  exact fun op hop => hrun s op hop rfl

theorem InFront.top {c : Circuit} {pass : String} {lanes : Lanes}
    (h : Lanes.build c pass = .ok lanes) (hfront : InFront c.ops q s) :
    Lanes.top? ⟨lanes.rows.map (start c.ops)⟩ q = some s := by
  obtain ⟨lane, m, g, hlane, ⟨op, hop, hmeasure⟩, -, -⟩ := hfront
  rw [Lanes.top?, stack_start h, hlane, List.reverse_append, List.reverse_cons]
  show (start c.ops (m :: s :: lane.reverse)).head? = some s
  rw [start, hop, Option.map_some, Option.getD_some, if_pos hmeasure, List.head?_cons]

/-- A lane whose gate in front of the measurement is not swept is not the first. -/
theorem InFront.exists_lower {c : Circuit} {pass : String} {lanes : Lanes}
    (h : Lanes.build c pass = .ok lanes) (hfront : InFront c.ops q s) {op : Operation}
    (hop : (Walk.run rule ⟨c.ops, ⟨lanes.rows.map (start c.ops)⟩⟩).ops[s]? = some op)
    (hid : op.isIdentity = false) : ∃ p m, p.index < q.index ∧ Ends c.ops p m := by
  by_contra hnone
  have htop := hfront.top h
  obtain ⟨-, -, g, -, -, hgate, hlone⟩ := hfront
  have hswept := run_of_first (fun p hp => ?_) htop hgate hlone op hop
  · rw [hswept] at hid
    cases hid
  · refine List.eq_nil_iff_forall_not_mem.2 fun j hj => hnone ?_
    obtain ⟨⟨-, m, hends, -⟩, -⟩ := (inv_start h).clean.listed hj
    exact ⟨p, m, hp, hends⟩

end Diagonal

namespace Circuit
open Operation Diagonal

/-- Without compounds a diagonal gate right in front of the measurement at the end of its
qubit goes, unless a diagonal gate in front of it has a negative control on the qubit and is
met from another lane first: some qubit with a lower number ends in a measurement too. -/
theorem removeDiagonalGates_inFront {c out : Circuit}
    (hflat : ∀ op ∈ c.ops, op.isCompound = false) (hvalid : ∀ op ∈ c.ops, op.validate = .ok ())
    (h : c.removeDiagonalGates = .done out) :
    ∃ R : Finset ℕ,
      out.ops = (c.ops.zipIdx.filter fun p => p.2 ∉ R ∧ p.1.isIdentity = false).map (·.1) ∧
      ∀ q s, InFront c.ops q s → s ∉ R →
        (∃ n, n < s ∧ Blocks c.ops R q n) ∧ ∃ p m, p.index < q.index ∧ Ends c.ops p m := by
  obtain ⟨lanes, hlanes, hout⟩ := run_of_removeDiagonalGates h
  have hinv := inv_run hvalid (inv_start hlanes)
  have hend := Walk.stack_run rule ⟨c.ops, ⟨lanes.rows.map (start c.ops)⟩⟩
  have hlower : ∀ q s op, InFront c.ops q s →
      (Walk.run rule ⟨c.ops, ⟨lanes.rows.map (start c.ops)⟩⟩).ops[s]? = some op →
      op.isIdentity = false → ∃ p m, p.index < q.index ∧ Ends c.ops p m :=
    fun _ _ _ hfront => hfront.exists_lower hlanes
  have hflat' : ∀ op ∈ (Walk.run rule ⟨c.ops, ⟨lanes.rows.map (start c.ops)⟩⟩).ops,
      op.isCompound = false := by
    refine Walk.forall_run (fun q op hop stage hstage => ?_) hflat
    rw [result_of_rule hop hstage, isCompound_retag, hop]
  generalize Walk.run rule ⟨c.ops, ⟨lanes.rows.map (start c.ops)⟩⟩ = w
    at hout hinv hend hlower hflat'
  refine ⟨gone w.ops, hout.trans (hinv.stripAll_eq hflat hflat'), fun q s hfront hs => ⟨?_, ?_⟩⟩
  · have hswept : ∀ j, Swept c.ops w.ops j → j ∈ gone w.ops := fun _ hj => hj.mem_gone hflat hflat'
    exact hfront.blocks ((hinv.swept_or_halted (hend q) hfront).resolve_left fun hj =>
      hs (hswept s hj)) hswept
  · obtain ⟨-, -, g, -, -, hgate, -⟩ := id hfront
    have hlt : s < w.ops.length := by
      rw [hinv.length]
      exact (List.getElem?_eq_some_iff.1 hgate).1
    have hop := List.getElem?_eq_getElem hlt
    exact hlower q s _ hfront hop (Bool.eq_false_iff.2 fun hid => hs ((mem_gone hop).2 hid))

/-- Qubit 0 is measured after a diagonal gate, and controls a gate on qubit 1 negatively
before. -/
def negativeFromBelow : Circuit :=
  { withSize "negativeFromBelow" 2 2 with
    ops := [.gate { Gate.ofKind .z [⟨1⟩] with controls := .ofList [.neg ⟨0⟩] },
      .gate (.ofKind .t [⟨0⟩]),
      .effect { kind := .measure, targets := [⟨0⟩], clbits := [⟨0⟩] },
      .effect { kind := .measure, targets := [⟨1⟩], clbits := [⟨1⟩] }] }

theorem removeDiagonalGates_inFront_negativeFromBelow :
    ∃ (out : Circuit) (R : Finset ℕ), negativeFromBelow.removeDiagonalGates = .done out ∧
      InFront negativeFromBelow.ops ⟨0⟩ 1 ∧ 1 ∈ R ∧
      out.ops = (negativeFromBelow.ops.zipIdx.filter fun p =>
        p.2 ∉ R ∧ p.1.isIdentity = false).map (·.1) := by
  have hdone : negativeFromBelow.removeDiagonalGates = .done { negativeFromBelow with
      ops := [.gate { Gate.ofKind .z [⟨1⟩] with controls := .ofList [.neg ⟨0⟩] },
        .effect { kind := .measure, targets := [⟨0⟩], clbits := [⟨0⟩] },
        .effect { kind := .measure, targets := [⟨1⟩], clbits := [⟨1⟩] }] } := by
    cbv
  have hfront : InFront negativeFromBelow.ops ⟨0⟩ 1 :=
    ⟨[0], 2, .ofKind .t [⟨0⟩], by decide, ⟨_, rfl, rfl⟩, rfl, rfl, rfl, rfl⟩
  obtain ⟨R, hops, hkept⟩ := removeDiagonalGates_inFront (by decide) (by decide) hdone
  refine ⟨_, R, hdone, hfront, ?_, hops⟩
  by_contra hR
  obtain ⟨-, p, m, hlt, -⟩ := hkept ⟨0⟩ 1 hfront hR
  exact Nat.not_lt_zero _ hlt

/-- The same with the numbers of the qubits exchanged. -/
def negativeFromAbove : Circuit :=
  { withSize "negativeFromAbove" 2 2 with
    ops := [.gate { Gate.ofKind .z [⟨0⟩] with controls := .ofList [.neg ⟨1⟩] },
      .gate (.ofKind .t [⟨1⟩]),
      .effect { kind := .measure, targets := [⟨0⟩], clbits := [⟨0⟩] },
      .effect { kind := .measure, targets := [⟨1⟩], clbits := [⟨1⟩] }] }

/-- The walk on qubit 0 gives up qubit 1, and the gate in front of its measurement stays. -/
theorem removeDiagonalGates_negativeFromAbove :
    negativeFromAbove.removeDiagonalGates = .done negativeFromAbove := by
  cbv

end Circuit
end QuantumCircuit
