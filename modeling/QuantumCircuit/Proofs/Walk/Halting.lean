import QuantumCircuit.Proofs.Diagonal.Steps
import QuantumCircuit.Proofs.FinalMeasurement.Erasure
import QuantumCircuit.Proofs.Walk.Calls

/-! Both walks from the back come to an end. A call inside another one has a greater bound,
the lanes that go on leave a slot behind, and no lane ever goes back to one. -/
namespace QuantumCircuit

namespace Operation

theorem actsOn_retag (k : Kind) (op : Operation) (r : Qubit) :
    (op.retag k).actsOn r = op.actsOn r := by
  induction op using inductionOn with
  | gate g => rfl
  | effect e => rfl
  | compound children _ => rfl
  | conditional cond body ih => exact ih

theorem actsOn_compound_retag_back (k : Kind) (front back : List Operation) (r : Qubit) :
    (compound (front ++ back.map (retag k))).actsOn r = (compound (front ++ back)).actsOn r := by
  have hback : (back.map (retag k)).any (·.actsOn r) = back.any (·.actsOn r) := by
    rw [List.any_map]
    exact List.any_congr rfl fun op => actsOn_retag k op r
  rw [actsOn, actsOn, anyActsOn_eq, anyActsOn_eq, List.any_append, List.any_append, hback]

theorem actsOn_compound_retag_at {k : Kind} {i : Nat} {children : List Operation}
    {child : Operation} (hi : children[i]? = some child) (r : Qubit) :
    (compound (children.set i (child.retag k))).actsOn r = (compound children).actsOn r := by
  obtain ⟨hcut, hset⟩ := FinalMeasurement.set_eq_of_getElem? hi (child.retag k)
  have hany : (children.set i (child.retag k)).any (·.actsOn r) = children.any (·.actsOn r) := by
    rw [hset, List.any_append, List.any_cons, actsOn_retag, ← List.any_cons,
      ← List.any_append, ← hcut]
  rw [actsOn, actsOn, anyActsOn_eq, anyActsOn_eq, hany]

end Operation

open Operation

/-! ## Diagonal gates -/

namespace Diagonal
variable {q : Qubit} {op : Operation} {g : Gate}

theorem gateOf?_retag (h : gateOf? op = some g) (k : Kind) :
    gateOf? (op.retag k) = some { g with kind := k } := by
  rcases gateOf?_eq_some_iff.1 h with rfl | ⟨cond, rfl⟩ <;> rfl

/-- Without a negative control no lane is given up. -/
theorem halt_of_positive (hg : gateOf? op = some g)
    (hpos : g.controls.toList.find? (!·.isPositive) = none) (p : Qubit) :
    (rule p op).halt = [] := by
  rw [rule_of_gateOf? hg, gatePlan]
  split
  · rw [hpos]
    rfl
  · rfl

theorem halt_of_isMeasure (h : op.isMeasure = true) (p : Qubit) : (rule p op).halt = [] := by
  cases op with
  | effect e => rfl
  | gate g => cases h
  | compound children => cases h
  | conditional cond body => cases h

/-- The operation becomes another one on the same qubits once the other lanes have come back,
and no lane is given up before or after that. -/
structure Rewrites (q : Qubit) (op : Operation) (others : List Qubit) (result : Operation)
    (advance : Option (List Qubit)) : Prop where
  plan : rule q op = { stages := [⟨others, result⟩], advance := advance }
  advances : ∀ rs, advance = some rs → rs = others
  nodup : (others ++ [q]).Nodup
  quiet : ∀ p, (rule p op).halt = []
  result_quiet : ∀ p, (rule p result).halt = []
  actsOn : ∀ r, result.actsOn r = op.actsOn r

/-- A plan does nothing but to give up the driven lane and that of a negative control, or it
rewrites the operation. -/
theorem rule_cases (q : Qubit) (op : Operation) :
    ((rule q op).stages = [] ∧ (rule q op).advance = none ∧
      ∀ r ∈ (rule q op).halt, op.actsOn r = true) ∨
    ∃ others result advance, Rewrites q op others result advance := by
  have hidle : ∀ {plan : Plan}, plan = {} → (plan.stages = [] ∧ plan.advance = none ∧
      ∀ r ∈ plan.halt, op.actsOn r = true) := by
    rintro _ rfl
    exact ⟨rfl, rfl, fun r hr => absurd hr List.not_mem_nil⟩
  cases hg : gateOf? op with
  | some g =>
    have hplan := rule_of_gateOf? hg q
    rw [gatePlan] at hplan
    split at hplan
    · cases hfind : g.controls.toList.find? (!·.isPositive) with
      | some c =>
        rw [hfind] at hplan
        refine .inl ?_
        rw [hplan]
        refine ⟨rfl, rfl, fun r hr => ?_⟩
        rw [List.mem_singleton.1 hr, actsOn_of_gateOf? hg, Gate.actsOn, Bool.or_eq_true,
          List.any_eq_true]
        exact .inr ⟨c, List.mem_of_find?_eq_some hfind, decide_eq_true rfl⟩
      | none =>
        rw [hfind] at hplan
        exact .inr ⟨_, _, _, hplan, fun rs hrs => (Option.some.inj hrs).symm, OrderedSet.nodup_erase_concat _ q,
          halt_of_positive hg hfind, halt_of_positive (gateOf?_retag hg .i) hfind,
          actsOn_retag .i op⟩
    · exact .inl (hidle hplan)
  | none =>
    cases op with
    | gate g => cases hg
    | effect e => exact .inl (hidle rfl)
    | conditional cond body =>
      cases body with
      | gate g => cases hg
      | compound children => exact .inl (hidle rfl)
      | effect e => exact .inl (hidle rfl)
      | conditional cond' body' => exact .inl (hidle rfl)
    | compound children =>
      have hplan : rule q (.compound children) = compoundPlan q children := rfl
      rw [compoundPlan] at hplan
      split at hplan
      · -- on one qubit nothing is waited for, so the lane goes on alone or not at all
        obtain ⟨front, back, rfl, -, hsingle⟩ := exists_trailing_split children
        refine .inr ⟨_, _, _, hplan.trans hsingle, fun rs hrs => ?_, List.nodup_singleton q,
          fun p => halt_compoundPlan p _, fun p => halt_compoundPlan p _,
          actsOn_compound_retag_back .i front back⟩
        split at hrs
        · exact (Option.some.inj hrs).symm
        · cases hrs
      · split at hplan
        · exact .inr ⟨_, _, _, hplan, fun rs hrs => (Option.some.inj hrs).symm, OrderedSet.nodup_erase_concat _ q,
            fun p => halt_compoundPlan p _, fun p => halt_compoundPlan p _,
            actsOn_compound_retag_back .i [] children⟩
        · exact .inl (hidle hplan)

theorem orderly : Walk.Orderly rule := by
  refine ⟨fun q op r hr => ?_, fun q op hact => ?_, fun q op stage hstage => ?_,
    fun q op stage hstage => ?_, fun q op rs hrs => ?_, fun q op rs hrs r hr => ?_⟩ <;>
    rcases rule_cases q op with ⟨hstages, hadvance, hhalt⟩ | ⟨others, result, advance, h⟩
  · exact hhalt r hr
  · rw [h.quiet q] at hr
    cases hr
  · exact absurd hact (not_or.2 ⟨not_not.2 hstages, not_not.2 hadvance⟩)
  · exact h.quiet
  · rw [hstages] at hstage
    cases hstage
  · rw [h.plan] at hstage
    rw [List.mem_singleton.1 hstage]
    exact h.result_quiet
  · rw [hstages] at hstage
    cases hstage
  · rw [h.plan] at hstage
    rw [List.mem_singleton.1 hstage]
    exact h.actsOn
  · cases hadvance.symm.trans hrs
  · rw [h.plan] at hrs
    rw [h.advances rs hrs]
    exact h.nodup
  · cases hadvance.symm.trans hrs
  · rw [h.plan] at hrs ⊢
    exact ⟨_, List.mem_singleton_self _, h.advances rs hrs ▸ hr⟩

end Diagonal

/-! ## Final measurements -/

namespace FinalMeasurement
variable {q : Qubit}

/-- The stages of a compound leave it on its qubits. -/
theorem actsOn_of_mem_childStages {positions : List Nat} {children : List Operation}
    {stage : Stage} (h : stage ∈ childStages q positions children) (r : Qubit) :
    stage.result.actsOn r = (compound children).actsOn r := by
  induction positions generalizing children with
  | nil => cases h
  | cons i rest ih =>
    rw [childStages] at h
    split at h
    · exact ih h
    · next child hi =>
      split at h
      · rcases List.mem_cons.1 h with rfl | h
        · exact actsOn_compound_retag_at hi r
        · exact (ih h).trans (actsOn_compound_retag_at hi r)
      · exact ih h

/-- A plan gives up the driven lane, erases an effect, or has a stage for each child of a
compound that starts on the lane. -/
theorem rule_cases (q : Qubit) (op : Operation) :
    rule q op = {} ∨
    (∃ e, op = .effect e ∧
      rule q op = { stages := [⟨others q e, erased e⟩], advance := some (others q e) }) ∨
    ∃ children positions advance, op = .compound children ∧
      rule q op = { stages := childStages q positions children, advance := advance } ∧
      ∀ rs, advance = some rs → rs = [] := by
  cases op with
  | gate g => exact .inl rfl
  | conditional cond body => exact .inl rfl
  | effect e =>
    rw [rule]
    split
    · exact .inr (.inl ⟨e, rfl, rfl⟩)
    · exact .inl rfl
  | compound children =>
    rw [rule]
    split
    · refine .inr (.inr ⟨children, _, _, rfl, rfl, fun rs hrs => ?_⟩)
      split at hrs
      · cases hrs
      · exact (Option.some.inj hrs).symm
    · exact .inl rfl

theorem orderly : Walk.Orderly rule := by
  refine ⟨fun q op r hr => ?_, fun q op _ p => halt_rule p op,
    fun q op stage _ p => halt_rule p stage.result, fun q op stage hstage r => ?_,
    fun q op rs hrs => ?_, fun q op rs hrs r hr => ?_⟩
  · rw [halt_rule] at hr
    cases hr
  all_goals
    rcases rule_cases q op with hplan | ⟨e, rfl, hplan⟩ | ⟨children, positions, advance, rfl, hplan,
      hadvance⟩
  · rw [hplan] at hstage
    cases hstage
  · rw [hplan] at hstage
    rw [List.mem_singleton.1 hstage]
    rfl
  · rw [hplan] at hstage
    exact actsOn_of_mem_childStages hstage r
  · rw [hplan] at hrs
    cases hrs
  · rw [hplan] at hrs
    cases hrs
    exact OrderedSet.nodup_erase_concat _ q
  · rw [hplan] at hrs
    rw [hadvance rs hrs]
    exact List.nodup_singleton q
  · rw [hplan] at hrs
    cases hrs
  · rw [hplan] at hrs ⊢
    cases hrs
    exact ⟨_, List.mem_singleton_self _, hr⟩
  · rw [hplan] at hrs
    rw [hadvance rs hrs] at hr
    cases hr

end FinalMeasurement

/-! ## The lanes at the start -/

namespace Walk
variable {rule : Rule} {w : Walk}

/-- Lanes are in order if each one is empty or lists all slots of its qubit but for some at the
end, at which no lane is given up. -/
theorem inOrder_of_cut (hrule : Orderly rule) (h : ∀ q, w.lanes.stack q = [] ∨
    ∃ gone, slotsOn q 0 w.ops = (w.lanes.stack q).reverse ++ gone ∧
      ∀ j ∈ gone, ∀ op, w.ops[j]? = some op → ∀ p, (rule p op).halt = []) :
    InOrder rule w := by
  -- what a lane that is walked does not list lies behind all that it lists
  have hlisted : ∀ {q s}, w.lanes.top? q = some s → ∃ gone,
      slotsOn q 0 w.ops = (w.lanes.stack q).reverse ++ gone ∧ (∀ j ∈ gone, s < j) ∧
      ∀ j ∈ gone, ∀ op, w.ops[j]? = some op → ∀ p, (rule p op).halt = [] := by
    intro q s hs
    rcases h q with hnil | ⟨gone, hcut, hquiet⟩
    · rw [Lanes.top?, hnil] at hs
      cases hs
    · have hsorted := sorted_slotsOn q 0 w.ops
      rw [hcut, List.pairwise_append] at hsorted
      exact ⟨gone, hcut, hsorted.2.2 s (List.mem_reverse.2 (List.mem_of_head? hs)), hquiet⟩
  have hsorted : ∀ q, (w.lanes.stack q).Pairwise (· > ·) := by
    intro q
    rcases h q with hnil | ⟨gone, hcut, -⟩
    · rw [hnil]
      exact .nil
    · have hsorted := sorted_slotsOn q 0 w.ops
      rw [hcut, List.pairwise_append, List.pairwise_reverse] at hsorted
      exact hsorted.1
  refine ⟨hsorted, fun q j hj => ?_, fun q j op s hop hacts hs hle => ?_,
    fun p r j op s hop hhalt hs => ?_⟩
  · rcases h q with hnil | ⟨gone, hcut, -⟩
    · rw [hnil] at hj
      cases hj
    · refine mem_slotsOn.1 ?_
      rw [hcut]
      exact List.mem_append_left _ (List.mem_reverse.2 hj)
  · obtain ⟨gone, hcut, hlt, -⟩ := hlisted hs
    have hj : j ∈ slotsOn q 0 w.ops := mem_slotsOn.2 ⟨op, hop, hacts⟩
    rw [hcut] at hj
    rcases List.mem_append.1 hj with hj | hj
    · exact List.mem_reverse.1 hj
    · exact absurd hle (Nat.not_le_of_lt (hlt j hj))
  · obtain ⟨gone, hcut, -, hquiet⟩ := hlisted hs
    have hj : j ∈ slotsOn r 0 w.ops := mem_slotsOn.2 ⟨op, hop, hrule.halt hhalt⟩
    rw [hcut] at hj
    rcases List.mem_append.1 hj with hj | hj
    · exact le_head_of_descending (hsorted r) hs (List.mem_reverse.1 hj)
    · rw [hquiet j hj op hop p] at hhalt
      cases hhalt

variable {c : Circuit} {pass : String} {lanes : Lanes}

theorem inOrder_diagonal (h : Lanes.build c pass = .ok lanes) :
    InOrder Diagonal.rule ⟨c.ops, ⟨lanes.rows.map (Diagonal.start c.ops)⟩⟩ := by
  refine inOrder_of_cut Diagonal.orderly fun q => ?_
  show Lanes.stack _ q = [] ∨ ∃ gone, _ = (Lanes.stack _ q).reverse ++ gone ∧ _
  rw [Diagonal.stack_start h]
  rcases Diagonal.start_cases c.ops q with ⟨m, hends, hcut⟩ | ⟨hnil, -⟩
  · refine .inr ⟨[m], hcut, fun j hj op hop => ?_⟩
    obtain ⟨-, op', hop', hmeasure⟩ := hends
    rw [List.mem_singleton.1 hj] at hop
    cases hop'.symm.trans hop
    exact Diagonal.halt_of_isMeasure hmeasure
  · exact .inl hnil

theorem inOrder_finalMeasurement (h : Lanes.build c pass = .ok lanes) :
    InOrder FinalMeasurement.rule ⟨c.ops, lanes⟩ := by
  refine inOrder_of_cut FinalMeasurement.orderly fun q => .inr ⟨[], ?_, fun j hj => ?_⟩
  · show _ = (lanes.stack q).reverse ++ []
    rw [Lanes.stack_build h, List.reverse_reverse, List.append_nil]
  · cases hj

/-! ## The end of a walk -/

/-- The first call has a bound, and it is greater than that of the second one. -/
def Call.Above (inner outer : Call) : Prop :=
  ∃ slot, inner.bound = some slot ∧ ∀ u, outer.bound = some u → u < slot

namespace Machine
variable {m m' : Machine}

theorem sound_start (h : InOrder rule w) : Sound rule (start w) :=
  ⟨h, fun _ hd => absurd hd List.not_mem_nil, .nil⟩

/-- A call waits above its own bound for the call inside it. -/
theorem Sound.above (h : Sound rule m) : m.calls.IsChain Call.Above := by
  refine List.isChain_iff_getElem.2 fun i hi => ?_
  obtain ⟨t, hphase, hbound⟩ := List.isChain_iff_getElem.1 h.inside i hi
  have hcall := h.calls _ (List.getElem_mem hi)
  rw [Call.Sound, hphase] at hcall
  refine ⟨t.slot, hbound, fun u hu => ?_⟩
  have habove := isAbove_iff.1 hcall.above
  rwa [hu] at habove

/-- The lanes that go on are all at the slot of the step, and leave it behind. -/
theorem Sound.stack_moveOn (h : Sound rule m) (hstep : m.step rule = some m')
    {bound : Option Nat} {q : Qubit} {slot : Nat} {rs : List Qubit} {below : List Call}
    (hcalls : m.calls = ⟨bound, q, .working ⟨slot, [], some rs⟩⟩ :: below) :
    ∀ r ∈ rs ++ [q], m.walk.lanes.stack r = slot :: m'.walk.lanes.stack r := by
  obtain ⟨w, calls, todo⟩ := m
  cases hcalls
  cases hstep
  intro r hr
  obtain ⟨ht, htops⟩ := h.together
  show w.lanes.stack r = slot :: ((rs ++ [q]).foldl Lanes.pop w.lanes).stack r
  rw [Lanes.stack_foldl_pop _ (ht.nodup rs rfl), if_pos hr]
  exact stack_of_top (htops r hr)

/-- A run that never ends goes through every machine that can be reached. -/
theorem exists_eq_of_reaches {f : Nat → Machine} (hf : ∀ n, (f n).step rule = some (f (n + 1)))
    (h : Reaches rule (f 0) m) : ∃ n, f n = m := by
  induction h with
  | refl => exact ⟨0, rfl⟩
  | tail _ hstep ih =>
    obtain ⟨n, rfl⟩ := ih
    exact ⟨n + 1, Option.some.inj ((hf n).symm.trans hstep)⟩

end Machine

open Machine

/-- The walk comes to an end, for the reasons that its steps give. -/
structure Halts (rule : Rule) (w : Walk) : Prop where
  /-- The machine stops, and has done what the walk does. -/
  stops : ∃ last, Reaches rule (start w) last ∧ last.step rule = none ∧ last.walk = run rule w
  not_endless : ¬ ∃ f : Nat → Machine, f 0 = start w ∧ ∀ n, (f n).step rule = some (f (n + 1))
  /-- A call inside another one has a greater bound. -/
  above : ∀ ⦃m⦄, Reaches rule (start w) m → m.calls.IsChain Call.Above
  /-- When a step is through, the driven lane and those that go on with it lose its slot. -/
  lowers : ∀ ⦃m m' bound q slot rs below⦄, Reaches rule (start w) m → m.step rule = some m' →
    m.calls = ⟨bound, q, .working ⟨slot, [], some rs⟩⟩ :: below →
    ∀ r ∈ rs ++ [q], m.walk.lanes.stack r = slot :: m'.walk.lanes.stack r
  /-- No lane gets a slot back. -/
  within : ∀ ⦃m m'⦄, Reaches rule (start w) m → m.step rule = some m' →
    m'.walk.lanes.Within m.walk.lanes

theorem InOrder.halts (hrule : Orderly rule) (h : InOrder rule w) : Halts rule w := by
  have hsound : ∀ {m}, Reaches rule (start w) m → Sound rule m := (sound_start h).reaches hrule
  refine ⟨⟨_, reaches_run rule w, rfl, rfl⟩, ?_, fun m hm => (hsound hm).above,
    fun m m' bound q slot rs below hm hstep hcalls => (hsound hm).stack_moveOn hstep hcalls,
    fun m m' _ hstep => step_within hstep⟩
  -- an endless run would go through the machine that has stopped
  rintro ⟨f, hstart, hf⟩
  obtain ⟨n, hn⟩ := exists_eq_of_reaches hf (hstart ▸ reaches_run rule w)
  have hstep := hf n
  rw [hn] at hstep
  cases hstep

/-- On the lanes of a circuit both walks come to an end. -/
theorem halts_on_lanes (h : Lanes.build c pass = .ok lanes) :
    Halts Diagonal.rule ⟨c.ops, ⟨lanes.rows.map (Diagonal.start c.ops)⟩⟩ ∧
      Halts FinalMeasurement.rule ⟨c.ops, lanes⟩ :=
  ⟨(inOrder_diagonal h).halts Diagonal.orderly,
    (inOrder_finalMeasurement h).halts FinalMeasurement.orderly⟩

/-- Each gate shares a qubit with the one before it, and all qubits are measured together. -/
def staircase : Circuit :=
  { Circuit.withSize "staircase" 3 3 with
    ops := [.gate (.controlled .z [.pos ⟨0⟩] [⟨1⟩]), .gate (.controlled .z [.pos ⟨1⟩] [⟨2⟩]),
      .effect { kind := .measure, targets := [⟨0⟩, ⟨1⟩, ⟨2⟩], clbits := [⟨0⟩, ⟨1⟩, ⟨2⟩] }] }

/-- The first lane waits for the second one, which waits for the third one. -/
theorem halts_on_lanes_staircase : ∃ lanes, Lanes.build staircase Diagonal.passName = .ok lanes ∧
    Halts Diagonal.rule ⟨staircase.ops, ⟨lanes.rows.map (Diagonal.start staircase.ops)⟩⟩ ∧
    Halts FinalMeasurement.rule ⟨staircase.ops, lanes⟩ ∧
    ∃ m, Reaches Diagonal.rule
        (start ⟨staircase.ops, ⟨lanes.rows.map (Diagonal.start staircase.ops)⟩⟩) m ∧
      m.calls.map (·.bound) = [some 1, some 0, none] := by
  have hlanes : Lanes.build staircase Diagonal.passName = .ok ⟨[[2, 0], [2, 1, 0], [2, 1]]⟩ := rfl
  obtain ⟨hdiagonal, hfinal⟩ := halts_on_lanes hlanes
  exact ⟨_, hlanes, hdiagonal, hfinal, _,
    .head rfl (.head rfl (.head rfl (.head rfl (.head rfl .refl)))), rfl⟩

end Walk
end QuantumCircuit
