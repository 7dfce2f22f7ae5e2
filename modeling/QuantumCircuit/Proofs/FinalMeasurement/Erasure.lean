import Mathlib.Data.List.Forall2
import QuantumCircuit.Proofs.Leaves
import QuantumCircuit.Proofs.Ordered
import QuantumCircuit.Proofs.Walk.Invariant

/-! The walk that erases final measurements. A measurement or barrier is erased when all its
lanes have come back to it, and a lane comes back only over what has been erased on it, so
in the slots behind it nothing but identities is left on its qubits. -/
namespace QuantumCircuit
namespace FinalMeasurement
open Operation

variable {ops : List Operation} {w w' : Walk} {slot : Nat} {q : Qubit}

/-! ## Erased leaves -/

/-- At a slot only identities act on the qubit. -/
def Quiet (w : Walk) (q : Qubit) (slot : Nat) : Prop :=
  ∀ op, w.ops[slot]? = some op → ∀ leaf ∈ op.leaves, leaf.actsOn q = true → leaf.isIdentity = true

/-- The effect reduced to an identity. -/
def erased (e : Effect) : Operation := .effect { e with kind := .i }

/-- The leaf is as it was, or a measurement or barrier has been erased, and everything
behind its slot is quiet on its qubits. -/
def Marked (w : Walk) (slot : Nat) (a a' : Operation) : Prop :=
  a' = a ∨ ∃ e, a = .effect e ∧ (e.kind = .measure ∨ e.kind = .barrier) ∧
    a' = erased e ∧ ∀ q ∈ e.targets, ∀ j, slot < j → Quiet w q j

theorem Marked.mono {a a' : Operation} (h : Marked w slot a a')
    (hquiet : ∀ q j, Quiet w q j → Quiet w' q j) : Marked w' slot a a' := by
  rcases h with h | ⟨e, ha, hkind, ha', hbehind⟩
  · exact .inl h
  · exact .inr ⟨e, ha, hkind, ha', fun q hq j hj => hquiet q j (hbehind q hq j hj)⟩

/-- What has been erased is not erased again. -/
theorem Marked.trans {a b c : Operation} (h : Marked w slot a b) (h' : Marked w slot b c) :
    Marked w slot a c := by
  rcases h with rfl | ⟨e, ha, hkind, rfl, hbehind⟩
  · exact h'
  · rcases h' with rfl | ⟨e', he', hkind', -, -⟩
    · exact .inr ⟨e, ha, hkind, rfl, hbehind⟩
    · cases he'
      rcases hkind' with hkind' | hkind' <;> cases hkind'

theorem forall₂_marked_trans {as bs cs : List Operation} (h : List.Forall₂ (Marked w slot) as bs)
    (h' : List.Forall₂ (Marked w slot) bs cs) : List.Forall₂ (Marked w slot) as cs := by
  induction h generalizing cs with
  | nil =>
    cases h'
    exact .nil
  | cons hab _ ih =>
    cases h' with
    | cons hbc htail => exact .cons (hab.trans hbc) (ih htail)

theorem forall₂_marked_refl (w : Walk) (slot : Nat) (as : List Operation) :
    List.Forall₂ (Marked w slot) as as :=
  List.forall₂_same.2 fun _ _ => .inl rfl

/-! ## The invariant -/

/-- A walk over the given operations that has only erased what it may. A lane that has not
been given up has nothing but identities besides the slots it still lists. -/
structure Inv (ops : List Operation) (w : Walk) : Prop where
  sorted : ∀ q, (w.lanes.stack q).Pairwise (· > ·)
  quiet : ∀ q, w.lanes.stack q ≠ [] → ∀ j, j ∉ w.lanes.stack q → Quiet w q j
  length : w.ops.length = ops.length
  marked : ∀ {slot : Nat} {op op' : Operation}, ops[slot]? = some op → w.ops[slot]? = some op' →
    op' = op ∨ (∀ leaf ∈ op.leaves, leaf.isEffect = true) ∧
      List.Forall₂ (Marked w slot) op.leaves op'.leaves

theorem inv_start {c : Circuit} {pass : String} {lanes : Lanes}
    (h : Lanes.build c pass = .ok lanes) : Inv c.ops ⟨c.ops, lanes⟩ := by
  refine ⟨fun q => ?_, fun q _ j hj op hop leaf hleaf hacts => ?_, rfl, fun hop hop' => .inl ?_⟩
  · show (lanes.stack q).Pairwise _
    rw [Lanes.stack_build h, List.pairwise_reverse]
    exact sorted_slotsOn q 0 c.ops
  · have hj' : j ∉ lanes.stack q := hj
    rw [Lanes.stack_build h, List.mem_reverse, mem_slotsOn] at hj'
    exact absurd ⟨op, hop, actsOn_iff_leaf.2 ⟨leaf, hleaf, hacts⟩⟩ hj'
  · exact Option.some.inj (hop'.symm.trans hop)

/-- Behind the slot to which a lane has come back everything is quiet. -/
theorem Inv.quiet_behind (h : Inv ops w) (htop : w.lanes.top? q = some slot) {j : Nat}
    (hj : slot < j) : Quiet w q j := by
  have hstack : w.lanes.stack q = slot :: (w.lanes.stack q).tail :=
    (List.cons_head?_tail htop).symm
  have hsorted := h.sorted q
  rw [hstack, List.pairwise_cons] at hsorted
  refine h.quiet q (List.ne_nil_of_mem (List.mem_of_head? htop)) j fun hmem => ?_
  rw [hstack] at hmem
  rcases List.mem_cons.1 hmem with rfl | hmem
  · exact Nat.lt_irrefl _ hj
  · exact absurd (hsorted.1 j hmem) (Nat.lt_asymm hj)

/-! ### Erasing a leaf -/

theorem mem_or_isIdentity {as bs : List Operation} (h : List.Forall₂ (Marked w slot) as bs)
    {leaf : Operation} (hleaf : leaf ∈ bs) : leaf ∈ as ∨ leaf.isIdentity = true := by
  induction h with
  | nil => cases hleaf
  | cons hmarked _ ih =>
    rcases List.mem_cons.1 hleaf with rfl | hleaf
    · rcases hmarked with rfl | ⟨e, -, -, rfl, -⟩
      · exact .inl List.mem_cons_self
      · exact .inr rfl
    · exact (ih hleaf).imp_left (List.mem_cons_of_mem _)

theorem quiet_set {op op' : Operation} (hop : w.ops[slot]? = some op)
    (hmarked : List.Forall₂ (Marked w slot) op.leaves op'.leaves) {j : Nat}
    (h : Quiet w q j) : Quiet { w with ops := w.ops.set slot op' } q j := by
  intro o ho leaf hleaf hacts
  rcases getElem?_set_cases ho with ⟨rfl, rfl⟩ | ⟨-, ho⟩
  · rcases mem_or_isIdentity hmarked hleaf with hold | hid
    · exact h op hop leaf hold hacts
    · exact hid
  · exact h o ho leaf hleaf hacts

theorem Inv.set (h : Inv ops w) {op op' : Operation} (hop : w.ops[slot]? = some op)
    (heffects : ∀ leaf ∈ op.leaves, leaf.isEffect = true)
    (hmarked : List.Forall₂ (Marked w slot) op.leaves op'.leaves) :
    Inv ops { w with ops := w.ops.set slot op' } := by
  have hmono : ∀ r j, Quiet w r j → Quiet { w with ops := w.ops.set slot op' } r j :=
    fun r j => quiet_set hop hmarked
  refine ⟨h.sorted, fun r hr j hj => hmono r j (h.quiet r hr j hj), ?_, ?_⟩
  · show (w.ops.set slot op').length = _
    rw [List.length_set, h.length]
  · intro s o o' ho ho'
    rcases getElem?_set_cases ho' with ⟨rfl, rfl⟩ | ⟨-, ho'⟩
    · right
      rcases h.marked ho hop with rfl | ⟨hold, hbefore⟩
      · exact ⟨heffects, hmarked.imp fun _ _ hm => hm.mono hmono⟩
      · exact ⟨hold, (forall₂_marked_trans hbefore hmarked).imp fun _ _ hm => hm.mono hmono⟩
    · exact (h.marked ho ho').imp_right fun hold =>
        ⟨hold.1, hold.2.imp fun _ _ hm => hm.mono hmono⟩

/-- A measurement or barrier may be erased once all its lanes have come back to it. -/
theorem Inv.erase (h : Inv ops w) {op op' : Operation} (hop : w.ops[slot]? = some op)
    (heffects : ∀ leaf ∈ op.leaves, leaf.isEffect = true) {before after : List Operation}
    {e : Effect} (hleaves : op.leaves = before ++ .effect e :: after)
    (hleaves' : op'.leaves = before ++ erased e :: after)
    (hkind : e.kind = .measure ∨ e.kind = .barrier)
    (htops : ∀ t ∈ e.targets, w.lanes.top? t = some slot) :
    Inv ops { w with ops := w.ops.set slot op' } := by
  refine h.set hop heffects ?_
  rw [hleaves, hleaves']
  refine List.rel_append (forall₂_marked_refl w slot before) (.cons (.inr ?_)
    (forall₂_marked_refl w slot after))
  exact ⟨e, rfl, hkind, rfl, fun t ht j hj => h.quiet_behind (htops t ht) hj⟩

/-! ### Giving up lanes and going on -/

theorem Inv.clear (h : Inv ops w) (q : Qubit) :
    Inv ops { w with lanes := w.lanes.clear q } := by
  refine ⟨fun r => ?_, fun r hr => ?_, h.length, h.marked⟩
  · show ((w.lanes.clear q).stack r).Pairwise _
    rw [Lanes.stack_clear]
    split
    · exact .nil
    · exact h.sorted r
  · have hr' : (w.lanes.clear q).stack r ≠ [] := hr
    rw [Lanes.stack_clear] at hr'
    split at hr'
    · exact absurd rfl hr'
    · next hne =>
      show ∀ j, j ∉ (w.lanes.clear q).stack r → Quiet w r j
      rw [Lanes.stack_clear, if_neg hne]
      exact h.quiet r hr'

/-- Lanes may leave a slot that has become quiet on them. -/
theorem Inv.popAll (h : Inv ops w) {qs : List Qubit} (hqs : qs.Nodup)
    (hready : ∀ r ∈ qs, w.lanes.top? r = some slot ∧ Quiet w r slot) :
    Inv ops { w with lanes := qs.foldl Lanes.pop w.lanes } := by
  refine ⟨fun r => ?_, fun r hr => ?_, h.length, h.marked⟩
  · show ((qs.foldl Lanes.pop w.lanes).stack r).Pairwise _
    rw [Lanes.stack_foldl_pop _ hqs]
    split
    · exact (h.sorted r).tail
    · exact h.sorted r
  · have hr' : (qs.foldl Lanes.pop w.lanes).stack r ≠ [] := hr
    show ∀ j, j ∉ (qs.foldl Lanes.pop w.lanes).stack r → Quiet w r j
    rw [Lanes.stack_foldl_pop _ hqs] at hr' ⊢
    split at hr'
    · next hmem =>
      rw [if_pos hmem]
      obtain ⟨htop, hquiet⟩ := hready r hmem
      intro j hj
      by_cases hjs : j = slot
      · rw [hjs]
        exact hquiet
      · refine h.quiet r (fun hnil => hr' (by rw [hnil]; rfl)) j fun hin => ?_
        rw [← List.cons_head?_tail htop] at hin
        exact hj ((List.mem_cons.1 hin).resolve_left hjs)
    · next hmem =>
      rw [if_neg hmem]
      exact h.quiet r hr'

/-! ## The steps of the walk -/

/-- The lanes besides that of `q` that must come back before an effect is erased. -/
def others (q : Qubit) (e : Effect) : List Qubit := ((OrderedSet.ofList e.targets).erase q).toList

theorem mem_others {e : Effect} {r : Qubit} : r ∈ others q e ↔ r ∈ e.targets ∧ r ≠ q := by
  rw [others, OrderedSet.mem_toList, OrderedSet.mem_erase, OrderedSet.mem_ofList]

theorem top_of_mem_targets {e : Effect} {lanes : Lanes} (hq : lanes.top? q = some slot)
    (hothers : ∀ r ∈ others q e, lanes.top? r = some slot) :
    ∀ t ∈ e.targets, lanes.top? t = some slot := by
  intro t ht
  by_cases htq : t = q
  · rw [htq]
    exact hq
  · exact hothers t (mem_others.2 ⟨ht, htq⟩)

theorem isMeasurementLike_iff {op : Operation} : isMeasurementLike op = true ↔
    ∃ e, op = .effect e ∧ (e.kind = .measure ∨ e.kind = .barrier ∨ e.kind = .i) := by
  cases op with
  | effect e => simp [isMeasurementLike, or_assoc]
  | gate g => simp [isMeasurementLike]
  | compound children => simp [isMeasurementLike]
  | conditional cond body => simp [isMeasurementLike]

theorem leaves_compound_of_like {children : List Operation}
    (h : ∀ child ∈ children, isMeasurementLike child = true) :
    (Operation.compound children).leaves = children := by
  rw [leaves_compound, leavesOfAll_eq_self]
  intro child hchild
  obtain ⟨e, rfl, -⟩ := isMeasurementLike_iff.1 (h child hchild)
  rfl

section stages
variable {driveTo : Qubit → w.After → w.After}

/-- One stage: the leaf is erased when the other lanes of its effect have come back. -/
theorem sync_erase (hnested : Walk.Nested (Inv ops) slot driveTo) {u v : w.After} {b : Bool}
    (hu : Inv ops u.1) (hq : u.1.lanes.top? q = some slot) {op op' : Operation}
    (hop : u.1.ops[slot]? = some op) (heffects : ∀ leaf ∈ op.leaves, leaf.isEffect = true)
    {before after : List Operation} {e : Effect}
    (hleaves : op.leaves = before ++ .effect e :: after)
    (hleaves' : op'.leaves = before ++ erased e :: after)
    (hkind : e.kind = .measure ∨ e.kind = .barrier)
    (hsync : Walk.sync driveTo slot (others q e) u = (v, b)) :
    Inv ops v.1 ∧ Walk.Keeps (slot + 1) (slot + 1) u.1 v.1 ∧
      (b = true → (∀ t ∈ e.targets, v.1.lanes.top? t = some slot) ∧
        Inv ops { v.1 with ops := v.1.ops.set slot op' }) := by
  obtain ⟨hinv, hkeeps, htops⟩ := hnested.sync_kept hu hsync
  refine ⟨hinv, hkeeps, fun hb => ?_⟩
  have htargets := top_of_mem_targets (hkeeps.top hq) (htops hb)
  have hop' : v.1.ops[slot]? = some op := (hkeeps.ops slot (Nat.lt_succ_self slot)).trans hop
  exact ⟨htargets, hinv.erase hop' heffects hleaves hleaves' hkind htargets⟩

/-- A measurement or barrier on its own. -/
theorem effect_step (hnested : Walk.Nested (Inv ops) slot driveTo) {u v : w.After} {b : Bool}
    (hu : Inv ops u.1) (hq : u.1.lanes.top? q = some slot) {e : Effect}
    (hop : u.1.ops[slot]? = some (.effect e))
    (hrun : Walk.runStages driveTo slot (rule q (.effect e)).stages u = (v, b)) :
    Walk.Stepped (Inv ops) q slot (rule q (.effect e)) u.1 v.1 b := by
  by_cases herase : (e.kind = .measure ∨ e.kind = .barrier) ∧ (!e.targets.isEmpty) = true
  · have hplan : rule q (.effect e) =
        { stages := [⟨others q e, erased e⟩], advance := some (others q e) } := by
      rw [rule, if_pos herase]
      rfl
    have hnodup : (others q e ++ [q]).Nodup := OrderedSet.nodup_erase_concat _ q
    rw [hplan] at hrun ⊢
    refine .together hnested hu hq hnodup hrun (fun v' hv' _ _ => hv'.clear q)
      fun v' hv' hkeeps htops => ?_
    have hop' : v'.ops[slot]? = some (.effect e) :=
      (hkeeps.ops slot (Nat.lt_succ_self slot)).trans hop
    have heffects : ∀ leaf ∈ (Operation.effect e).leaves, leaf.isEffect = true := by
      simp [leaves, isEffect]
    have hleaves : (Operation.effect e).leaves = [] ++ .effect e :: [] := rfl
    have hleaves' : (erased e).leaves = [] ++ erased e :: [] := rfl
    have htargets := top_of_mem_targets (hkeeps.top hq) fun r hr =>
      htops r (List.mem_append_left _ hr)
    have herased : Inv ops { v' with ops := v'.ops.set slot (erased e) } :=
      hv'.erase hop' heffects hleaves hleaves' herase.1 htargets
    refine herased.popAll hnodup fun r hr => ⟨htops r hr, fun op hget leaf hleaf _ => ?_⟩
    rcases getElem?_set_cases hget with ⟨-, rfl⟩ | ⟨hne, -⟩
    · rw [List.mem_singleton.1 hleaf]
      rfl
    · exact absurd rfl hne
  · have hplan : rule q (.effect e) = {} := by
      rw [rule, if_neg herase]
    rw [hplan] at hrun ⊢
    cases hrun
    exact .idle (hu.clear q)

theorem childStages_skip {i : Nat} {children : List Operation} (rest : List Nat)
    (h : ∀ child, children[i]? = some child → startsOn q child = false) :
    childStages q (i :: rest) children = childStages q rest children := by
  rw [childStages]
  cases hi : children[i]? with
  | none => rfl
  | some child => simp [h child hi]

theorem kind_of_startsOn {e : Effect} (hlike : isMeasurementLike (.effect e) = true)
    (hstarts : startsOn q (.effect e) = true) : e.kind = .measure ∨ e.kind = .barrier := by
  simp only [startsOn, isMeasurementLike, kind, Bool.and_eq_true, Bool.or_eq_true,
    decide_eq_true_eq] at hlike hstarts
  exact hlike.resolve_right (of_decide_eq_true hstarts.1)

theorem set_eq_of_getElem? {i : Nat} {children : List Operation} {child : Operation}
    (hi : children[i]? = some child) (child' : Operation) :
    children = children.take i ++ child :: children.drop (i + 1) ∧
      children.set i child' = children.take i ++ child' :: children.drop (i + 1) := by
  obtain ⟨hlt, rfl⟩ := List.getElem?_eq_some_iff.1 hi
  refine ⟨?_, List.set_eq_take_append_cons_drop.trans (if_pos hlt)⟩
  rw [← List.drop_eq_getElem_cons hlt, List.take_append_drop]

/-- The children of a compound that start on the lane, one after the other. -/
theorem childStages_step (hnested : Walk.Nested (Inv ops) slot driveTo) {positions : List Nat}
    {children : List Operation} {u v : w.After} {b : Bool} (hu : Inv ops u.1)
    (hq : u.1.lanes.top? q = some slot) (hop : u.1.ops[slot]? = some (.compound children))
    (hlike : ∀ child ∈ children, isMeasurementLike child = true)
    (hrun : Walk.runStages driveTo slot (childStages q positions children) u = (v, b)) :
    Inv ops v.1 ∧ Walk.Keeps slot (slot + 1) u.1 v.1 ∧
      (b = true → ∃ children', v.1.ops[slot]? = some (.compound children') ∧
        (∀ child ∈ children', isMeasurementLike child = true) ∧
        ∀ j child, children'[j]? = some child → child.kind = .i ∨
          children[j]? = some child ∧ (j ∈ positions → startsOn q child = false)) := by
  induction positions generalizing children u with
  | nil =>
    cases hrun
    exact ⟨hu, .refl _ _ _, fun _ => ⟨children, hop, hlike, fun j child hj =>
      .inr ⟨hj, fun hmem => absurd hmem List.not_mem_nil⟩⟩⟩
  | cons i rest ih =>
    by_cases hstarts : ∃ child, children[i]? = some child ∧ startsOn q child = true
    · obtain ⟨child, hi, hstarts⟩ := hstarts
      have hmem := List.mem_of_getElem? hi
      obtain ⟨e, rfl, -⟩ := isMeasurementLike_iff.1 (hlike child hmem)
      have hkind := kind_of_startsOn (hlike _ hmem) hstarts
      obtain ⟨hcut, hcut'⟩ := set_eq_of_getElem? hi (erased e)
      have hlike' : ∀ child ∈ children.set i (erased e),
          isMeasurementLike child = true := by
        intro child hchild
        rcases List.mem_or_eq_of_mem_set hchild with hchild | rfl
        · exact hlike child hchild
        · rfl
      have hstages : childStages q (i :: rest) children =
          ⟨others q e, .compound (children.set i (erased e))⟩ ::
            childStages q rest (children.set i (erased e)) := by
        simp only [childStages, hi, hstarts, if_true]
        rfl
      rw [hstages, Walk.runStages] at hrun
      have hleaves := (leaves_compound_of_like hlike).trans hcut
      have hleaves' := (leaves_compound_of_like hlike').trans hcut'
      have heffects : ∀ leaf ∈ (Operation.compound children).leaves, leaf.isEffect = true := by
        rw [leaves_compound_of_like hlike]
        intro leaf hleaf
        obtain ⟨e', rfl, -⟩ := isMeasurementLike_iff.1 (hlike leaf hleaf)
        rfl
      cases hsync : Walk.sync driveTo slot (others q e) u with
      | mk v₁ b₁ =>
        obtain ⟨hinv₁, hkeeps₁, herase⟩ :=
          sync_erase hnested hu hq hop heffects hleaves hleaves' hkind hsync
        have hkeeps₁' := hkeeps₁.mono (Nat.le_succ slot) (Nat.le_refl (slot + 1))
        rw [hsync] at hrun
        cases b₁ with
        | false =>
          cases hrun
          exact ⟨hinv₁, hkeeps₁', fun hb => by cases hb⟩
        | true =>
          obtain ⟨-, herased⟩ := herase rfl
          have hlt : slot < v₁.1.ops.length := by
            rw [hinv₁.length, ← hu.length]
            exact (List.getElem?_eq_some_iff.1 hop).1
          have hq₁ : v₁.1.lanes.top? q = some slot := hkeeps₁.top hq
          obtain ⟨hinv, hkeeps, hdone⟩ := ih (u :=
              ⟨⟨v₁.1.ops.set slot (.compound (children.set i (erased e))), v₁.1.lanes⟩, v₁.2⟩)
            herased hq₁ (List.getElem?_set_self hlt) hlike' hrun
          refine ⟨hinv, (hkeeps₁'.trans (Walk.keeps_set _ _ _ _)).trans hkeeps, fun hb => ?_⟩
          obtain ⟨children', hop', hlike'', hchild⟩ := hdone hb
          refine ⟨children', hop', hlike'', fun j child hj => ?_⟩
          rcases hchild j child hj with hid | ⟨hsame, hrest⟩
          · exact .inl hid
          · rcases getElem?_set_cases hsame with ⟨-, rfl⟩ | ⟨hne, hsame⟩
            · exact .inl rfl
            · exact .inr ⟨hsame, fun hmem => hrest ((List.mem_cons.1 hmem).resolve_left hne.symm)⟩
    · have hskip : ∀ child, children[i]? = some child → startsOn q child = false :=
        fun child hi => Bool.eq_false_iff.2 fun h => hstarts ⟨child, hi, h⟩
      rw [childStages_skip rest hskip] at hrun
      obtain ⟨hinv, hkeeps, hdone⟩ := ih hu hq hop hlike hrun
      refine ⟨hinv, hkeeps, fun hb => ?_⟩
      obtain ⟨children', hop', hlike', hchild⟩ := hdone hb
      refine ⟨children', hop', hlike', fun j child hj => (hchild j child hj).imp_right ?_⟩
      rintro ⟨hsame, hrest⟩
      refine ⟨hsame, fun hmem => ?_⟩
      rcases List.mem_cons.1 hmem with rfl | hmem
      · exact hskip child hsame
      · exact hrest hmem

/-- If no other child reads the qubit, the slot is quiet on it after the step. -/
theorem compound_step (hnested : Walk.Nested (Inv ops) slot driveTo) {u v : w.After} {b : Bool}
    (hu : Inv ops u.1) (hq : u.1.lanes.top? q = some slot) {children : List Operation}
    (hop : u.1.ops[slot]? = some (.compound children))
    (hrun : Walk.runStages driveTo slot (rule q (.compound children)).stages u = (v, b)) :
    Walk.Stepped (Inv ops) q slot (rule q (.compound children)) u.1 v.1 b := by
  by_cases hall : children.all isMeasurementLike = true
  · have hplan : rule q (.compound children) = compoundPlan q children := by
      rw [rule, if_pos hall]
    have hlike := List.all_eq_true.1 hall
    rw [hplan] at hrun ⊢
    obtain ⟨hinv, hkeeps, hdone⟩ := childStages_step hnested hu hq hop hlike hrun
    refine ⟨hkeeps.mono (Nat.le_refl slot) (Nat.le_succ slot), fun _ => hinv.clear q,
      fun hb rs hrs => ?_⟩
    rw [compoundPlan] at hrs
    dsimp only at hrs
    split at hrs
    · cases hrs
    · next hunused =>
      cases hrs
      have htop : ∀ r ∈ [] ++ [q], v.1.lanes.top? r = some slot := fun r hr => by
        rw [List.mem_singleton.1 hr]
        exact hkeeps.top hq
      refine ⟨htop, List.nodup_singleton q, hinv.popAll (List.nodup_singleton q) fun r hr =>
        ⟨htop r hr, fun op hop' leaf hleaf hacts => ?_⟩⟩
      rw [List.mem_singleton.1 hr] at hacts
      obtain ⟨children', hchildren', hlike', hchild⟩ := hdone hb
      cases hop'.symm.trans hchildren'
      rw [leaves_compound_of_like hlike'] at hleaf
      obtain ⟨e, rfl, -⟩ := isMeasurementLike_iff.1 (hlike' leaf hleaf)
      obtain ⟨j, hj⟩ := List.mem_iff_getElem?.1 hleaf
      refine decide_eq_true (Classical.byContradiction fun hkind => ?_)
      rcases hchild j _ hj with hid | ⟨hsame, hstarts⟩
      · exact hkind hid
      · have hlt : j < children.length := (List.getElem?_eq_some_iff.1 hsame).1
        have hother := hstarts (List.mem_reverse.2 (List.mem_range.2 hlt))
        refine hunused (List.any_eq_true.2 ⟨_, List.mem_of_getElem? hsame, ?_⟩)
        rw [hother, Bool.and_eq_true, Bool.and_eq_true]
        exact ⟨⟨decide_eq_true hkind, rfl⟩, hacts⟩
  · have hplan : rule q (.compound children) = {} := by
      rw [rule, if_neg hall]
    rw [hplan] at hrun ⊢
    cases hrun
    exact .idle (hu.clear q)

/-- A step at a slot of its lane, whatever stands there. -/
theorem rule_step (hnested : Walk.Nested (Inv ops) slot driveTo) {u v : w.After} {b : Bool}
    (hu : Inv ops u.1) (hq : u.1.lanes.top? q = some slot) {op : Operation}
    (hop : u.1.ops[slot]? = some op)
    (hrun : Walk.runStages driveTo slot (rule q op).stages u = (v, b)) :
    Walk.Stepped (Inv ops) q slot (rule q op) u.1 v.1 b := by
  cases op with
  | effect e => exact effect_step hnested hu hq hop hrun
  | compound children => exact compound_step hnested hu hq hop hrun
  | gate g =>
    cases hrun
    exact .idle (hu.clear q)
  | conditional cond body =>
    cases hrun
    exact .idle (hu.clear q)

end stages

/-! ## The whole walk -/

theorem halt_rule (q : Qubit) (op : Operation) : (rule q op).halt = [] := by
  cases op with
  | effect e =>
    rw [rule]
    split <;> rfl
  | compound children =>
    rw [rule]
    split <;> rfl
  | gate g => rfl
  | conditional cond body => rfl

theorem maintains (ops : List Operation) : Walk.Maintains rule (Inv ops) := by
  refine ⟨fun hw _ _ => hw.clear _,
    fun {w q slot op} hw htop hop driveTo u v b hnested hu hrun => ?_⟩
  refine .of_no_halt (halt_rule q op) hu fun hsame => ?_
  rw [← hsame] at hw htop hop
  exact rule_step hnested hw htop hop hrun

theorem inv_run (hw : Inv ops w) : Inv ops (Walk.run rule w) := (maintains ops).run hw

end FinalMeasurement

/-- What is left is what the walk on the lanes of the circuit leaves, without identities. -/
theorem Circuit.run_of_removeFinalMeasurements {c out : Circuit}
    (h : c.removeFinalMeasurements = .done out) :
    ∃ lanes, Lanes.build c FinalMeasurement.passName = .ok lanes ∧
      out.ops = Operation.stripAll (Walk.run FinalMeasurement.rule ⟨c.ops, lanes⟩).ops := by
  rw [removeFinalMeasurements, Walk.runOn] at h
  split at h
  · cases h
  · next lanes hlanes =>
    cases h
    have hsame : (⟨lanes.rows.map id⟩ : Lanes) = lanes := by rw [List.map_id]
    refine ⟨lanes, hlanes, ?_⟩
    show Operation.stripAll (Walk.run FinalMeasurement.rule ⟨c.ops, ⟨lanes.rows.map id⟩⟩).ops = _
    rw [hsame]

end QuantumCircuit
