import Mathlib
import QuantumCircuit.Proofs.FinalMeasurement.Erasure
import QuantumCircuit.Proofs.Marks

/-! Without compounds the removal at the end is exact. The slots that the walk erases form
a trailing set: everything later on a qubit of one of them belongs to it. No trailing set is
larger, because a lane is given up only at a slot that is in none of them. -/
namespace QuantumCircuit
namespace FinalMeasurement
open Operation

variable {S : Set ℕ} {ops cur : List Operation} {w : Walk} {slot : ℕ} {q : Qubit}

/-- Slots of measurements and barriers that have a target, such that every later slot on one
of the targets belongs to the set as well. -/
def Trailing (ops : List Operation) (S : Set ℕ) : Prop :=
  ∀ i ∈ S, ∃ e, ops[i]? = some (.effect e) ∧ (e.kind = .measure ∨ e.kind = .barrier) ∧
    e.targets ≠ [] ∧ ∀ t ∈ e.targets, ∀ j ∈ slotsOn t 0 ops, i < j → j ∈ S

/-! ## Erased slots -/

/-- The measurement or barrier at the slot has been erased. -/
def Erased (ops cur : List Operation) (j : ℕ) : Prop :=
  ∃ e, ops[j]? = some (.effect e) ∧ (e.kind = .measure ∨ e.kind = .barrier) ∧
    cur[j]? = some (erased e)

theorem not_erased_of_same {j : ℕ} (h : cur[j]? = ops[j]?) : ¬ Erased ops cur j := by
  rintro ⟨e, hop, hkind, hcur⟩
  have hsame : erased e = .effect e := Option.some.inj (hcur.symm.trans (h.trans hop))
  have hid : e.kind = .i := by
    rw [erased, Operation.effect.injEq] at hsame
    rw [← hsame]
  rcases hkind with hkind | hkind <;> cases hid.symm.trans hkind

/-- Another slot that changes for the first time leaves the erased ones alone. -/
theorem Erased.set {j : ℕ} (h : Erased ops cur j) (hslot : cur[slot]? = ops[slot]?)
    (op : Operation) : Erased ops (cur.set slot op) j := by
  have hne : slot ≠ j := by
    rintro rfl
    exact not_erased_of_same hslot h
  obtain ⟨e, hop, hkind, hcur⟩ := h
  exact ⟨e, hop, hkind, (List.getElem?_set_ne hne).trans hcur⟩

theorem erased_set {e : Effect} (hop : ops[slot]? = some (.effect e))
    (hkind : e.kind = .measure ∨ e.kind = .barrier) (hlt : slot < cur.length) :
    Erased ops (cur.set slot (erased e)) slot :=
  ⟨e, hop, hkind, List.getElem?_set_self hlt⟩

/-! ## The invariant -/

/-- What stands at the slot has been erased, if the lane has it at all. -/
def Done (ops cur : List Operation) (q : Qubit) (j : ℕ) : Prop :=
  j ∈ slotsOn q 0 ops → Erased ops cur j

/-- The lane has come back to a slot outside the set. -/
def GaveUp (S : Set ℕ) (ops cur : List Operation) (q : Qubit) : Prop :=
  ∃ b ∈ slotsOn q 0 ops, b ∉ S ∧ ∀ j, b < j → Done ops cur q j

/-- A walk that has erased a trailing set, with the lanes given up outside of `S` only. -/
structure Exact (S : Set ℕ) (ops : List Operation) (w : Walk) : Prop where
  clean : Walk.Clean ops (fun q j => j ∈ slotsOn q 0 ops) (Done ops) (GaveUp S ops) w
  length : w.ops.length = ops.length
  same : ∀ j, w.ops[j]? = ops[j]? ∨ Erased ops w.ops j
  trailing : Trailing ops {j | Erased ops w.ops j}

theorem exact_start {c : Circuit} {pass : String} {lanes : Lanes}
    (h : Lanes.build c pass = .ok lanes) (S : Set ℕ) : Exact S c.ops ⟨c.ops, lanes⟩ := by
  have hmem : ∀ q j, j ∈ lanes.stack q ↔ j ∈ slotsOn q 0 c.ops := by
    intro q j
    rw [Lanes.stack_build h, List.mem_reverse]
  refine ⟨⟨fun q => ?_, fun {q j} hj => ⟨(hmem q j).1 hj, rfl⟩, fun q => .inl fun j hj hon => ?_⟩,
    rfl, fun j => .inl rfl, fun j hj => absurd hj (not_erased_of_same rfl)⟩
  · show (lanes.stack q).Pairwise _
    rw [Lanes.stack_build h, List.pairwise_reverse]
    exact sorted_slotsOn q 0 c.ops
  · exact absurd ((hmem q j).2 hon) hj

/-- The lane of a qubit of a trailing measurement has not been given up behind it. -/
theorem Exact.mem_stack (hS : Trailing ops S) (h : Exact S ops w) {e : Effect}
    (hop : ops[slot]? = some (.effect e)) (hslot : slot ∈ S) (hq : q ∈ e.targets) :
    slot ∈ w.lanes.stack q ∨ Erased ops w.ops slot := by
  have hon : slot ∈ slotsOn q 0 ops := mem_slotsOn.2 ⟨_, hop, decide_eq_true hq⟩
  rcases h.clean.lane q with hdone | ⟨-, b, hb, hbS, hdone⟩
  · by_cases hmem : slot ∈ w.lanes.stack q
    · exact .inl hmem
    · exact .inr (hdone slot hmem hon)
  · obtain ⟨e', hop', -, -, hlater⟩ := hS slot hslot
    cases hop.symm.trans hop'
    rcases Nat.lt_trichotomy slot b with hlt | rfl | hgt
    · exact absurd (hlater q hq b hb hlt) hbS
    · exact absurd hslot hbS
    · exact .inr (hdone slot hgt hon)

/-- A lane may be given up at a slot outside the set. -/
theorem Exact.clear (h : Exact S ops w) (htop : w.lanes.top? q = some slot) (hslot : slot ∉ S) :
    Exact S ops { w with lanes := w.lanes.clear q } :=
  ⟨h.clean.clear fun _ => ⟨slot, (h.clean.top htop).1, hslot, fun _ hj => h.clean.behind htop hj⟩,
    h.length, h.same, h.trailing⟩

/-- A measurement or barrier is erased when all its lanes have come back to it, and they go
on to their next slots. -/
theorem Exact.erase (h : Exact S ops w) {e : Effect} (hop : w.ops[slot]? = some (.effect e))
    (hkind : e.kind = .measure ∨ e.kind = .barrier) (htargets : e.targets ≠ [])
    (htop : ∀ r ∈ others q e ++ [q], w.lanes.top? r = some slot) :
    Exact S ops ⟨w.ops.set slot (erased e), (others q e ++ [q]).foldl Lanes.pop w.lanes⟩ := by
  have hsame := (h.clean.top (htop q (by simp))).2
  have hop' : ops[slot]? = some (.effect e) := hsame.symm.trans hop
  have hlt : slot < w.ops.length := (List.getElem?_eq_some_iff.1 hop).1
  have hdone : ∀ r j, Done ops w.ops r j → Done ops (w.ops.set slot (erased e)) r j :=
    fun r j hd hon => (hd hon).set hsame _
  have htarget : ∀ r, r ∈ others q e ++ [q] ↔ r ∈ e.targets := by
    intro r
    have hq : q ∈ e.targets := by
      obtain ⟨op, hget, hacts⟩ := mem_slotsOn.1 (h.clean.top (htop q (by simp))).1
      cases hget.symm.trans hop'
      exact of_decide_eq_true hacts
    rw [List.mem_append, List.mem_singleton, mem_others]
    constructor
    · rintro (hr | rfl)
      · exact hr.1
      · exact hq
    · intro hr
      by_cases hrq : r = q
      · exact .inr hrq
      · exact .inl ⟨hr, hrq⟩
  refine ⟨h.clean.advance (OrderedSet.nodup_erase_concat _ q) htop (fun r hr => ?_) hdone ?_ fun r _ _ =>
    erased_set hop' hkind hlt, List.length_set.trans h.length, fun j => ?_, fun j hj => ?_⟩
  · obtain ⟨op, hget, hacts⟩ := mem_slotsOn.1 hr
    cases hget.symm.trans hop'
    exact (htarget r).2 (of_decide_eq_true hacts)
  · rintro r ⟨b, hb, hbS, hbehind⟩
    exact ⟨b, hb, hbS, fun j hj => hdone r j (hbehind j hj)⟩
  · by_cases hj : slot = j
    · rw [← hj]
      exact .inr (erased_set hop' hkind hlt)
    · refine (h.same j).imp (fun hold => (List.getElem?_set_ne hj).trans hold) fun hold => ?_
      exact hold.set hsame _
  · -- The slot itself is new in the set; the other ones were in it before.
    by_cases hjs : slot = j
    · subst hjs
      refine ⟨e, hop', hkind, htargets, fun t ht j hj hlt => ?_⟩
      exact hdone t j (h.clean.behind (htop t ((htarget t).2 ht)) hlt) hj
    · obtain ⟨e', hget, hkind', hcur⟩ := hj
      have hold : Erased ops w.ops j :=
        ⟨e', hget, hkind', (List.getElem?_set_ne hjs).symm.trans hcur⟩
      obtain ⟨e'', hget', hkind'', hne, hlater⟩ := h.trailing j hold
      exact ⟨e'', hget', hkind'', hne, fun t ht k hk hjk => (hlater t ht k hk hjk).set hsame _⟩

/-! ## The walk -/

theorem maintains_exact (hflat : ∀ op ∈ ops, op.isCompound = false) (hS : Trailing ops S) :
    Walk.Maintains rule (Exact S ops) := by
  refine ⟨fun {w q slot} hw htop hop => ?_,
    fun {w q slot op} hw htop hop driveTo u v b hnested hu hrun => ?_⟩
  · obtain ⟨hon, hsame⟩ := hw.clean.top htop
    obtain ⟨op, hget, -⟩ := mem_slotsOn.1 hon
    cases hop.symm.trans (hsame.trans hget)
  · have hop' : ops[slot]? = some op := (hw.clean.top htop).2.symm.trans hop
    refine .of_no_halt (halt_rule q op) hu fun hsame => ?_
    rw [← hsame] at hw htop hop
    -- A rule without a plan gives the lane up, so the operation must be outside the set.
    have hidle : rule q op = {} → slot ∉ S →
        Walk.Stepped (Exact S ops) q slot (rule q op) u.1 v.1 b := by
      intro hplan hslot
      rw [hplan] at hrun ⊢
      cases hrun
      exact .idle (hw.clear htop hslot)
    have hother : (∀ e, op ≠ .effect e) → slot ∉ S := by
      intro hne hslot
      obtain ⟨e, hget, -⟩ := hS slot hslot
      exact hne e (Option.some.inj (hop'.symm.trans hget))
    cases op with
    | gate g => exact hidle rfl (hother fun e he => by cases he)
    | conditional cond body => exact hidle rfl (hother fun e he => by cases he)
    | compound children => cases hflat _ (List.mem_of_getElem? hop')
    | effect e =>
      by_cases herase : (e.kind = .measure ∨ e.kind = .barrier) ∧ (!e.targets.isEmpty) = true
      · have hplan : rule q (.effect e) =
            { stages := [⟨others q e, erased e⟩], advance := some (others q e) } := by
          rw [rule, if_pos herase]
          rfl
        have htargets : e.targets ≠ [] := by simpa using herase.2
        rw [hplan] at hrun ⊢
        refine .together hnested hw htop (OrderedSet.nodup_erase_concat _ q) hrun (fun v' hv' hkeeps hback => ?_)
          fun v' hv' hkeeps htops => ?_
        · have hcur : v'.ops[slot]? = some (.effect e) :=
            (hkeeps.ops slot (Nat.lt_succ_self slot)).trans hop
          refine hv'.clear (hkeeps.top htop) fun hslot => ?_
          obtain ⟨r, hr, hbelow⟩ := hback
          rcases hv'.mem_stack hS hop' hslot (mem_others.1 hr).1 with hmem | herased
          · obtain ⟨s, hs, hle⟩ := hv'.clean.le_top hmem
            exact absurd (hbelow s hs) (Nat.not_lt.2 hle)
          · exact not_erased_of_same (hcur.trans hop'.symm) herased
        · exact hv'.erase ((hkeeps.ops slot (Nat.lt_succ_self slot)).trans hop) herase.1 htargets
            htops
      · refine hidle (by rw [rule, if_neg herase]) fun hslot => herase ?_
        obtain ⟨e', hget, hkind, htargets, -⟩ := hS slot hslot
        cases hop'.symm.trans hget
        exact ⟨hkind, by simpa using htargets⟩

/-- At the end of the walk every trailing set has been erased. -/
theorem Exact.erased_of_mem (hS : Trailing ops S) (h : Exact S ops w)
    (hend : ∀ q, w.lanes.stack q = []) (hslot : slot ∈ S) : Erased ops w.ops slot := by
  obtain ⟨e, hop, -, htargets, -⟩ := hS slot hslot
  obtain ⟨t, ht⟩ := List.exists_mem_of_ne_nil _ htargets
  refine (h.mem_stack hS hop hslot ht).resolve_left fun hmem => ?_
  rw [hend t] at hmem
  cases hmem

end FinalMeasurement

/-! ## What is left of the operations -/

namespace Circuit
open Operation FinalMeasurement

/-- Without compounds the measurements and barriers that go are exactly those of the largest
trailing set. Besides them only identities go, and what stays keeps its order. -/
theorem removeFinalMeasurements_exact {c out : Circuit}
    (hflat : ∀ op ∈ c.ops, op.isCompound = false) (h : c.removeFinalMeasurements = .done out) :
    ∃ R : Finset ℕ, IsGreatest {S : Set ℕ | Trailing c.ops S} (R : Set ℕ) ∧
      out.ops = (c.ops.zipIdx.filter fun p => p.2 ∉ R ∧ p.1.isIdentity = false).map (·.1) := by
  obtain ⟨lanes, hlanes, hout⟩ := run_of_removeFinalMeasurements h
  have hend := Walk.stack_run rule ⟨c.ops, lanes⟩
  have hexact : ∀ S, Trailing c.ops S → Exact S c.ops (Walk.run rule ⟨c.ops, lanes⟩) :=
    fun S hS => (maintains_exact hflat hS).run (exact_start hlanes S)
  generalize Walk.run rule ⟨c.ops, lanes⟩ = w at hout hend hexact
  have hempty := hexact ∅ fun _ hi => absurd hi (Set.notMem_empty _)
  let R := (Finset.range c.ops.length).filter fun j => w.ops[j]? ≠ c.ops[j]?
  have hR : ∀ j, j ∈ R ↔ Erased c.ops w.ops j := by
    intro j
    rw [Finset.mem_filter, Finset.mem_range]
    constructor
    · exact fun hj => (hempty.same j).resolve_left hj.2
    · intro hj
      obtain ⟨e, hop, -⟩ := id hj
      exact ⟨(List.getElem?_eq_some_iff.1 hop).1, fun hsame => not_erased_of_same hsame hj⟩
  have hset : (R : Set ℕ) = {j | Erased c.ops w.ops j} := Set.ext hR
  refine ⟨R, ⟨?_, fun S hS j hj => ?_⟩, ?_⟩
  · rw [hset]
    exact hempty.trailing
  · exact (hR j).2 ((hexact S hS).erased_of_mem hS hend hj)
  · have hcases : ∀ j op op', c.ops[j]? = some op → w.ops[j]? = some op' →
        0 + j ∈ R ∧ op'.isIdentity = true ∨ 0 + j ∉ R ∧ op' = op := by
      intro j op op' hop hop'
      rw [Nat.zero_add, hR]
      rcases hempty.same j with hsame | herased
      · exact .inr ⟨not_erased_of_same hsame, Option.some.inj (hop'.symm.trans (hsame.trans hop))⟩
      · obtain ⟨e, -, -, hcur⟩ := id herased
        cases hop'.symm.trans hcur
        exact .inl ⟨herased, rfl⟩
    rw [hout, stripAll_eq_filter, filter_eq_of_same hempty.length hcases]
    intro op hop
    obtain ⟨j, hj⟩ := List.mem_iff_getElem?.1 hop
    rcases hempty.same j with hsame | ⟨e, -, -, hcur⟩
    · exact hflat op (List.mem_of_getElem? (hsame.symm.trans hj))
    · cases hj.symm.trans hcur
      rfl

/-- Qubits 0 and 2 end in a barrier and a joint measurement. On qubit 1 an identity and a
barrier that stays stand behind the measurements. -/
def jointEnding : Circuit :=
  { withSize "jointEnding" 4 4 with
    ops := [.gate (.ofKind .h [⟨0⟩]),
      .effect { kind := .measure, targets := [⟨1⟩], clbits := [⟨0⟩] },
      .gate (.ofKind .i [⟨1⟩]),
      .effect { kind := .barrier, targets := [⟨0⟩, ⟨2⟩] },
      .effect { kind := .measure, targets := [⟨2⟩, ⟨0⟩], clbits := [⟨1⟩, ⟨2⟩] },
      .effect { kind := .measure, targets := [⟨1⟩], clbits := [⟨3⟩] },
      .effect { kind := .barrier, targets := [⟨3⟩, ⟨1⟩] },
      .gate (.ofKind .x [⟨3⟩])] }

theorem removeFinalMeasurements_exact_jointEnding :
    ∃ (out : Circuit) (R : Finset ℕ), jointEnding.removeFinalMeasurements = .done out ∧
      out.ops = [.gate (.ofKind .h [⟨0⟩]),
        .effect { kind := .measure, targets := [⟨1⟩], clbits := [⟨0⟩] },
        .effect { kind := .measure, targets := [⟨1⟩], clbits := [⟨3⟩] },
        .effect { kind := .barrier, targets := [⟨3⟩, ⟨1⟩] },
        .gate (.ofKind .x [⟨3⟩])] ∧
      IsGreatest {S : Set ℕ | Trailing jointEnding.ops S} (R : Set ℕ) ∧
      out.ops =
        (jointEnding.ops.zipIdx.filter fun p => p.2 ∉ R ∧ p.1.isIdentity = false).map (·.1) := by
  have hdone : jointEnding.removeFinalMeasurements = .done { jointEnding with
      ops := [.gate (.ofKind .h [⟨0⟩]),
        .effect { kind := .measure, targets := [⟨1⟩], clbits := [⟨0⟩] },
        .effect { kind := .measure, targets := [⟨1⟩], clbits := [⟨3⟩] },
        .effect { kind := .barrier, targets := [⟨3⟩, ⟨1⟩] },
        .gate (.ofKind .x [⟨3⟩])] } := by
    cbv
  obtain ⟨R, hgreatest, hops⟩ := removeFinalMeasurements_exact (by decide) hdone
  exact ⟨_, R, hdone, rfl, hgreatest, hops⟩

end Circuit
end QuantumCircuit
