import Mathlib
import QuantumCircuit.Proofs.FinalMeasurement.Removal

/-! Final measurements inside compounds. A measurement takes everything along that stands
behind it on its qubits in later operations. Within its own compound this holds only of the
children that start on the same qubit: each lane strips the children that start on it, the
last one first, and does not wait for those of the other lanes. -/
namespace QuantumCircuit
namespace FinalMeasurement
open Operation

variable {as bs ops children : List Operation} {w : Walk} {q : Qubit} {slot k : ℕ}

/-! ## The order within an operation -/

/-- The leaf at the position has become an identity. -/
def Gone (bs : List Operation) (i : ℕ) : Prop := ∃ b, bs[i]? = some b ∧ b.isIdentity = true

/-- Of the leaves that start on one qubit the later ones go before the earlier ones. -/
structure LastFirst (as bs : List Operation) : Prop where
  targets : bs.map Operation.targets = as.map Operation.targets
  gone : ∀ {i j : ℕ} {a b : Operation}, i < j → as[i]? = some a → as[j]? = some b →
    a.isIdentity = false → a.targets.head? = b.targets.head? → Gone bs i → Gone bs j

theorem LastFirst.refl (as : List Operation) : LastFirst as as := by
  refine ⟨rfl, fun {i j a b} _ hi _ hid _ hgone => ?_⟩
  obtain ⟨a', hi', hid'⟩ := hgone
  cases hi.symm.trans hi'
  rw [hid] at hid'
  cases hid'

theorem LastFirst.exists_leaf (h : LastFirst as bs) {i : ℕ} {a : Operation}
    (hi : as[i]? = some a) : ∃ b, bs[i]? = some b ∧ b.targets = a.targets := by
  have hget := congrArg (·[i]?) h.targets
  simp only [List.getElem?_map, hi, Option.map_some] at hget
  exact Option.map_eq_some_iff.1 hget

/-- A leaf may go when none behind it that starts on its first qubit is left. -/
theorem LastFirst.set (h : LastFirst as bs) {e : Effect} (hk : bs[k]? = some (.effect e))
    (hq : e.targets.head? = some q)
    (hlater : ∀ j b, k < j → bs[j]? = some b → b.targets.head? = some q → b.isIdentity = true) :
    LastFirst as (bs.set k (erased e)) := by
  have hlt : k < bs.length := (List.getElem?_eq_some_iff.1 hk).1
  refine ⟨?_, fun {i j a b} hij hi hj hid hhead hgone => ?_⟩
  · have hsame : (bs.map Operation.targets)[k]? = some (erased e).targets := by
      rw [List.getElem?_map, hk]
      rfl
    obtain ⟨_, hget⟩ := List.getElem?_eq_some_iff.1 hsame
    rw [List.map_set, ← h.targets, ← hget, List.set_getElem_self]
  · by_cases hjk : k = j
    · exact ⟨erased e, by rw [← hjk, List.getElem?_set_self hlt], rfl⟩
    · obtain ⟨b', hb', htargets⟩ := h.exists_leaf hj
      suffices hgone' : Gone bs j by
        obtain ⟨c, hc, hcid⟩ := hgone'
        exact ⟨c, (List.getElem?_set_ne hjk).trans hc, hcid⟩
      by_cases hik : k = i
      · subst hik
        obtain ⟨a', ha', htargets'⟩ := h.exists_leaf hi
        cases hk.symm.trans ha'
        refine ⟨b', hb', hlater j b' hij hb' ?_⟩
        rw [htargets, ← hhead, ← htargets']
        exact hq
      · obtain ⟨a', ha', hid'⟩ := hgone
        exact h.gone hij hi hj hid hhead ⟨a', (List.getElem?_set_ne hik).symm.trans ha', hid'⟩

theorem isIdentity_of_not_startsOn {b : Operation} (hlike : isMeasurementLike b = true)
    (hstarts : startsOn q b = false) (hq : b.targets.head? = some q) : b.isIdentity = true := by
  obtain ⟨e, rfl, -⟩ := isMeasurementLike_iff.1 hlike
  have hhead : decide ((Operation.effect e).targets.head? = some q) = true := decide_eq_true hq
  rw [startsOn, hhead, Bool.and_true] at hstarts
  exact decide_eq_true (not_not.1 (of_decide_eq_false hstarts))

/-- The stages of a lane strip its children from the back. -/
theorem lastFirst_childStages (hlike : ∀ child ∈ children, isMeasurementLike child = true)
    (hlater : ∀ j b, k ≤ j → children[j]? = some b → startsOn q b = false)
    (h : LastFirst as children) :
    ∀ stage ∈ childStages q (List.range k).reverse children,
      LastFirst as stage.result.leaves := by
  induction k generalizing children with
  | zero => exact fun stage hstage => absurd hstage List.not_mem_nil
  | succ k ih =>
    rw [List.range_succ, List.reverse_append, List.reverse_singleton, List.singleton_append]
    by_cases hstarts : ∃ child, children[k]? = some child ∧ startsOn q child = true
    · obtain ⟨child, hk, hstarts⟩ := hstarts
      have hmem := List.mem_of_getElem? hk
      obtain ⟨e, rfl, -⟩ := isMeasurementLike_iff.1 (hlike child hmem)
      have hhead : e.targets.head? = some q := by
        rw [startsOn, Bool.and_eq_true] at hstarts
        exact of_decide_eq_true hstarts.2
      have hlike' : ∀ child ∈ children.set k (erased e), isMeasurementLike child = true := by
        intro child hchild
        rcases List.mem_or_eq_of_mem_set hchild with hchild | rfl
        · exact hlike child hchild
        · rfl
      have hset : LastFirst as (children.set k (erased e)) :=
        h.set hk hhead fun j b hj hb hbq =>
          isIdentity_of_not_startsOn (hlike b (List.mem_of_getElem? hb)) (hlater j b hj hb) hbq
      have hstages : childStages q (k :: (List.range k).reverse) children =
          ⟨others q e, .compound (children.set k (erased e))⟩ ::
            childStages q (List.range k).reverse (children.set k (erased e)) := by
        simp only [childStages, hk, hstarts, if_true]
        rfl
      intro stage hstage
      rw [hstages] at hstage
      rcases List.mem_cons.1 hstage with rfl | hstage
      · rw [leaves_compound_of_like hlike']
        exact hset
      · refine ih hlike' (fun j b hj hb => ?_) hset stage hstage
        rcases getElem?_set_cases hb with ⟨-, rfl⟩ | ⟨hne, hb⟩
        · rfl
        · exact hlater j b (Nat.lt_of_le_of_ne hj hne) hb
    · have hskip : ∀ child, children[k]? = some child → startsOn q child = false :=
        fun child hk => Bool.eq_false_iff.2 fun hs => hstarts ⟨child, hk, hs⟩
      rw [childStages_skip _ hskip]
      refine ih hlike (fun j b hj hb => ?_) h
      rcases Nat.eq_or_lt_of_le hj with rfl | hj
      · exact hskip b hb
      · exact hlater j b hj hb

theorem lastFirst_stages (q : Qubit) (op : Operation) (h : LastFirst as op.leaves) :
    ∀ stage ∈ (rule q op).stages, LastFirst as stage.result.leaves := by
  cases op with
  | gate g => exact fun stage hstage => absurd hstage List.not_mem_nil
  | conditional cond body => exact fun stage hstage => absurd hstage List.not_mem_nil
  | compound children =>
    rw [rule]
    split
    · next hall =>
      have hlike := List.all_eq_true.1 hall
      rw [leaves_compound_of_like hlike] at h
      refine lastFirst_childStages hlike (fun j b hj hb => ?_) h
      rw [List.getElem?_eq_none hj] at hb
      cases hb
    · exact fun stage hstage => absurd hstage List.not_mem_nil
  | effect e =>
    rw [rule]
    split
    · next herase =>
      intro stage hstage
      rw [List.mem_singleton.1 hstage]
      obtain ⟨q', hq'⟩ : ∃ q', e.targets.head? = some q' := by
        cases htargets : e.targets with
        | nil => simp [htargets] at herase
        | cons q' rest => exact ⟨q', rfl⟩
      refine h.set (k := 0) rfl hq' fun j b hj hb _ => ?_
      have hnone : [Operation.effect e][j]? = none := List.getElem?_eq_none hj
      cases hb.symm.trans hnone
    · exact fun stage hstage => absurd hstage List.not_mem_nil

/-- In the whole walk the leaves of an operation go in this order. -/
theorem lastFirst_run (lanes : Lanes) {op op' : Operation} (hop : ops[slot]? = some op)
    (hop' : (Walk.run rule ⟨ops, lanes⟩).ops[slot]? = some op') :
    LastFirst op.leaves op'.leaves := by
  have hrun : Walk.Everywhere (fun slot op' => ∀ op, ops[slot]? = some op →
      LastFirst op.leaves op'.leaves) (Walk.run rule ⟨ops, lanes⟩) := by
    refine Walk.everywhere_run (fun q slot op' h stage hstage op hop => ?_)
      fun slot op' hop' op hop => ?_
    · exact lastFirst_stages q op' (h op hop) stage hstage
    · cases hop.symm.trans hop'
      exact .refl _
  exact hrun slot op' hop' op hop

/-! ## Marks -/

theorem pairwise_marks {op op' : Operation} (h : LastFirst op.leaves op'.leaves) :
    (marks op op').Pairwise fun a b => a.1.targets.head? = b.1.targets.head? →
      TakesAlong a b := by
  rw [List.pairwise_iff_getElem]
  intro i j hi hj hij
  simp only [marks, List.length_zipWith, Nat.lt_min] at hi hj
  simp only [marks, List.getElem_zipWith, TakesAlong]
  intro hhead hgone hid t _ _
  obtain ⟨b, hb, hbid⟩ := h.gone hij (List.getElem?_eq_getElem hi.1) (List.getElem?_eq_getElem hj.1)
    hid hhead ⟨_, List.getElem?_eq_getElem hi.2, hgone⟩
  cases (List.getElem?_eq_getElem hj.2).symm.trans hb
  exact hbid

end FinalMeasurement

namespace Circuit
open Operation FinalMeasurement

/-- The marks stand in one list for each operation. What goes are identities, measurements
and barriers. A measurement or barrier that goes takes everything along that stands behind it
on its qubits in later operations, and within its own compound what starts on the same qubit.
So it takes along everything behind it if in no compound two effects share a qubit and start
on different ones. -/
theorem removeFinalMeasurements_takes_along {c out : Circuit}
    (h : c.removeFinalMeasurements = .done out) :
    ∃ marked : List (List (Operation × Bool)),
      marked.map (·.map (·.1)) = c.ops.map leaves ∧
      leavesOfAll out.ops = (marked.flatten.filter (!·.2)).map (·.1) ∧
      (∀ m ∈ marked.flatten, (m.1.isIdentity = true → m.2 = true) ∧
        (m.2 = true → m.1.isIdentity = true ∨
          ∃ e, m.1 = .effect e ∧ (e.kind = .measure ∨ e.kind = .barrier))) ∧
      marked.Pairwise (fun as bs => ∀ a ∈ as, ∀ b ∈ bs, TakesAlong a b) ∧
      (∀ ms ∈ marked, ms.Pairwise fun a b => a.1.targets.head? = b.1.targets.head? →
        TakesAlong a b) ∧
      ((∀ op ∈ c.ops, op.leaves.Pairwise fun a b => a.isEffect = true → b.isEffect = true →
          ∀ t, a.actsOn t = true → b.actsOn t = true → a.targets.head? = b.targets.head?) →
        marked.flatten.Pairwise TakesAlong) := by
  obtain ⟨lanes, hlanes, hout⟩ := run_of_removeFinalMeasurements h
  have hinv : Inv c.ops (Walk.run rule ⟨c.ops, lanes⟩) := inv_run (inv_start hlanes)
  have hlast : ∀ {i : ℕ} {op op' : Operation}, c.ops[i]? = some op →
      (Walk.run rule ⟨c.ops, lanes⟩).ops[i]? = some op' → LastFirst op.leaves op'.leaves :=
    lastFirst_run lanes
  generalize Walk.run rule ⟨c.ops, lanes⟩ = w at hout hinv hlast
  have hwithin : ∀ ms ∈ List.zipWith marks c.ops w.ops,
      ms.Pairwise fun a b => a.1.targets.head? = b.1.targets.head? → TakesAlong a b := by
    intro ms hms
    obtain ⟨i, op, op', hop, hop', rfl⟩ := exists_of_mem_zipWith_marks hms
    exact pairwise_marks (hlast hop hop')
  refine ⟨_, map_marks hinv.fadeAll, ?_, fun m hm => hinv.cause_of_mark hm,
    hinv.pairwise_takesAlong, hwithin, fun hshare => ?_⟩
  · rw [hout, leavesOfAll_stripAll_marks hinv.fadeAll]
  · refine List.pairwise_flatten.2 ⟨fun ms hms => ?_, hinv.pairwise_takesAlong⟩
    obtain ⟨i, op, op', hop, hop', rfl⟩ := exists_of_mem_zipWith_marks hms
    have hheads := hshare op (List.mem_of_getElem? hop)
    rw [← map_fst_zipWith_fades (hinv.forall₂_marked hop hop' |>.imp fun _ _ => Marked.fades),
      List.pairwise_map] at hheads
    refine ((hwithin _ hms).and hheads).imp_of_mem ?_
    intro a b ha hb hab hgone hid t hat hbt
    have heffect := hinv.isEffect_of_gone hop hop' ha hgone hid
    exact hab.1 (hab.2 (heffect a ha) (heffect b hb) t hat hbt) hgone hid t hat hbt

/-- A compound of a measurement and a barrier that start on the same qubit, in front of a
measurement of the other one. -/
def sharedEnding : Circuit :=
  { withSize "sharedEnding" 2 2 with
    ops := [.gate (.ofKind .h [⟨1⟩]),
      .compound [.effect { kind := .measure, targets := [⟨0⟩], clbits := [⟨0⟩] },
        .effect { kind := .barrier, targets := [⟨0⟩, ⟨1⟩] }],
      .effect { kind := .measure, targets := [⟨1⟩], clbits := [⟨1⟩] }] }

theorem removeFinalMeasurements_takes_along_sharedEnding :
    ∃ (out : Circuit) (marked : List (List (Operation × Bool))),
      sharedEnding.removeFinalMeasurements = .done out ∧
      out.ops = [.gate (.ofKind .h [⟨1⟩])] ∧
      marked.map (·.map (·.1)) = sharedEnding.ops.map leaves ∧
      leavesOfAll out.ops = (marked.flatten.filter (!·.2)).map (·.1) ∧
      marked.flatten.Pairwise TakesAlong := by
  have hdone : sharedEnding.removeFinalMeasurements =
      .done { sharedEnding with ops := [.gate (.ofKind .h [⟨1⟩])] } := by
    cbv
  have hheads : ∀ op ∈ sharedEnding.ops, op.leaves.Pairwise fun a b => a.isEffect = true →
      b.isEffect = true → a.targets.head? = b.targets.head? := by
    decide
  obtain ⟨marked, hall, hkept, -, -, -, hflat⟩ := removeFinalMeasurements_takes_along hdone
  exact ⟨_, marked, hdone, rfl, hall, hkept,
    hflat fun op hop => (hheads op hop).imp fun hsame ha hb _ _ _ => hsame ha hb⟩

/-- A qubit is measured alone and then together with another one, in one compound, before
the other one goes on. -/
def measuredTwice : Circuit :=
  { withSize "measuredTwice" 2 3 with
    ops := [.compound [.effect { kind := .measure, targets := [⟨0⟩], clbits := [⟨0⟩] },
        .effect { kind := .measure, targets := [⟨1⟩, ⟨0⟩], clbits := [⟨1⟩, ⟨2⟩] }],
      .gate (.ofKind .x [⟨1⟩])] }

/-- The first measurement goes, though the second one stays behind it on the same qubit. -/
theorem removeFinalMeasurements_measuredTwice :
    measuredTwice.removeFinalMeasurements = .done { measuredTwice with
      ops := [.effect { kind := .measure, targets := [⟨1⟩, ⟨0⟩], clbits := [⟨1⟩, ⟨2⟩] },
        .gate (.ofKind .x [⟨1⟩])] } := by
  cbv

end Circuit
end QuantumCircuit
