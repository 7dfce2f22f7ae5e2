import QuantumCircuit.Proofs.Ordered
import QuantumCircuit.Proofs.Walk.Invariant

/-! The walk that sweeps diagonal gates in front of measurements. A lane starts in front of
the measurement at its end and goes over what has been swept, so behind a gate that is swept
nothing is left on its qubits up to their measurements. A lane is given up at an operation
that cannot go yet, or from another lane, by a negative control on it. -/
namespace QuantumCircuit
namespace Diagonal
open Operation

variable {ops cur cur' : List Operation} {w : Walk} {slot j : Nat} {q r : Qubit}
  {op op' : Operation} {g : Gate}

/-! ## Gates that may be swept -/

/-- The gate of a gate or conditional gate. -/
def gateOf? : Operation → Option Gate
  | .gate g => some g
  | .conditional _ body => body.asGate?
  | _ => none

/-- A diagonal gate without negative controls, perhaps under a condition. -/
def isPhase (op : Operation) : Bool :=
  (gateOf? op).any fun g => g.kind.isDiagonal && g.controls.toList.all Control.isPositive

theorem gateOf?_eq_some_iff : gateOf? op = some g ↔
    op = .gate g ∨ ∃ cond, op = .conditional cond (.gate g) := by
  cases op with
  | gate g' => simp [gateOf?]
  | effect e => simp [gateOf?]
  | compound children => simp [gateOf?]
  | conditional cond body => cases body <;> simp [gateOf?, asGate?]

theorem rule_of_gateOf? (h : gateOf? op = some g) (q : Qubit) : rule q op = gatePlan q op g := by
  rcases gateOf?_eq_some_iff.1 h with rfl | ⟨cond, rfl⟩ <;> rfl

theorem actsOn_of_gateOf? (h : gateOf? op = some g) (r : Qubit) : op.actsOn r = g.actsOn r := by
  rcases gateOf?_eq_some_iff.1 h with rfl | ⟨cond, rfl⟩ <;> rfl

theorem leaves_of_gateOf? (h : gateOf? op = some g) : op.leaves = [op] := by
  rcases gateOf?_eq_some_iff.1 h with rfl | ⟨cond, rfl⟩ <;> rfl

theorem leaves_retag_of_gateOf? (h : gateOf? op = some g) :
    (op.retag .i).leaves = [op.retag .i] := by
  rcases gateOf?_eq_some_iff.1 h with rfl | ⟨cond, rfl⟩ <;> rfl

theorem isPhase_iff (h : gateOf? op = some g) :
    isPhase op = true ↔ g.kind.isDiagonal = true ∧ ∀ c ∈ g.controls, c.isPositive = true := by
  rw [isPhase, h, Option.any_some, Bool.and_eq_true, List.all_eq_true]
  rfl

theorem isIdentity_retag (h : isPhase op = true) : (op.retag .i).isIdentity = true := by
  cases hg : gateOf? op with
  | none =>
    rw [isPhase, hg] at h
    cases h
  | some g => rcases gateOf?_eq_some_iff.1 hg with rfl | ⟨cond, rfl⟩ <;> rfl

/-! ## Slots -/

/-- The last operation on the qubit is a measurement, at slot `m`. -/
def Ends (ops : List Operation) (q : Qubit) (m : Nat) : Prop :=
  (slotsOn q 0 ops).getLast? = some m ∧ ∃ op, ops[m]? = some op ∧ op.isMeasure = true

/-- A slot in front of the measurement at the end of the lane. -/
def Listed (ops : List Operation) (q : Qubit) (j : Nat) : Prop :=
  j ∈ slotsOn q 0 ops ∧ ∃ m, Ends ops q m ∧ j < m

/-- All leaves at the slot were diagonal gates and have become identities. -/
def Swept (ops cur : List Operation) (j : Nat) : Prop :=
  ∃ op op', ops[j]? = some op ∧ cur[j]? = some op' ∧ (∀ a ∈ op.leaves, isPhase a = true) ∧
    op'.leaves = op.leaves.map (retag .i)

/-- What stands at the slot has been swept, if the lane has it and does not end in it. -/
def Done (ops cur : List Operation) (q : Qubit) (j : Nat) : Prop :=
  j ∈ slotsOn q 0 ops → (slotsOn q 0 ops).getLast? ≠ some j → Swept ops cur j

/-- The lane ends in a measurement, and all that it has in front of that and behind the slot
has been swept. -/
def Cleared (ops cur : List Operation) (q : Qubit) (slot : Nat) : Prop :=
  ∃ m, Ends ops q m ∧ slot < m ∧ ∀ j ∈ slotsOn q 0 ops, slot < j → j < m → Swept ops cur j

/-- A diagonal gate on this qubit alone. -/
def AloneOn (q : Qubit) (g : Gate) : Prop :=
  g.kind.isDiagonal = true ∧ g.controls = ∅ ∧ g.targets = [q]

/-- No diagonal gate on this qubit alone stands at the slot. -/
def Stuck (ops : List Operation) (q : Qubit) (b : Nat) : Prop :=
  ∀ g, ops[b]? = some (.gate g) → ¬ AloneOn q g

/-- Another lane has come back to a diagonal gate that has a negative control on the qubit. -/
def Halted (ops cur : List Operation) (q : Qubit) : Prop :=
  ∃ n op g, ops[n]? = some op ∧ gateOf? op = some g ∧ g.kind.isDiagonal = true ∧
    .neg q ∈ g.controls ∧ ∃ r, r ≠ q ∧ g.actsOn r = true ∧ Cleared ops cur r n

/-- Why a lane is not walked any further. -/
inductive GaveUp (ops cur : List Operation) (q : Qubit) : Prop where
  | unmeasured (h : ∀ m, ¬ Ends ops q m)
  | stuck {b : Nat} (listed : Listed ops q b) (stuck : Stuck ops q b)
      (behind : ∀ j, b < j → Done ops cur q j)
  | halted (h : Halted ops cur q)

theorem le_of_getLast? {m : Nat} (h : (slotsOn q 0 ops).getLast? = some m)
    (hj : j ∈ slotsOn q 0 ops) : j ≤ m := by
  obtain ⟨m', hm', hle⟩ := le_getLast?_of_ascending (f := fun s => s) (sorted_slotsOn q 0 ops) hj
  cases h.symm.trans hm'
  exact hle

theorem Ends.ne_getLast? {m : Nat} (h : Ends ops q m) (hj : j < m) :
    (slotsOn q 0 ops).getLast? ≠ some j := by
  rw [h.1]
  exact fun heq => Nat.ne_of_gt hj (Option.some.inj heq)

section mono
variable (hmono : ∀ j, Swept ops cur j → Swept ops cur' j)
include hmono

theorem Done.mono (h : Done ops cur q j) : Done ops cur' q j :=
  fun hj hlast => hmono j (h hj hlast)

theorem Cleared.mono (h : Cleared ops cur q slot) : Cleared ops cur' q slot := by
  obtain ⟨m, hends, hlt, hall⟩ := h
  exact ⟨m, hends, hlt, fun j hj hsj hjm => hmono j (hall j hj hsj hjm)⟩

theorem GaveUp.mono (h : GaveUp ops cur q) : GaveUp ops cur' q := by
  cases h with
  | unmeasured h => exact .unmeasured h
  | stuck listed stuck behind => exact .stuck listed stuck fun j hj => (behind j hj).mono hmono
  | halted h =>
    obtain ⟨n, op, g, hop, hg, hdiag, hneg, r, hr, hacts, hcleared⟩ := h
    exact .halted ⟨n, op, g, hop, hg, hdiag, hneg, r, hr, hacts, hcleared.mono hmono⟩

end mono

/-! ## The invariant -/

/-- The last leaves of an operation have become identities. -/
def SweepsTo (op op' : Operation) (removed : List Operation) : Prop :=
  ∃ kept, op.leaves = kept ++ removed ∧ op'.leaves = kept ++ removed.map (retag .i)

/-- A walk over the given operations that has only swept what it may. -/
structure Inv (ops : List Operation) (w : Walk) : Prop where
  clean : Walk.Clean ops (Listed ops) (Done ops) (GaveUp ops) w
  length : w.ops.length = ops.length
  swept : ∀ {slot : Nat} {op op' : Operation}, ops[slot]? = some op → w.ops[slot]? = some op' →
    ∃ removed, SweepsTo op op' removed ∧ ∀ a ∈ removed, isPhase a = true ∧
      ∀ p, a.actsOn p = true → Cleared ops w.ops p slot

theorem stack_start {c : Circuit} {pass : String} {lanes : Lanes}
    (h : Lanes.build c pass = .ok lanes) (q : Qubit) :
    Lanes.stack ⟨lanes.rows.map (start c.ops)⟩ q = start c.ops (slotsOn q 0 c.ops).reverse := by
  rw [← Lanes.stack_build h, Lanes.stack, List.getElem?_map, Lanes.stack]
  cases lanes.rows[q.index]? <;> rfl

/-- A lane ends in a measurement and starts in front of it, or it is not walked. -/
theorem start_cases (ops : List Operation) (q : Qubit) :
    (∃ m, Ends ops q m ∧
      slotsOn q 0 ops = (start ops (slotsOn q 0 ops).reverse).reverse ++ [m]) ∨
    start ops (slotsOn q 0 ops).reverse = [] ∧ ∀ m, ¬ Ends ops q m := by
  cases hrow : (slotsOn q 0 ops).reverse with
  | nil =>
    refine .inr ⟨rfl, fun m hm => ?_⟩
    rw [List.reverse_eq_nil_iff] at hrow
    have hlast := hm.1
    rw [hrow] at hlast
    cases hlast
  | cons last rest =>
    have hcut : slotsOn q 0 ops = rest.reverse ++ [last] := by
      rw [← List.reverse_reverse (slotsOn q 0 ops), hrow, List.reverse_cons]
    have hlast : (slotsOn q 0 ops).getLast? = some last := by
      rw [hcut, List.getLast?_concat]
    obtain ⟨op, hop, -⟩ := mem_slotsOn.1 (List.mem_of_getLast? hlast)
    rw [start, hop, Option.map_some, Option.getD_some]
    by_cases hmeasure : op.isMeasure = true
    · rw [if_pos hmeasure]
      exact .inl ⟨last, ⟨hlast, op, hop, hmeasure⟩, hcut⟩
    · rw [if_neg hmeasure]
      refine .inr ⟨rfl, fun m hm => hmeasure ?_⟩
      obtain ⟨hm, op', hop', hmeasure'⟩ := hm
      cases hlast.symm.trans hm
      cases hop.symm.trans hop'
      exact hmeasure'

theorem inv_start {c : Circuit} {pass : String} {lanes : Lanes}
    (h : Lanes.build c pass = .ok lanes) :
    Inv c.ops ⟨c.ops, ⟨lanes.rows.map (start c.ops)⟩⟩ := by
  refine ⟨⟨fun q => ?_, fun {q j} hj => ?_, fun q => ?_⟩, rfl, fun {slot op op'} hop hop' => ?_⟩
  · show (Lanes.stack _ q).Pairwise _
    rw [stack_start h]
    rcases start_cases c.ops q with ⟨m, -, hcut⟩ | ⟨hnil, -⟩
    · have hsorted := sorted_slotsOn q 0 c.ops
      rw [hcut, List.pairwise_append, List.pairwise_reverse] at hsorted
      exact hsorted.1
    · rw [hnil]
      exact .nil
  · have hj' : j ∈ Lanes.stack ⟨lanes.rows.map (start c.ops)⟩ q := hj
    rw [stack_start h] at hj'
    refine ⟨?_, rfl⟩
    rcases start_cases c.ops q with ⟨m, hends, hcut⟩ | ⟨hnil, -⟩
    · have hsorted := sorted_slotsOn q 0 c.ops
      rw [hcut, List.pairwise_append] at hsorted
      refine ⟨?_, m, hends, hsorted.2.2 j (List.mem_reverse.2 hj') m (List.mem_singleton_self m)⟩
      rw [hcut]
      exact List.mem_append_left _ (List.mem_reverse.2 hj')
    · rw [hnil] at hj'
      cases hj'
  · show (∀ j, j ∉ Lanes.stack _ q → _) ∨ Lanes.stack _ q = [] ∧ _
    rw [stack_start h]
    rcases start_cases c.ops q with ⟨m, hends, hcut⟩ | ⟨hnil, hunmeasured⟩
    · refine .inl fun j hj hon hlast => absurd hends.1 ?_
      rw [hcut] at hon
      rcases List.mem_append.1 hon with hon | hon
      · exact absurd (List.mem_reverse.1 hon) hj
      · rwa [← List.mem_singleton.1 hon]
    · exact .inr ⟨hnil, .unmeasured hunmeasured⟩
  · cases hop.symm.trans hop'
    exact ⟨[], ⟨op.leaves, by simp⟩, fun a ha => absurd ha List.not_mem_nil⟩

/-- A lane that has come back to a slot is cleared behind it. -/
theorem Inv.cleared (h : Inv ops w) (htop : w.lanes.top? q = some slot) :
    Cleared ops w.ops q slot := by
  obtain ⟨-, m, hends, hlt⟩ := (h.clean.top htop).1
  exact ⟨m, hends, hlt, fun j hj hsj hjm =>
    h.clean.behind htop hsj hj (hends.ne_getLast? hjm)⟩

/-- A lane may be given up where no diagonal gate on its qubit alone stands. -/
theorem Inv.giveUp (h : Inv ops w) (htop : w.lanes.top? q = some slot)
    (hstuck : Stuck ops q slot) : Inv ops { w with lanes := w.lanes.clear q } :=
  ⟨h.clean.clear fun _ => .stuck (h.clean.top htop).1 hstuck fun _ hj => h.clean.behind htop hj,
    h.length, h.swept⟩

/-- What has been swept stays so when another slot, or the same one, is swept. -/
theorem Swept.set {removed : List Operation} (h : Swept ops cur j)
    (hfresh : cur[slot]? = some op) (hop : ops[slot]? = some op)
    (hsweep : SweepsTo op op' removed) : Swept ops (cur.set slot op') j := by
  obtain ⟨o, o', ho, ho', hphase, hmap⟩ := h
  by_cases hj : slot = j
  · subst hj
    cases hop.symm.trans ho
    cases hfresh.symm.trans ho'
    obtain ⟨kept, hleaves, hleaves'⟩ := hsweep
    refine ⟨op, op', hop, List.getElem?_set_self (List.getElem?_eq_some_iff.1 hfresh).1, hphase, ?_⟩
    have hkept : kept = kept.map (retag .i) := by
      rw [hleaves, List.map_append] at hmap
      exact (List.append_inj hmap (List.length_map ..).symm).1
    rw [hleaves, List.map_append, ← hkept, hleaves']
  · exact ⟨o, o', ho, (List.getElem?_set_ne hj).trans ho', hphase, hmap⟩

theorem Inv.write {removed : List Operation} (h : Inv ops w) (hfresh : w.ops[slot]? = some op)
    (hop : ops[slot]? = some op) (hsweep : SweepsTo op op' removed)
    (hremoved : ∀ a ∈ removed, isPhase a = true ∧ ∀ p, a.actsOn p = true →
      Cleared ops w.ops p slot) {lanes : Lanes}
    (hclean : Walk.Clean ops (Listed ops) (Done ops) (GaveUp ops) ⟨w.ops.set slot op', lanes⟩) :
    Inv ops ⟨w.ops.set slot op', lanes⟩ := by
  have hmono : ∀ j, Swept ops w.ops j → Swept ops (w.ops.set slot op') j :=
    fun j hj => hj.set hfresh hop hsweep
  have hmono' : ∀ {p s}, Cleared ops w.ops p s → Cleared ops (w.ops.set slot op') p s :=
    fun hc => hc.mono hmono
  refine ⟨hclean, List.length_set.trans h.length, fun {s o o'} ho ho' => ?_⟩
  rcases getElem?_set_cases ho' with ⟨rfl, rfl⟩ | ⟨-, ho'⟩
  · cases hop.symm.trans ho
    exact ⟨removed, hsweep, fun a ha =>
      ⟨(hremoved a ha).1, fun p hp => hmono' ((hremoved a ha).2 p hp)⟩⟩
  · obtain ⟨removed', hsweep', hremoved'⟩ := h.swept ho ho'
    exact ⟨removed', hsweep', fun a ha =>
      ⟨(hremoved' a ha).1, fun p hp => hmono' ((hremoved' a ha).2 p hp)⟩⟩

end Diagonal
end QuantumCircuit
