import QuantumCircuit.Proofs.Walk

/-! Invariants of walks from the back. A step is looked at once, with what its nested walks
keep; that the whole walk keeps the invariant follows, and at its end no lane is left. The
second part is what walks have in common that go over a slot only when they are done with
it. -/
namespace QuantumCircuit
namespace Walk
variable {rule : Rule} {inv : Walk → Prop} {w : Walk} {q : Qubit} {slot : Nat}

/-! ## Lanes at the end -/

/-- A walk down to a bound does not end above it. -/
theorem top_drive (rule : Rule) (bound : Option Nat) (q : Qubit) (w : Walk) :
    ∀ s, (drive rule bound q w).1.lanes.top? q = some s → Lanes.isAbove bound s = false := by
  have hclear : ∀ (w : Walk) (q : Qubit) (s : Nat), (w.lanes.clear q).top? q ≠ some s := by
    simp [Lanes.top?]
  refine drive_induction (P := fun bound q _ w' => ∀ s, w'.lanes.top? q = some s →
    Lanes.isAbove bound s = false) id ?_ ?_ bound q w
  · exact fun _ _ _ s hs => absurd hs (hclear _ _ s)
  · exact fun _ _ _ _ _ _ _ _ => ⟨fun _ s hs => absurd hs (hclear _ _ s), fun _ _ _ _ hw' => hw'⟩

theorem stack_eq_nil_of_within {l m : Lanes} (h : l.Within m) (hq : m.stack q = []) :
    l.stack q = [] := by
  have hsuffix := h.2 q
  rw [hq] at hsuffix
  exact List.suffix_nil.1 hsuffix

theorem stack_drive_none (rule : Rule) (q : Qubit) (w : Walk) :
    (drive rule none q w).1.lanes.stack q = [] := by
  cases hstack : (drive rule none q w).1.lanes.stack q with
  | nil => rfl
  | cons s rest =>
    have habove := top_drive rule none q w s (by rw [Lanes.top?, hstack]; rfl)
    cases habove

theorem foldl_drive_within (rule : Rule) (is : List Nat) (w : Walk) :
    (is.foldl (fun w i => (drive rule none ⟨i⟩ w).1) w).lanes.Within w.lanes := by
  induction is generalizing w with
  | nil => exact .refl _
  | cons i rest ih => exact (ih _).trans (drive rule none ⟨i⟩ w).2

/-- After the walk on all lanes none has a slot left. -/
theorem stack_run (rule : Rule) (w : Walk) (q : Qubit) : (run rule w).lanes.stack q = [] := by
  rw [run]
  by_cases hq : q.index < w.lanes.count
  · obtain ⟨before, after, hsplit⟩ := List.append_of_mem (List.mem_range.2 hq)
    rw [hsplit, List.foldl_append, List.foldl_cons]
    exact stack_eq_nil_of_within (foldl_drive_within rule after _) (stack_drive_none rule q _)
  · refine stack_eq_nil_of_within (foldl_drive_within rule _ w) ?_
    rw [Lanes.stack, List.getElem?_eq_none (Nat.le_of_not_lt hq)]
    rfl

/-! ## What a step keeps, the walk keeps -/

/-- Nested walks down to a slot keep the invariant, the operations up to the slot and the
lanes that have come back to it, and their own lane does not stay above it. -/
def Nested (inv : Walk → Prop) (slot : Nat) (driveTo : Qubit → w.After → w.After) : Prop :=
  ∀ r u, inv u.1 → inv (driveTo r u).1 ∧ Keeps (slot + 1) (slot + 1) u.1 (driveTo r u).1 ∧
    ∀ s, (driveTo r u).1.lanes.top? r = some s → s ≤ slot

/-- After the stages of a step on the lane of `q` the invariant holds again as soon as the
lane is given up, or else the lanes that move on have left the slot. -/
structure Stepped (inv : Walk → Prop) (q : Qubit) (slot : Nat) (plan : Plan) (w v : Walk)
    (b : Bool) : Prop where
  keeps : Keeps slot slot w v
  stopped : (b = true → plan.advance = none) → inv { v with lanes := v.lanes.clear q }
  moved : b = true → ∀ rs, plan.advance = some rs →
    (∀ r ∈ rs ++ [q], v.lanes.top? r = some slot) ∧
      (rs ++ [q]).Nodup ∧ inv { v with lanes := (rs ++ [q]).foldl Lanes.pop v.lanes }

/-- The steps of the rule keep the invariant. -/
structure Maintains (rule : Rule) (inv : Walk → Prop) : Prop where
  lost : ∀ {w : Walk} {q : Qubit} {slot : Nat}, inv w → w.lanes.top? q = some slot →
    w.ops[slot]? = none → inv { w with lanes := w.lanes.clear q }
  step : ∀ {w : Walk} {q : Qubit} {slot : Nat} {op : Operation}, inv w →
    w.lanes.top? q = some slot → w.ops[slot]? = some op →
    ∀ {driveTo : Qubit → w.After → w.After} {u v : w.After} {b : Bool},
    Nested inv slot driveTo →
    u.1 = { w with lanes := (rule q op).halt.foldl Lanes.clear w.lanes } →
    runStages driveTo slot (rule q op).stages u = (v, b) →
    Stepped inv q slot (rule q op) w v.1 b

/-- Where no lane is halted, the stages start from the walk as it is. -/
theorem Stepped.of_no_halt {plan : Plan} {u v : w.After} {b : Bool} (hhalt : plan.halt = [])
    (hu : u.1 = { w with lanes := plan.halt.foldl Lanes.clear w.lanes })
    (h : u.1 = w → Stepped inv q slot plan u.1 v.1 b) : Stepped inv q slot plan w v.1 b := by
  have hsame : u.1 = w := by
    rw [hu, hhalt]
    rfl
  have hstep := h hsame
  rwa [hsame] at hstep

/-- Where there is no plan, the lane is given up. -/
theorem Stepped.idle {b : Bool} (h : inv { w with lanes := w.lanes.clear q }) :
    Stepped inv q slot {} w w b :=
  ⟨.refl _ _ _, fun _ => h, fun _ _ hrs => by cases hrs⟩

theorem keeps_clear {n : Nat} (hq : ∀ s, w.lanes.top? q = some s → n ≤ s) :
    Keeps n n w { w with lanes := w.lanes.clear q } := by
  refine ⟨fun _ _ => rfl, fun p hp => ?_⟩
  show (w.lanes.clear q).stack p = _
  rw [Lanes.stack_clear]
  split
  · next hpq =>
    subst hpq
    cases hstack : w.lanes.stack p with
    | nil => rfl
    | cons s rest =>
      have htop : w.lanes.top? p = some s := by rw [Lanes.top?, hstack]; rfl
      exact absurd (hp s htop) (Nat.not_lt.2 (hq s htop))
  · rfl

/-- The driven lane may be given up, whatever has become of it meanwhile. -/
theorem Keeps.clear {n : Nat} {v : Walk} (h : Keeps n n w v) (hq : w.lanes.top? q = some slot)
    (hn : n ≤ slot) : Keeps n n w { v with lanes := v.lanes.clear q } := by
  refine ⟨h.ops, fun p hp => ?_⟩
  show (v.lanes.clear q).stack p = _
  rw [Lanes.stack_clear, if_neg, h.lanes p hp]
  rintro rfl
  exact absurd (hp slot hq) (Nat.not_lt.2 hn)

theorem keeps_popAll {n : Nat} {qs : List Qubit} (hqs : qs.Nodup)
    (htop : ∀ r ∈ qs, w.lanes.top? r = some slot) (hn : n ≤ slot) :
    Keeps n n w { w with lanes := qs.foldl Lanes.pop w.lanes } := by
  refine ⟨fun _ _ => rfl, fun p hp => ?_⟩
  show (qs.foldl Lanes.pop w.lanes).stack p = _
  rw [Lanes.stack_foldl_pop _ hqs, if_neg]
  intro hmem
  exact absurd (hp slot (htop p hmem)) (Nat.not_lt.2 hn)

theorem Maintains.drive (h : Maintains rule inv) (bound : Option Nat) (q : Qubit) (w : Walk)
    (hw : inv w) :
    inv (drive rule bound q w).1 ∧
      Keeps (firstAbove bound) (firstAbove bound) w (drive rule bound q w).1 := by
  suffices hall : (inv w → inv (Walk.drive rule bound q w).1 ∧
      Keeps (firstAbove bound) (firstAbove bound) w (Walk.drive rule bound q w).1) ∧
      ∀ s, (Walk.drive rule bound q w).1.lanes.top? q = some s → Lanes.isAbove bound s = false from
    hall.1 hw
  -- The nested walks must also be known to come back, so the bound is part of the induction.
  refine drive_induction (P := fun bound q w w' => (inv w → inv w' ∧
    Keeps (firstAbove bound) (firstAbove bound) w w') ∧
    ∀ s, w'.lanes.top? q = some s → Lanes.isAbove bound s = false) ?_ ?_ ?_ bound q w
  · exact fun hidle => ⟨fun hw => ⟨hw, .refl _ _ _⟩, hidle⟩
  · intro bound q w slot htop habove hop
    refine ⟨fun hw => ⟨h.lost hw htop hop, ?_⟩, fun s hs => by simp [Lanes.top?] at hs⟩
    exact (Keeps.refl _ _ w).clear htop (isAbove_iff.1 habove)
  · intro bound q w slot op htop habove hop driveTo v b hdrive hrun
    have hn := isAbove_iff.1 habove
    have hnested : Nested inv slot driveTo := fun r u hu =>
      ⟨((hdrive r u).1 hu).1, ((hdrive r u).1 hu).2, fun s hs => by
        simpa [Lanes.isAbove] using (hdrive r u).2 s hs⟩
    refine ⟨fun hstop => ⟨fun hw => ?_, fun s hs => by simp [Lanes.top?] at hs⟩,
      fun hb rs hrs w' hw' => ⟨fun hw => ?_, hw'.2⟩⟩
    · have hstep := h.step hw htop hop hnested rfl hrun
      exact ⟨hstep.stopped hstop, (hstep.keeps.mono hn hn).clear htop hn⟩
    · have hstep := h.step hw htop hop hnested rfl hrun
      obtain ⟨htops, hnodup, hinv⟩ := hstep.moved hb rs hrs
      obtain ⟨hinv', hkeeps'⟩ := hw'.1 hinv
      exact ⟨hinv', ((hstep.keeps.mono hn hn).trans (keeps_popAll hnodup htops hn)).trans hkeeps'⟩

theorem Maintains.run (h : Maintains rule inv) (hw : inv w) : inv (run rule w) := by
  rw [Walk.run]
  induction List.range w.lanes.count generalizing w with
  | nil => exact hw
  | cons i rest ih => exact ih (h.drive none ⟨i⟩ w hw).1

/-! ## Plans of one stage -/

section together
variable {driveTo : Qubit → w.After → w.After} {u v : w.After} {b : Bool} {qs : List Qubit}

theorem Nested.sync_kept (h : Nested inv slot driveTo) (hu : inv u.1)
    (hsync : sync driveTo slot qs u = (v, b)) :
    inv v.1 ∧ Keeps (slot + 1) (slot + 1) u.1 v.1 ∧
      (b = true → ∀ r ∈ qs, v.1.lanes.top? r = some slot) :=
  sync_spec (fun r u hu => ⟨(h r u hu).1, (h r u hu).2.1⟩) hu hsync

/-- Lanes fail to come together because one of them is used up or already below the slot. -/
theorem Nested.sync_failed (h : Nested inv slot driveTo) (hu : inv u.1)
    (hsync : sync driveTo slot qs u = (v, false)) :
    ∃ r ∈ qs, ∀ s, v.1.lanes.top? r = some s → s < slot := by
  induction qs generalizing u with
  | nil => cases hsync
  | cons q rest ih =>
    obtain ⟨hinv, -, hback⟩ := h q u hu
    rw [sync] at hsync
    split at hsync
    · obtain ⟨r, hr, hlt⟩ := ih hinv hsync
      exact ⟨r, List.mem_cons_of_mem _ hr, hlt⟩
    · next hne =>
      cases hsync
      refine ⟨q, List.mem_cons_self, fun s hs => ?_⟩
      exact Nat.lt_of_le_of_ne (hback s hs) fun heq => hne (heq ▸ hs)

/-- A plan that writes once all lanes have come together, and then moves them on. -/
theorem Stepped.together {result : Operation} (hnested : Nested inv slot driveTo)
    (hu : inv u.1) (hq : u.1.lanes.top? q = some slot) (hqs : (qs ++ [q]).Nodup)
    (hrun : runStages driveTo slot [⟨qs, result⟩] u = (v, b))
    (hstop : ∀ v', inv v' → Keeps (slot + 1) (slot + 1) u.1 v' →
      (∃ r ∈ qs, ∀ s, v'.lanes.top? r = some s → s < slot) →
      inv { v' with lanes := v'.lanes.clear q })
    (hmove : ∀ v', inv v' → Keeps (slot + 1) (slot + 1) u.1 v' →
      (∀ r ∈ qs ++ [q], v'.lanes.top? r = some slot) →
      inv ⟨v'.ops.set slot result, (qs ++ [q]).foldl Lanes.pop v'.lanes⟩) :
    Stepped inv q slot { stages := [⟨qs, result⟩], advance := some qs } u.1 v.1 b := by
  rw [runStages] at hrun
  cases hsync : sync driveTo slot qs u with
  | mk v' b' =>
    obtain ⟨hinv, hkeeps, htops⟩ := hnested.sync_kept hu hsync
    have hkeeps' := hkeeps.mono (Nat.le_succ slot) (Nat.le_succ slot)
    rw [hsync] at hrun
    cases b' with
    | false =>
      cases hrun
      exact ⟨hkeeps', fun _ => hstop _ hinv hkeeps (hnested.sync_failed hu hsync),
        fun hb => by cases hb⟩
    | true =>
      cases hrun
      have htops' : ∀ r ∈ qs ++ [q], v'.1.lanes.top? r = some slot := by
        intro r hr
        rcases List.mem_append.1 hr with hr | hr
        · exact htops rfl r hr
        · rw [List.mem_singleton.1 hr]
          exact hkeeps.top hq
      refine ⟨hkeeps'.trans (keeps_set _ _ _ _), fun hstop => ?_, fun _ rs hrs => ?_⟩
      · cases hstop rfl
      · cases hrs
        exact ⟨htops', hqs, hmove _ hinv hkeeps htops'⟩

end together

/-! ## Lanes that go over what is done -/

section clean
variable (ops : List Operation) (Listed : Qubit → Nat → Prop)
  (Done : List Operation → Qubit → Nat → Prop) (GaveUp : List Operation → Qubit → Prop)

/-- Slots that are still listed have not been touched. A lane is done with every other slot,
unless it has been given up. -/
structure Clean (w : Walk) : Prop where
  sorted : ∀ q, (w.lanes.stack q).Pairwise (· > ·)
  listed : ∀ {q j}, j ∈ w.lanes.stack q → Listed q j ∧ w.ops[j]? = ops[j]?
  lane : ∀ q, (∀ j, j ∉ w.lanes.stack q → Done w.ops q j) ∨
    w.lanes.stack q = [] ∧ GaveUp w.ops q

variable {ops Listed Done GaveUp}

theorem Clean.top (h : Clean ops Listed Done GaveUp w) (htop : w.lanes.top? q = some slot) :
    Listed q slot ∧ w.ops[slot]? = ops[slot]? :=
  h.listed (List.mem_of_head? htop)

/-- A listed slot is not above the end of its lane. -/
theorem Clean.le_top (h : Clean ops Listed Done GaveUp w) {j : Nat}
    (hj : j ∈ w.lanes.stack q) : ∃ s, w.lanes.top? q = some s ∧ j ≤ s := by
  cases hstack : w.lanes.stack q with
  | nil =>
    rw [hstack] at hj
    cases hj
  | cons s rest =>
    have hsorted := h.sorted q
    rw [hstack] at hj hsorted
    refine ⟨s, by rw [Lanes.top?, hstack]; rfl, ?_⟩
    rcases List.mem_cons.1 hj with rfl | hj
    · exact Nat.le_refl _
    · exact Nat.le_of_lt ((List.pairwise_cons.1 hsorted).1 j hj)

/-- A lane that has come back to a slot is done with all that stands behind it. -/
theorem Clean.behind (h : Clean ops Listed Done GaveUp w) (htop : w.lanes.top? q = some slot)
    {j : Nat} (hj : slot < j) : Done w.ops q j := by
  rcases h.lane q with hdone | ⟨hnil, -⟩
  · refine hdone j fun hmem => ?_
    obtain ⟨s, hs, hle⟩ := h.le_top hmem
    cases htop.symm.trans hs
    exact absurd hj (Nat.not_lt.2 hle)
  · rw [Lanes.top?, hnil] at htop
    cases htop

theorem Clean.clear (h : Clean ops Listed Done GaveUp w)
    (hgave : w.lanes.stack q ≠ [] → GaveUp w.ops q) :
    Clean ops Listed Done GaveUp { w with lanes := w.lanes.clear q } := by
  have hstack : ∀ r, (w.lanes.clear q).stack r = if r = q then [] else w.lanes.stack r :=
    Lanes.stack_clear w.lanes q
  refine ⟨fun r => ?_, fun {r j} hj => ?_, fun r => ?_⟩
  · show ((w.lanes.clear q).stack r).Pairwise _
    rw [hstack]
    split
    · exact .nil
    · exact h.sorted r
  · have hj' : j ∈ (w.lanes.clear q).stack r := hj
    rw [hstack] at hj'
    split at hj'
    · cases hj'
    · exact h.listed hj'
  · show (∀ j, j ∉ (w.lanes.clear q).stack r → _) ∨ (w.lanes.clear q).stack r = [] ∧ _
    rw [hstack]
    split
    · next hr =>
      subst hr
      by_cases hnil : w.lanes.stack r = []
      · have hlane := h.lane r
        rwa [hnil] at hlane
      · exact .inr ⟨rfl, hgave hnil⟩
    · exact h.lane r

/-- The operation at a slot that is listed nowhere may change. -/
theorem Clean.set (h : Clean ops Listed Done GaveUp w) {op : Operation}
    (hfree : ∀ r, slot ∉ w.lanes.stack r)
    (hdone : ∀ r j, Done w.ops r j → Done (w.ops.set slot op) r j)
    (hgave : ∀ r, GaveUp w.ops r → GaveUp (w.ops.set slot op) r) :
    Clean ops Listed Done GaveUp { w with ops := w.ops.set slot op } := by
  refine ⟨h.sorted, fun {r j} hj => ?_, fun r => ?_⟩
  · obtain ⟨hlisted, hsame⟩ := h.listed hj
    refine ⟨hlisted, (List.getElem?_set_ne ?_).trans hsame⟩
    rintro rfl
    exact hfree r hj
  · exact (h.lane r).imp (fun hall j hj => hdone r j (hall j hj)) fun hnil =>
      ⟨hnil.1, hgave r hnil.2⟩

/-- The operation at a slot changes, and all lanes that list it go over it. -/
theorem Clean.advance (h : Clean ops Listed Done GaveUp w) {op : Operation} {qs : List Qubit}
    (hqs : qs.Nodup) (htop : ∀ r ∈ qs, w.lanes.top? r = some slot)
    (honly : ∀ r, Listed r slot → r ∈ qs)
    (hdone : ∀ r j, Done w.ops r j → Done (w.ops.set slot op) r j)
    (hgave : ∀ r, GaveUp w.ops r → GaveUp (w.ops.set slot op) r)
    (hslot : ∀ r ∈ qs, Done (w.ops.set slot op) r slot) :
    Clean ops Listed Done GaveUp ⟨w.ops.set slot op, qs.foldl Lanes.pop w.lanes⟩ := by
  have hstack := fun r => Lanes.stack_foldl_pop w.lanes hqs r
  have hcut : ∀ r ∈ qs, w.lanes.stack r = slot :: (w.lanes.stack r).tail := fun r hr =>
    (List.cons_head?_tail (htop r hr)).symm
  refine ⟨fun r => ?_, fun {r j} hj => ?_, fun r => ?_⟩
  · show ((qs.foldl Lanes.pop w.lanes).stack r).Pairwise _
    rw [hstack]
    split
    · exact (h.sorted r).tail
    · exact h.sorted r
  · have hj' : j ∈ (qs.foldl Lanes.pop w.lanes).stack r := hj
    rw [hstack] at hj'
    have hleft : j ∈ w.lanes.stack r ∧ j ≠ slot := by
      split at hj'
      · next hr =>
        have hsorted := h.sorted r
        rw [hcut r hr, List.pairwise_cons] at hsorted
        refine ⟨List.mem_of_mem_tail hj', fun heq => ?_⟩
        exact absurd (hsorted.1 j hj') (heq ▸ Nat.lt_irrefl _)
      · next hr =>
        refine ⟨hj', fun heq => hr (honly r ?_)⟩
        rw [heq] at hj'
        exact (h.listed hj').1
    obtain ⟨hlisted, hsame⟩ := h.listed hleft.1
    exact ⟨hlisted, (List.getElem?_set_ne hleft.2.symm).trans hsame⟩
  · show (∀ j, j ∉ (qs.foldl Lanes.pop w.lanes).stack r → _) ∨
      (qs.foldl Lanes.pop w.lanes).stack r = [] ∧ _
    rw [hstack]
    split
    · next hr =>
      refine .inl fun j hj => ?_
      by_cases hjs : j = slot
      · rw [hjs]
        exact hslot r hr
      · rcases h.lane r with hall | ⟨hnil, -⟩
        · refine hdone r j (hall j fun hmem => ?_)
          rw [hcut r hr] at hmem
          exact hj ((List.mem_cons.1 hmem).resolve_left hjs)
        · rw [hcut r hr] at hnil
          cases hnil
    · exact (h.lane r).imp (fun hall j hj => hdone r j (hall j hj)) fun hnil =>
        ⟨hnil.1, hgave r hnil.2⟩

end clean

end Walk
end QuantumCircuit
