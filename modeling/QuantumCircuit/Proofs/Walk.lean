import QuantumCircuit.Backward.Diagonal
import QuantumCircuit.Backward.FinalMeasurement
import QuantumCircuit.Proofs.Lanes

/-! Walks from the back: the induction that follows them, what they keep, and those that
find nothing to do, because no lane is left to walk or the rule has no stage for any of
the operations. -/
namespace QuantumCircuit
namespace Walk
variable {rule : Rule} {w : Walk}

theorem drive_of_stack_nil (rule : Rule) (bound : Option Nat) {q : Qubit}
    (h : w.lanes.stack q = []) : (drive rule bound q w).1 = w := by
  rw [drive]
  split
  · rfl
  · next hq =>
    rw [h] at hq
    cases hq

theorem foldl_drive_of_stack_nil {is : List Nat} (h : ∀ i ∈ is, w.lanes.stack ⟨i⟩ = []) :
    is.foldl (fun w i => (drive rule none ⟨i⟩ w).1) w = w := by
  induction is with
  | nil => rfl
  | cons i rest ih =>
    rw [List.foldl_cons, drive_of_stack_nil rule none (h i List.mem_cons_self),
      ih fun j hj => h j (List.mem_cons_of_mem i hj)]

/-- A step that waits for no other lane, unrolled. -/
theorem drive_of_alone {bound : Option Nat} {q : Qubit} {slot : Nat} {op result : Operation}
    (hq : w.lanes.top? q = some slot) (habove : Lanes.isAbove bound slot = true)
    (hop : w.ops[slot]? = some op)
    (hplan : rule q op = { stages := [⟨[], result⟩], advance := some [] }) :
    (drive rule bound q w).1 =
      (drive rule bound q ⟨w.ops.set slot result, w.lanes.pop q⟩).1 := by
  conv_lhs => rw [drive]
  split
  · next hnil =>
    rw [Lanes.top?, hnil] at hq
    cases hq
  · next s rest hstack =>
    rw [Lanes.top?, hstack] at hq
    cases hq
    rw [dif_pos habove]
    split
    · next hnone => cases hop.symm.trans hnone
    · next op' hop' =>
      cases hop.symm.trans hop'
      simp only [hplan, runStages, sync, List.foldl_nil]

/-- Induction along a walk. A step knows of the nested walks that they have the property
above its slot; it either ends the walk on its lane or goes on from the next slot. -/
theorem drive_induction {P : Option Nat → Qubit → Walk → Walk → Prop}
    (idle : ∀ {bound q w}, (∀ slot, w.lanes.top? q = some slot →
      Lanes.isAbove bound slot = false) → P bound q w w)
    (lost : ∀ {bound q w slot}, w.lanes.top? q = some slot → Lanes.isAbove bound slot = true →
      w.ops[slot]? = none → P bound q w { w with lanes := w.lanes.clear q })
    (step : ∀ {bound q w slot op}, w.lanes.top? q = some slot →
      Lanes.isAbove bound slot = true → w.ops[slot]? = some op →
      ∀ {driveTo : Qubit → w.After → w.After} {v : w.After} {b : Bool},
      (∀ r u, P (some slot) r u.1 (driveTo r u).1) →
      runStages driveTo slot (rule q op).stages
        ⟨{ w with lanes := (rule q op).halt.foldl Lanes.clear w.lanes },
          Lanes.foldl_clear_within _ _⟩ = (v, b) →
      ((b = true → (rule q op).advance = none) →
        P bound q w { v.1 with lanes := v.1.lanes.clear q }) ∧
        (b = true → ∀ others, (rule q op).advance = some others → ∀ w',
          P bound q { v.1 with lanes := (others ++ [q]).foldl Lanes.pop v.1.lanes } w' →
          P bound q w w'))
    (bound : Option Nat) (q : Qubit) (w : Walk) : P bound q w (drive rule bound q w).1 := by
  induction hn : w.lanes.above bound using Nat.strongRecOn generalizing bound q w with
  | ind n ih =>
    subst hn
    rw [drive]
    split
    · next hq => exact idle fun slot htop => by simp [Lanes.top?, hq] at htop
    · next slot rest hq =>
      have htop : w.lanes.top? q = some slot := by rw [Lanes.top?, hq]; rfl
      split
      · next habove =>
        split
        · next hop => exact lost htop habove hop
        · next op hop =>
          have hnested : ∀ r (u : w.After), P (some slot) r u.1 (drive rule (some slot) r u.1).1 :=
            fun r u => ih _ (Nat.lt_of_le_of_lt (u.2.above_le _) (Lanes.above_raise_lt hq habove))
              (some slot) r u.1 rfl
          dsimp only
          split
          · next v others hrun hadvance =>
            have hothers := (Lanes.foldl_pop_within others v.1.lanes).trans v.2
            refine (step htop habove hop hnested hrun).2 rfl others hadvance _ ?_
            rw [List.foldl_append]
            exact ih _ (Lanes.above_pop_lt hothers hq habove) bound q _ rfl
          · next v b hrun hnone =>
            refine (step htop habove hop hnested hrun).1 fun hb => ?_
            cases hadvance : (rule q op).advance with
            | none => rfl
            | some others => exact (hnone others hadvance hb).elim
      · next habove =>
        refine idle fun s hs => ?_
        cases htop.symm.trans hs
        exact Bool.eq_false_iff.2 habove

section handed_on
variable {P : Nat → Operation → Prop} {driveTo : Qubit → w.After → w.After}
  {u v : w.After} {b : Bool}

/-- Every operation has the property at its slot. -/
def Everywhere (P : Nat → Operation → Prop) (w : Walk) : Prop :=
  ∀ slot op, w.ops[slot]? = some op → P slot op

theorem everywhere_sync (hdrive : ∀ r u, Everywhere P u.1 → Everywhere P (driveTo r u).1)
    {slot : Nat} {qs : List Qubit} (h : sync driveTo slot qs u = (v, b))
    (hu : Everywhere P u.1) : Everywhere P v.1 := by
  induction qs generalizing u with
  | nil =>
    cases h
    exact hu
  | cons q rest ih =>
    rw [sync] at h
    split at h
    · exact ih h (hdrive q u hu)
    · cases h
      exact hdrive q u hu

theorem everywhere_runStages (hdrive : ∀ r u, Everywhere P u.1 → Everywhere P (driveTo r u).1)
    {slot : Nat} {stages : List Stage} (hstages : ∀ stage ∈ stages, P slot stage.result)
    (h : runStages driveTo slot stages u = (v, b)) (hu : Everywhere P u.1) :
    Everywhere P v.1 := by
  induction stages generalizing u with
  | nil =>
    cases h
    exact hu
  | cons stage rest ih =>
    rw [runStages] at h
    split at h
    · next hsync =>
      cases h
      exact everywhere_sync hdrive hsync hu
    · next u' hsync =>
      have hu' := everywhere_sync hdrive hsync hu
      refine ih (fun s hs => hstages s (List.mem_cons_of_mem _ hs)) h fun j op hop => ?_
      rcases Operation.getElem?_set_cases hop with ⟨rfl, rfl⟩ | ⟨-, hop⟩
      · exact hstages stage List.mem_cons_self
      · exact hu' j op hop

theorem everywhere_drive
    (hrule : ∀ q slot op, P slot op → ∀ stage ∈ (rule q op).stages, P slot stage.result)
    (bound : Option Nat) (q : Qubit) (hw : Everywhere P w) :
    Everywhere P (drive rule bound q w).1 := by
  refine drive_induction (P := fun _ _ w w' => Everywhere P w → Everywhere P w')
    (fun _ => id) (fun _ _ _ => id) ?_ bound q w hw
  intro bound q w slot op _ _ hop driveTo v b hdrive hrun
  have hstep : Everywhere P w → Everywhere P v.1 := fun hw =>
    everywhere_runStages hdrive (hrule q slot op (hw slot op hop)) hrun hw
  exact ⟨fun _ => hstep, fun _ others _ w' hw' hw => hw' (hstep hw)⟩

theorem everywhere_foldl
    (hrule : ∀ q slot op, P slot op → ∀ stage ∈ (rule q op).stages, P slot stage.result)
    {is : List Nat} (hw : Everywhere P w) :
    Everywhere P (is.foldl (fun w i => (drive rule none ⟨i⟩ w).1) w) := by
  induction is generalizing w with
  | nil => exact hw
  | cons i rest ih => exact ih (everywhere_drive hrule none ⟨i⟩ hw)

theorem everywhere_run
    (hrule : ∀ q slot op, P slot op → ∀ stage ∈ (rule q op).stages, P slot stage.result)
    (hw : Everywhere P w) : Everywhere P (run rule w) :=
  everywhere_foldl hrule hw

theorem forall_run {P : Operation → Prop}
    (hrule : ∀ q op, P op → ∀ stage ∈ (rule q op).stages, P stage.result)
    (hw : ∀ op ∈ w.ops, P op) : ∀ op ∈ (run rule w).ops, P op := by
  have hrun := everywhere_run (P := fun _ => P) (fun q _ op => hrule q op)
    fun _ op hop => hw op (List.mem_of_getElem? hop)
  intro op hop
  obtain ⟨slot, hslot⟩ := List.mem_iff_getElem?.1 hop
  exact hrun slot op hslot

end handed_on

/-! ## What a walk keeps -/

/-- The first slot above a bound. -/
def firstAbove : Option Nat → Nat
  | none => 0
  | some slot => slot + 1

theorem isAbove_iff {bound : Option Nat} {slot : Nat} :
    Lanes.isAbove bound slot = true ↔ firstAbove bound ≤ slot := by
  cases bound with
  | none => simp [Lanes.isAbove, firstAbove]
  | some u =>
    simp only [Lanes.isAbove, firstAbove, Option.all_some, decide_eq_true_eq]
    omega

/-- The operations below slot `n` stay, and so do the lanes that end below slot `m`. -/
structure Keeps (n m : Nat) (w w' : Walk) : Prop where
  ops : ∀ k, k < n → w'.ops[k]? = w.ops[k]?
  lanes : ∀ p, (∀ s, w.lanes.top? p = some s → s < m) → w'.lanes.stack p = w.lanes.stack p

theorem Keeps.refl (n m : Nat) (w : Walk) : Keeps n m w w := ⟨fun _ _ => rfl, fun _ _ => rfl⟩

theorem Keeps.trans {n m : Nat} {u v w : Walk} (h : Keeps n m u v) (h' : Keeps n m v w) :
    Keeps n m u w := by
  refine ⟨fun k hk => (h'.ops k hk).trans (h.ops k hk), fun p hp => ?_⟩
  have hstack := h.lanes p hp
  refine (h'.lanes p fun s hs => hp s ?_).trans hstack
  rwa [Lanes.top?, hstack] at hs

theorem Keeps.mono {n m n' m' : Nat} {u v : Walk} (h : Keeps n m u v) (hn : n' ≤ n)
    (hm : m' ≤ m) : Keeps n' m' u v :=
  ⟨fun k hk => h.ops k (Nat.lt_of_lt_of_le hk hn),
    fun p hp => h.lanes p fun s hs => Nat.lt_of_lt_of_le (hp s hs) hm⟩

theorem keeps_set (w : Walk) (slot m : Nat) (op : Operation) :
    Keeps slot m w { w with ops := w.ops.set slot op } :=
  ⟨fun _ hk => List.getElem?_set_ne (Nat.ne_of_gt hk), fun _ _ => rfl⟩

theorem Keeps.top {n slot : Nat} {q : Qubit} {u v : Walk} (h : Keeps n (slot + 1) u v)
    (hq : u.lanes.top? q = some slot) : v.lanes.top? q = some slot := by
  have hstack := h.lanes q fun s hs => by
    rw [hq] at hs
    cases hs
    exact Nat.lt_succ_self slot
  rw [Lanes.top?, hstack]
  exact hq

/-- Lanes that have come back to a slot stay there while the other ones are driven. -/
theorem sync_spec {slot : Nat} {driveTo : Qubit → w.After → w.After} {inv : Walk → Prop}
    (hdrive : ∀ r u, inv u.1 →
      inv (driveTo r u).1 ∧ Keeps (slot + 1) (slot + 1) u.1 (driveTo r u).1)
    {qs : List Qubit} {u v : w.After} {b : Bool} (hu : inv u.1)
    (h : sync driveTo slot qs u = (v, b)) :
    inv v.1 ∧ Keeps (slot + 1) (slot + 1) u.1 v.1 ∧
      (b = true → ∀ r ∈ qs, v.1.lanes.top? r = some slot) := by
  induction qs generalizing u with
  | nil =>
    cases h
    exact ⟨hu, .refl _ _ _, fun _ _ hr => absurd hr List.not_mem_nil⟩
  | cons q rest ih =>
    obtain ⟨hinv, hkeeps⟩ := hdrive q u hu
    rw [sync] at h
    split at h
    · next htop =>
      obtain ⟨hinv', hkeeps', htops⟩ := ih hinv h
      refine ⟨hinv', hkeeps.trans hkeeps', fun hb r hr => ?_⟩
      rcases List.mem_cons.1 hr with rfl | hr
      · exact hkeeps'.top htop
      · exact htops hb r hr
    · cases h
      exact ⟨hinv, hkeeps, fun hb => by cases hb⟩

end Walk

end QuantumCircuit
