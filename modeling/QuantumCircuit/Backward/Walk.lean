import QuantumCircuit.Lanes.Build
import QuantumCircuit.Pass.Outcome
import QuantumCircuit.Peephole.Identity

/-! Walking the lanes of a circuit from the back. The walk on a lane ends where
its operation cannot be removed. An operation on several lanes is removed once
all of them have come back to it, so the walk on one lane drives the others as
far as they are needed.

The walk always ends: another lane is driven only down to a slot above the
current bound, and after a step the driven lane has one slot less. What counts
is the number of slots above the bound that are still to be visited. -/
namespace QuantumCircuit

/-- A part of a step: lanes that must first come back to the slot, and what the
operation there then becomes. -/
structure Stage where
  others : List Qubit
  result : Operation
deriving Repr

/-- What to do with the operation at the end of a lane. -/
structure Plan where
  /-- Lanes that are given up at once. -/
  halt : List Qubit := []
  stages : List Stage := []
  /-- The lanes besides the driven one that go on to their next slot; none if
  the driven lane stops here. -/
  advance : Option (List Qubit) := none
deriving Repr

/-- Chooses the plan for an operation that is met on the lane of a qubit. -/
abbrev Rule := Qubit → Operation → Plan

/-- The operations, and for each lane the slots still to be visited. -/
structure Walk where
  ops : List Operation
  lanes : Lanes
deriving Repr

namespace Lanes

/-- Every lane of `l` is what is left of that lane of `m`. -/
def Within (l m : Lanes) : Prop :=
  l.rows.length = m.rows.length ∧ ∀ q, l.stack q <:+ m.stack q

theorem Within.refl (l : Lanes) : l.Within l := ⟨rfl, fun _ => List.suffix_rfl⟩

theorem Within.trans {l m n : Lanes} (h : l.Within m) (h' : m.Within n) : l.Within n :=
  ⟨h.1.trans h'.1, fun q => (h.2 q).trans (h'.2 q)⟩

theorem pop_within (l : Lanes) (q : Qubit) : (l.pop q).Within l := by
  refine ⟨by simp [pop], fun r => ?_⟩
  rw [stack_pop]
  split
  · next h => rw [h]; exact List.tail_suffix _
  · exact List.suffix_rfl

theorem clear_within (l : Lanes) (q : Qubit) : (l.clear q).Within l := by
  refine ⟨by simp [clear], fun r => ?_⟩
  rw [stack_clear]
  split
  · exact List.nil_suffix
  · exact List.suffix_rfl

theorem foldl_pop_within (qs : List Qubit) (l : Lanes) : (qs.foldl pop l).Within l := by
  induction qs generalizing l with
  | nil => exact .refl l
  | cons q rest ih => exact (ih (l.pop q)).trans (l.pop_within q)

theorem foldl_clear_within (qs : List Qubit) (l : Lanes) : (qs.foldl clear l).Within l := by
  induction qs generalizing l with
  | nil => exact .refl l
  | cons q rest ih => exact (ih (l.clear q)).trans (l.clear_within q)

/-- Whether a slot lies above a bound. -/
def isAbove (bound : Option Nat) (slot : Nat) : Bool := bound.all (· < slot)

/-- The number of slots above a bound, over all lanes. -/
def above (bound : Option Nat) (l : Lanes) : Nat :=
  l.rows.flatten.countP (isAbove bound)

private theorem countP_flatten_le {p p' : Nat → Bool} (hp : ∀ s, p s = true → p' s = true) :
    ∀ {rs ms : List (List Nat)}, rs.length = ms.length →
      (∀ i : Nat, rs[i]?.getD [] <:+ ms[i]?.getD []) →
      rs.flatten.countP p ≤ ms.flatten.countP p'
  | [], [], _, _ => Nat.le_refl _
  | r :: rs, m :: ms, hlen, h => by
    have hhead : r <:+ m := by simpa using h 0
    have htail := countP_flatten_le hp (by simpa using hlen) fun i => by simpa using h (i + 1)
    have hcount : r.countP p ≤ m.countP p' :=
      Nat.le_trans (hhead.sublist.countP_le) (List.countP_mono_left fun s _ => hp s)
    simp only [List.flatten_cons, List.countP_append]
    omega

private theorem countP_flatten_lt {p p' : Nat → Bool} (hp : ∀ s, p s = true → p' s = true) :
    ∀ {rs ms : List (List Nat)}, rs.length = ms.length →
      (∀ i : Nat, rs[i]?.getD [] <:+ ms[i]?.getD []) →
      (∃ i : Nat, (rs[i]?.getD []).countP p < (ms[i]?.getD []).countP p') →
      rs.flatten.countP p < ms.flatten.countP p'
  | [], [], _, _, ⟨i, hi⟩ => by simp at hi
  | r :: rs, m :: ms, hlen, h, ⟨i, hi⟩ => by
    have hhead : r <:+ m := by simpa using h 0
    have hlen' : rs.length = ms.length := by simpa using hlen
    have h' : ∀ i : Nat, rs[i]?.getD [] <:+ ms[i]?.getD [] := fun i => by simpa using h (i + 1)
    have hcount : r.countP p ≤ m.countP p' :=
      Nat.le_trans (hhead.sublist.countP_le) (List.countP_mono_left fun s _ => hp s)
    simp only [List.flatten_cons, List.countP_append]
    cases i with
    | zero =>
      have := countP_flatten_le hp hlen' h'
      simp only [List.getElem?_cons_zero, Option.getD_some] at hi
      omega
    | succ i =>
      have := countP_flatten_lt hp hlen' h' ⟨i, by simpa using hi⟩
      omega

theorem Within.above_le {l m : Lanes} (h : l.Within m) (bound : Option Nat) :
    l.above bound ≤ m.above bound :=
  countP_flatten_le (fun _ => id) h.1 fun i => h.2 ⟨i⟩

theorem isAbove_mono {bound : Option Nat} {slot s : Nat} (h : isAbove bound slot = true)
    (hs : isAbove (some slot) s = true) : isAbove bound s = true := by
  cases bound with
  | none => rfl
  | some u =>
    simp only [isAbove, Option.all_some, decide_eq_true_eq] at h hs ⊢
    omega

/-- Raising the bound to a slot that is on a lane leaves fewer slots above it. -/
theorem above_raise_lt {l : Lanes} {q : Qubit} {slot : Nat} {rest : List Nat}
    {bound : Option Nat} (hq : l.stack q = slot :: rest) (h : isAbove bound slot = true) :
    l.above (some slot) < l.above bound := by
  refine countP_flatten_lt (fun s hs => isAbove_mono h hs) rfl (fun _ => List.suffix_rfl)
    ⟨q.index, ?_⟩
  show (l.stack q).countP (isAbove (some slot)) < (l.stack q).countP (isAbove bound)
  have hle : rest.countP (isAbove (some slot)) ≤ rest.countP (isAbove bound) :=
    List.countP_mono_left fun s _ hs => isAbove_mono h hs
  rw [hq, List.countP_cons, List.countP_cons, h]
  have : isAbove (some slot) slot = false := by simp [isAbove]
  simp only [this, Bool.false_eq_true, ↓reduceIte]
  omega

/-- Taking a slot above the bound off its lane leaves fewer slots above it. -/
theorem above_pop_lt {l m : Lanes} {q : Qubit} {slot : Nat} {rest : List Nat}
    {bound : Option Nat} (h : l.Within m) (hq : m.stack q = slot :: rest)
    (habove : isAbove bound slot = true) : (l.pop q).above bound < m.above bound := by
  have hw := (l.pop_within q).trans h
  refine countP_flatten_lt (fun _ => id) hw.1 (fun i => hw.2 ⟨i⟩) ⟨q.index, ?_⟩
  show ((l.pop q).stack q).countP (isAbove bound) < (m.stack q).countP (isAbove bound)
  have hsuffix : (l.stack q).tail <:+ rest := by
    have hl := h.2 q
    rw [hq] at hl
    rcases List.suffix_cons_iff.1 hl with heq | hl
    · rw [heq]; exact List.suffix_rfl
    · exact (List.tail_suffix _).trans hl
  have hle := (hsuffix.sublist).countP_le (p := isAbove bound)
  rw [stack_pop, if_pos rfl, hq, List.countP_cons, habove]
  simp only [↓reduceIte]
  omega

end Lanes

namespace Walk

/-- A walk that has gone on from `w`. -/
abbrev After (w : Walk) := { v : Walk // v.lanes.Within w.lanes }

/-- Drives lanes in turn until one of them does not come back to the slot; says
whether all of them did. -/
def sync {w : Walk} (driveTo : Qubit → w.After → w.After) (slot : Nat) :
    List Qubit → w.After → w.After × Bool
  | [], v => (v, true)
  | q :: rest, v =>
    let v := driveTo q v
    if v.1.lanes.top? q = some slot then sync driveTo slot rest v else (v, false)

/-- Carries out stages until the lanes of one of them do not come back. -/
def runStages {w : Walk} (driveTo : Qubit → w.After → w.After) (slot : Nat) :
    List Stage → w.After → w.After × Bool
  | [], v => (v, true)
  | stage :: rest, v =>
    match sync driveTo slot stage.others v with
    | (v, false) => (v, false)
    | (v, true) =>
      runStages driveTo slot rest ⟨{ v.1 with ops := v.1.ops.set slot stage.result }, v.2⟩

/-- Walks back on a lane until it stops, is used up, or comes to a slot that is
not above the bound. -/
def drive (rule : Rule) (bound : Option Nat) (q : Qubit) (w : Walk) : w.After :=
  match hq : w.lanes.stack q with
  | [] => ⟨w, .refl _⟩
  | slot :: _ =>
    if habove : Lanes.isAbove bound slot then
      match w.ops[slot]? with
      | none => ⟨{ w with lanes := w.lanes.clear q }, w.lanes.clear_within q⟩
      | some op =>
        let plan := rule q op
        let halted : w.After :=
          ⟨{ w with lanes := plan.halt.foldl Lanes.clear w.lanes },
            Lanes.foldl_clear_within _ _⟩
        let driveTo (r : Qubit) (v : w.After) : w.After :=
          have := Nat.lt_of_le_of_lt (v.2.above_le (some slot)) (Lanes.above_raise_lt hq habove)
          let u := drive rule (some slot) r v.1
          ⟨u.1, u.2.trans v.2⟩
        match runStages driveTo slot plan.stages halted, plan.advance with
        | (v, true), some others =>
          let lanes := (others.foldl Lanes.pop v.1.lanes).pop q
          have hothers := (Lanes.foldl_pop_within others v.1.lanes).trans v.2
          have := Lanes.above_pop_lt hothers hq habove
          let u := drive rule bound q { v.1 with lanes }
          ⟨u.1, u.2.trans ((Lanes.pop_within _ q).trans hothers)⟩
        | (v, _), _ =>
          ⟨{ v.1 with lanes := v.1.lanes.clear q }, (Lanes.clear_within _ q).trans v.2⟩
    else ⟨w, .refl _⟩
termination_by w.lanes.above bound

/-- Walks back on every lane, the lowest qubit first. -/
def run (rule : Rule) (w : Walk) : Walk :=
  (List.range w.lanes.count).foldl (fun w i => (drive rule none ⟨i⟩ w).1) w

/-- Walks a circuit from the back and then removes identities. The lanes start
from what `start` leaves of them. -/
def runOn (passName : String) (rule : Rule) (start : List Operation → List Nat → List Nat)
    (c : Circuit) : Outcome Circuit :=
  match Lanes.build c passName with
  | .error e => .failed e c
  | .ok lanes =>
    let w := run rule ⟨c.ops, ⟨lanes.rows.map (start c.ops)⟩⟩
    .done (Circuit.removeIdentities { c with ops := w.ops })

end Walk
end QuantumCircuit
