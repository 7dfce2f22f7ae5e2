import Mathlib.Logic.Relation
import QuantumCircuit.Proofs.Walk

/-! Walks from the back as runs of a machine. The machine keeps a stack of calls, one for each
lane that is being driven, and its steps are taken one at a time, whether or not they will
ever end. They do: from every walk on, the machine comes to a stop, and it has done what the
walk does. -/
namespace QuantumCircuit
namespace Walk

/-- What is left of a step at a slot: the stages still to be carried out, and the lanes that
go on afterwards besides the driven one. -/
structure Task where
  slot : Nat
  stages : List Stage
  advance : Option (List Qubit)
deriving Repr

inductive Phase where
  /-- The end of the lane is to be looked at. -/
  | looking
  | working (task : Task)
  /-- Another lane is driven by a call of its own. -/
  | waiting (other : Qubit) (task : Task)
deriving Repr

/-- A call that drives a lane down to a bound. -/
structure Call where
  bound : Option Nat
  lane : Qubit
  phase : Phase
deriving Repr

structure Machine where
  walk : Walk
  /-- The calls that have not ended, each one inside the next. -/
  calls : List Call
  /-- The lanes that are still to be driven on their own. -/
  todo : List Qubit
deriving Repr

namespace Machine

/-- The driven lane is given up, and its call ends. -/
def giveUp (w : Walk) (q : Qubit) (below : List Call) (todo : List Qubit) : Machine :=
  ⟨{ w with lanes := w.lanes.clear q }, below, todo⟩

/-- One step of the machine; none if it has stopped. -/
def step (rule : Rule) : Machine → Option Machine
  | ⟨_, [], []⟩ => none
  | ⟨w, [], q :: todo⟩ => some ⟨w, [⟨none, q, .looking⟩], todo⟩
  | ⟨w, ⟨bound, q, .looking⟩ :: below, todo⟩ =>
    match w.lanes.top? q with
    | none => some ⟨w, below, todo⟩
    | some slot =>
      if Lanes.isAbove bound slot then
        match w.ops[slot]? with
        | none => some (giveUp w q below todo)
        | some op =>
          let plan := rule q op
          some ⟨{ w with lanes := plan.halt.foldl Lanes.clear w.lanes },
            ⟨bound, q, .working ⟨slot, plan.stages, plan.advance⟩⟩ :: below, todo⟩
      else some ⟨w, below, todo⟩
  | ⟨w, ⟨bound, q, .working ⟨slot, ⟨r :: others, result⟩ :: stages, advance⟩⟩ :: below, todo⟩ =>
    some ⟨w, ⟨some slot, r, .looking⟩ ::
      ⟨bound, q, .waiting r ⟨slot, ⟨others, result⟩ :: stages, advance⟩⟩ :: below, todo⟩
  | ⟨w, ⟨bound, q, .working ⟨slot, ⟨[], result⟩ :: stages, advance⟩⟩ :: below, todo⟩ =>
    some ⟨{ w with ops := w.ops.set slot result },
      ⟨bound, q, .working ⟨slot, stages, advance⟩⟩ :: below, todo⟩
  | ⟨w, ⟨_, q, .working ⟨_, [], none⟩⟩ :: below, todo⟩ => some (giveUp w q below todo)
  | ⟨w, ⟨bound, q, .working ⟨_, [], some others⟩⟩ :: below, todo⟩ =>
    some ⟨{ w with lanes := (others ++ [q]).foldl Lanes.pop w.lanes },
      ⟨bound, q, .looking⟩ :: below, todo⟩
  | ⟨w, ⟨bound, q, .waiting r task⟩ :: below, todo⟩ =>
    if w.lanes.top? r = some task.slot then some ⟨w, ⟨bound, q, .working task⟩ :: below, todo⟩
    else some (giveUp w q below todo)

/-- A machine comes after another, some steps later. -/
def Reaches (rule : Rule) : Machine → Machine → Prop :=
  Relation.ReflTransGen fun m m' => m.step rule = some m'

/-- The machine that is to walk back on every lane, the lowest qubit first. -/
def start (w : Walk) : Machine := ⟨w, [], (List.range w.lanes.count).map Qubit.mk⟩

variable {rule : Rule} {m m' : Machine}

/-- No lane gets back a slot that it has gone over. -/
theorem step_within (h : m.step rule = some m') : m'.walk.lanes.Within m.walk.lanes := by
  have hgiveUp : ∀ (w : Walk) (q : Qubit) below todo,
      (giveUp w q below todo).walk.lanes.Within w.lanes := fun w q _ _ => w.lanes.clear_within q
  unfold step at h
  split at h
  · cases h
  · cases h
    exact .refl _
  · split at h
    · cases h
      exact .refl _
    · split at h
      · split at h
        · cases h
          exact hgiveUp ..
        · cases h
          exact Lanes.foldl_clear_within _ _
      · cases h
        exact .refl _
  · cases h
    exact .refl _
  · cases h
    exact .refl _
  · cases h
    exact hgiveUp ..
  · cases h
    exact Lanes.foldl_pop_within _ _
  · split at h
    · cases h
      exact .refl _
    · cases h
      exact hgiveUp ..

/-! ## The walk as a run of the machine -/

section stages
variable {w : Walk} {driveTo : Qubit → w.After → w.After} {slot : Nat} {bound : Option Nat}
  {q : Qubit} {advance : Option (List Qubit)} {below : List Call} {todo : List Qubit}
  (hdrive : ∀ (r : Qubit) (u : w.After) below todo,
    Reaches rule ⟨u.1, ⟨some slot, r, .looking⟩ :: below, todo⟩ ⟨(driveTo r u).1, below, todo⟩)
include hdrive

/-- Lanes are driven in turn, and the call goes on or ends as they come back or not. -/
theorem reaches_sync {result : Operation} {stages : List Stage} {qs : List Qubit}
    {u v : w.After} {b : Bool} (hsync : sync driveTo slot qs u = (v, b)) :
    Reaches rule
      ⟨u.1, ⟨bound, q, .working ⟨slot, ⟨qs, result⟩ :: stages, advance⟩⟩ :: below, todo⟩
      (if b then ⟨v.1, ⟨bound, q, .working ⟨slot, ⟨[], result⟩ :: stages, advance⟩⟩ :: below, todo⟩
        else giveUp v.1 q below todo) := by
  induction qs generalizing u with
  | nil =>
    cases hsync
    exact .refl
  | cons r rest ih =>
    have hcall : Reaches rule
        ⟨u.1, ⟨bound, q, .working ⟨slot, ⟨r :: rest, result⟩ :: stages, advance⟩⟩ :: below, todo⟩
        ⟨(driveTo r u).1, ⟨bound, q, .waiting r ⟨slot, ⟨rest, result⟩ :: stages, advance⟩⟩ :: below,
          todo⟩ := .head rfl (hdrive r u _ _)
    refine hcall.trans ?_
    rw [sync] at hsync
    split at hsync
    · next htop => exact .head (if_pos htop) (ih hsync)
    · next htop =>
      cases hsync
      exact .single (if_neg htop)

theorem reaches_runStages {stages : List Stage} {u v : w.After} {b : Bool}
    (hrun : runStages driveTo slot stages u = (v, b)) :
    Reaches rule ⟨u.1, ⟨bound, q, .working ⟨slot, stages, advance⟩⟩ :: below, todo⟩
      (if b then ⟨v.1, ⟨bound, q, .working ⟨slot, [], advance⟩⟩ :: below, todo⟩
        else giveUp v.1 q below todo) := by
  induction stages generalizing u with
  | nil =>
    cases hrun
    exact .refl
  | cons stage rest ih =>
    obtain ⟨others, result⟩ := stage
    rw [runStages] at hrun
    split at hrun
    · next hsync =>
      cases hrun
      exact reaches_sync hdrive hsync
    · next hsync => exact (reaches_sync hdrive hsync).trans (.head rfl (ih hrun))

end stages

/-- A call ends, and the machine is left with what driving the lane does. -/
theorem reaches_drive (rule : Rule) (bound : Option Nat) (q : Qubit) (w : Walk)
    (below : List Call) (todo : List Qubit) :
    Reaches rule ⟨w, ⟨bound, q, .looking⟩ :: below, todo⟩
      ⟨(drive rule bound q w).1, below, todo⟩ := by
  -- the calls below are arbitrary, as the calls made on the way stand on top of them
  refine drive_induction (P := fun bound q w w' => ∀ below todo,
    Reaches rule ⟨w, ⟨bound, q, .looking⟩ :: below, todo⟩ ⟨w', below, todo⟩) ?_ ?_ ?_ bound q w
    below todo
  · intro bound q w hidle below todo
    refine .single ?_
    cases htop : w.lanes.top? q with
    | none => simp only [step, htop]
    | some slot => simp only [step, htop, hidle slot htop, Bool.false_eq_true, if_false]
  · intro bound q w slot htop habove hop below todo
    refine .single ?_
    simp only [step, htop, habove, if_true, hop, giveUp]
  · intro bound q w slot op htop habove hop driveTo v b hdrive hrun
    have hlook : ∀ below todo, step rule ⟨w, ⟨bound, q, .looking⟩ :: below, todo⟩ =
        some ⟨{ w with lanes := (rule q op).halt.foldl Lanes.clear w.lanes },
          ⟨bound, q, .working ⟨slot, (rule q op).stages, (rule q op).advance⟩⟩ :: below, todo⟩ := by
      intro below todo
      simp only [step, htop, habove, if_true, hop]
    refine ⟨fun hstop below todo => ?_, fun hb others hothers w' hrest below todo => ?_⟩
    · refine .head (hlook below todo) ((reaches_runStages hdrive hrun).trans ?_)
      cases b with
      | false => exact .refl
      | true =>
        rw [hstop rfl]
        exact .single rfl
    · subst hb
      refine .head (hlook below todo) ((reaches_runStages hdrive hrun).trans ?_)
      rw [hothers]
      exact .head rfl (hrest below todo)

/-- The machine stops, whatever the rule and the lanes are, and leaves what the walk leaves. -/
theorem reaches_run (rule : Rule) (w : Walk) : Reaches rule (start w) ⟨run rule w, [], []⟩ := by
  rw [run, start]
  induction List.range w.lanes.count generalizing w with
  | nil => exact .refl
  | cons i rest ih => exact .head rfl ((reaches_drive rule none ⟨i⟩ w [] _).trans (ih _))

end Machine
end Walk
end QuantumCircuit
