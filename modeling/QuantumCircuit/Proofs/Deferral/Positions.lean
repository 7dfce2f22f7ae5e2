import Mathlib.Logic.Relation
import QuantumCircuit.Proofs.Deferral.Sources

/-! The positions of a deferral. Here the search for measurements and the scan behind each of
them are single steps, and an operation can be taken out or put in only at a position that
the list has. These steps lead every circuit to the outcome of the deferral, and no position
is ever out of range. What comes out has its measurements at the end. -/
namespace QuantumCircuit
namespace Deferral
open Operation

/-- The list without the operation at `i`, if there is one. -/
def takeOut? (ops : List Operation) (i : Nat) : Option (List Operation) :=
  if i < ops.length then some (ops.take i ++ ops.drop (i + 1)) else none

/-- The list with an operation put in at `i`, which is at most its end. -/
def putIn? (ops : List Operation) (i : Nat) (op : Operation) : Option (List Operation) :=
  if i ≤ ops.length then some (ops.take i ++ op :: ops.drop i) else none

/-- Where a deferral is: looking for the next measurement at `i`, or behind the measurement
of `q` into `b` that stood at `i`, with the operation at `cursor` to be looked at and the next
rewired gate to be put in at `insertion`. -/
inductive Position where
  | seeking (i : Nat)
  | scanning (i : Nat) (q : Qubit) (b : Clbit) (cursor insertion : Nat)
deriving Repr

structure Moment where
  state : State
  position : Position
deriving Repr

/-- What a step leads to. -/
inductive Turn where
  | next (moment : Moment)
  | finished (outcome : Outcome State)
  /-- An operation was to be taken out or put in at a position that the list does not have. -/
  | outOfRange
deriving Repr

/-- One step of a deferral. -/
def Moment.step : Moment → Turn
  | ⟨s, .seeking i⟩ =>
    -- Both loops end with the list, so a position is not looked at beyond it.
    match s.ops[i]? with
    | none => .finished (.done s)
    | some op =>
      match measurement? op with
      | .error e => .finished (.failed e s)
      | .ok none => .next ⟨s, .seeking (i + 1)⟩
      | .ok (some (q, b)) =>
        if i + 1 = s.ops.length then .finished (.done s)
        else
          match takeOut? s.ops i with
          | some ops => .next ⟨⟨ops, s.deferred.insert q b⟩, .scanning i q b i i⟩
          | none => .outOfRange
  | ⟨s, .scanning i q b cursor insertion⟩ =>
    match s.ops[cursor]? with
    | none => .next ⟨s, .seeking i⟩
    | some op =>
      match inspect q b op with
      | .error e => .finished (.failed e s)
      | .ok .stop => .next ⟨s, .seeking i⟩
      | .ok (.skip moves) =>
        .next ⟨s, .scanning i q b (cursor + 1) (if moves then insertion + 1 else insertion)⟩
      | .ok (.replace g) =>
        match (takeOut? s.ops cursor).bind fun rest => putIn? rest insertion (.gate g) with
        | some ops => .next ⟨⟨ops, s.deferred⟩, .scanning i q b (insertion + 1) (insertion + 1)⟩
        | none => .outOfRange

/-- A moment comes after another, some steps later. -/
def Moment.Reaches : Moment → Moment → Prop := Relation.ReflTransGen fun a b => a.step = .next b

/-- The steps from a moment on end with an outcome. -/
def Moment.Ends (m : Moment) (o : Outcome State) : Prop :=
  ∃ last, m.Reaches last ∧ last.step = .finished o

theorem Moment.Reaches.ends {a b : Moment} {o : Outcome State} (h : a.Reaches b) (hb : b.Ends o) :
    a.Ends o := by
  obtain ⟨last, hlast, hstep⟩ := hb
  exact ⟨last, h.trans hlast, hstep⟩

/-! ## Positions in range -/

section list
variable {ops : List Operation} {i cursor insertion : Nat}

theorem takeOut?_of_lt (h : i < ops.length) :
    takeOut? ops i = some (ops.take i ++ ops.drop (i + 1)) := if_pos h

theorem length_takeOut (h : i < ops.length) :
    (ops.take i ++ ops.drop (i + 1)).length = ops.length - 1 := by
  simp only [List.length_append, List.length_take, List.length_drop]
  omega

/-- An operation that goes in front of the place of another one finds its place. -/
theorem takeOut?_bind_putIn? (hle : insertion ≤ cursor) (hlt : cursor < ops.length)
    (op : Operation) :
    ((takeOut? ops cursor).bind fun rest => putIn? rest insertion op) =
      some (relocate ops cursor insertion op) := by
  have hplace : insertion ≤ (ops.take cursor ++ ops.drop (cursor + 1)).length := by
    rw [length_takeOut hlt]
    omega
  rw [takeOut?_of_lt hlt, Option.bind_some, putIn?, if_pos hplace, relocate]

end list

/-- The positions are those of the list, and rewired gates go in where the scan has been. -/
def Moment.InRange : Moment → Prop
  | ⟨s, .seeking i⟩ => i ≤ s.ops.length
  | ⟨s, .scanning i _ _ cursor insertion⟩ =>
    i ≤ insertion ∧ insertion ≤ cursor ∧ cursor ≤ s.ops.length

/-- A step that goes on stays in range. -/
def Turn.InRange : Turn → Prop
  | .next m => m.InRange
  | .finished _ => True
  | .outOfRange => False

theorem Moment.InRange.step {m : Moment} (h : m.InRange) : m.step.InRange := by
  obtain ⟨s, i | ⟨i, q, b, cursor, insertion⟩⟩ := m
  · rw [Moment.step]
    split
    · trivial
    · next op hop =>
      have hlt : i < s.ops.length := (List.getElem?_eq_some_iff.1 hop).1
      split
      · trivial
      · exact hlt
      · split
        · trivial
        · rw [takeOut?_of_lt hlt]
          refine ⟨Nat.le_refl i, Nat.le_refl i, ?_⟩
          rw [length_takeOut hlt]
          omega
  · obtain ⟨hi, hle, hcursor⟩ := h
    rw [Moment.step]
    split
    · exact hi.trans (hle.trans hcursor)
    · next op hop =>
      have hlt : cursor < s.ops.length := (List.getElem?_eq_some_iff.1 hop).1
      split
      · trivial
      · exact hi.trans (hle.trans hcursor)
      · refine ⟨?_, ?_, hlt⟩ <;> split <;> omega
      · rw [takeOut?_bind_putIn? hle hlt]
        refine ⟨Nat.le_succ_of_le hi, Nat.le_refl _, ?_⟩
        rw [length_relocate hlt]
        omega

theorem Moment.InRange.reaches {a b : Moment} (h : a.InRange) (hreach : a.Reaches b) :
    b.InRange := by
  induction hreach with
  | refl => exact h
  | tail _ hstep ih =>
    have := ih.step
    rw [hstep] at this
    exact this

/-! ## The outcome -/

/-- The steps of a scan lead to what the scan leaves. -/
theorem reaches_scanning {q : Qubit} {b : Clbit} {ops : List Operation} {cursor insertion : Nat}
    (hle : insertion ≤ cursor) (i : Nat) (d : OrderedMap Qubit Clbit) :
    ((scan q b ops cursor insertion).error? = none →
      Moment.Reaches ⟨⟨ops, d⟩, .scanning i q b cursor insertion⟩
        ⟨⟨(scan q b ops cursor insertion).state, d⟩, .seeking i⟩) ∧
    ∀ e, (scan q b ops cursor insertion).error? = some e →
      Moment.Ends ⟨⟨ops, d⟩, .scanning i q b cursor insertion⟩
        (.failed e ⟨(scan q b ops cursor insertion).state, d⟩) := by
  -- A step does what one call of `scan` does; the bound on `insertion` lets a rewired gate in.
  fun_induction scan q b ops cursor insertion with
  | case1 ops cursor insertion hlt e hop =>
    have hstep : Moment.step ⟨⟨ops, d⟩, .scanning i q b cursor insertion⟩ =
        .finished (.failed e ⟨ops, d⟩) := by
      simp only [Moment.step, List.getElem?_eq_getElem hlt, hop]
    refine ⟨fun h => (by cases h), ?_⟩
    rintro _ ⟨⟩
    exact ⟨_, .refl, hstep⟩
  | case2 ops cursor insertion hlt hop =>
    have hstep : Moment.step ⟨⟨ops, d⟩, .scanning i q b cursor insertion⟩ =
        .next ⟨⟨ops, d⟩, .seeking i⟩ := by
      simp only [Moment.step, List.getElem?_eq_getElem hlt, hop]
    exact ⟨fun _ => .single hstep, fun e h => (by cases h)⟩
  | case3 ops cursor insertion hlt moves hop ih =>
    have hstep : Moment.step ⟨⟨ops, d⟩, .scanning i q b cursor insertion⟩ =
        .next ⟨⟨ops, d⟩, .scanning i q b (cursor + 1)
          (if moves then insertion + 1 else insertion)⟩ := by
      simp only [Moment.step, List.getElem?_eq_getElem hlt, hop]
    obtain ⟨hdone, hfailed⟩ := ih (by split <;> omega)
    exact ⟨fun h => .head hstep (hdone h),
      fun e h => Moment.Reaches.ends (.single hstep) (hfailed e h)⟩
  | case4 ops cursor insertion hlt g hop _ ih =>
    have hstep : Moment.step ⟨⟨ops, d⟩, .scanning i q b cursor insertion⟩ =
        .next ⟨⟨relocate ops cursor insertion (.gate g), d⟩,
          .scanning i q b (insertion + 1) (insertion + 1)⟩ := by
      simp only [Moment.step, List.getElem?_eq_getElem hlt, hop, takeOut?_bind_putIn? hle hlt]
    obtain ⟨hdone, hfailed⟩ := ih (Nat.le_refl _)
    exact ⟨fun h => .head hstep (hdone h),
      fun e h => Moment.Reaches.ends (.single hstep) (hfailed e h)⟩
  | case5 ops cursor insertion hlt =>
    have hstep : Moment.step ⟨⟨ops, d⟩, .scanning i q b cursor insertion⟩ =
        .next ⟨⟨ops, d⟩, .seeking i⟩ := by
      simp only [Moment.step, List.getElem?_eq_none (Nat.le_of_not_lt hlt)]
    exact ⟨fun _ => .single hstep, fun e h => (by cases h)⟩

theorem step_seeking_defer {s : State} {i : Nat} {q : Qubit} {b : Clbit} (hlt : i < s.ops.length)
    (hop : measurement? s.ops[i] = .ok (some (q, b))) (hlast : ¬ i + 1 = s.ops.length) :
    Moment.step ⟨s, .seeking i⟩ = .next ⟨⟨s.ops.take i ++ s.ops.drop (i + 1),
      s.deferred.insert q b⟩, .scanning i q b i i⟩ := by
  simp only [Moment.step, List.getElem?_eq_getElem hlt, hop, if_neg hlast, takeOut?_of_lt hlt]

/-- From any position on, the steps end with the outcome of the deferral. -/
theorem ends_seeking (i : Nat) (s : State) : Moment.Ends ⟨s, .seeking i⟩ (deferFrom i s) := by
  fun_induction deferFrom i s with
  | case1 i s hlt e hop =>
    exact ⟨_, .refl, by simp only [Moment.step, List.getElem?_eq_getElem hlt, hop]⟩
  | case2 i s hlt hop ih =>
    refine Moment.Reaches.ends (.single ?_) ih
    simp only [Moment.step, List.getElem?_eq_getElem hlt, hop]
  | case3 i s hlt q b hop hlast =>
    exact ⟨_, .refl, by simp only [Moment.step, List.getElem?_eq_getElem hlt, hop, if_pos hlast]⟩
  | case4 i s hlt q b hop hlast deferred scanned e hfailed =>
    have hscan := (reaches_scanning (Nat.le_refl i) i deferred).2 e hfailed
    exact Moment.Reaches.ends (.single (step_seeking_defer hlt hop hlast)) hscan
  | case5 i s hlt q b hop hlast deferred scanned hdone ih =>
    have hscan := (reaches_scanning (Nat.le_refl i) i deferred).1 hdone
    exact Moment.Reaches.ends (.head (step_seeking_defer hlt hop hlast) hscan) ih
  | case6 i s hlt =>
    exact ⟨_, .refl, by simp only [Moment.step, List.getElem?_eq_none (Nat.le_of_not_lt hlt)]⟩

/-! ## Measurements at the end -/

theorem isMeasure_resolve {pick : List Qubit → Option Qubit} {seen : List (Qubit × Clbit)}
    (op : Operation) : (resolve pick seen op).isMeasure = op.isMeasure := by
  unfold resolve
  split
  · split <;> rfl
  · rfl

theorem countP_resolveAll {pick : List Qubit → Option Qubit} {seen : List (Qubit × Clbit)}
    (ops : List Operation) :
    (resolveAll pick seen ops).countP (!·.isMeasure) = ops.countP (!·.isMeasure) := by
  induction ops generalizing seen with
  | nil => rfl
  | cons op rest ih =>
    simp only [resolveAll, List.countP_cons, ih, isMeasure_resolve]

/-- Behind a measurement there are only measurements. -/
theorem isMeasure_behind {body before after : List Operation} {ms : List (Qubit × Clbit)}
    {m : Operation} (hbody : ∀ o ∈ body, o.isMeasure = false)
    (hcut : body ++ ms.map measuring = before ++ m :: after) (hm : m.isMeasure = true) :
    ∀ o ∈ after, o.isMeasure = true := by
  have hms : ∀ o ∈ ms.map measuring, o.isMeasure = true := by
    intro o ho
    obtain ⟨pair, -, rfl⟩ := List.mem_map.1 ho
    rfl
  rcases List.append_eq_append_iff.1 hcut with ⟨front, -, hback⟩ | ⟨front, hfront, hback⟩
  · intro o ho
    exact hms o (by simp [hback, ho])
  · cases front with
    | nil =>
      intro o ho
      exact hms o (by simp [show ms.map measuring = m :: after from hback.symm, ho])
    | cons first front =>
      obtain ⟨rfl, -⟩ := List.cons.inj hback
      rw [hbody m (by simp [hfront])] at hm
      cases hm

/-- The deferral of any circuit comes to an end, by steps that never use a position outside the
list: a rewired gate goes in where the scan has been. If it succeeds, the measurements stand
at the end and there are as many other operations as before. -/
theorem deferMeasurements_inRange (c : Circuit) :
    Moment.Ends ⟨{ ops := c.ops }, .seeking 0⟩ (deferFrom 0 { ops := c.ops }) ∧
      (∀ m, Moment.Reaches ⟨{ ops := c.ops }, .seeking 0⟩ m → m.step ≠ .outOfRange) ∧
      (∀ s i q b cursor insertion,
        Moment.Reaches ⟨{ ops := c.ops }, .seeking 0⟩ ⟨s, .scanning i q b cursor insertion⟩ →
          insertion ≤ cursor ∧ insertion ≤ s.ops.length) ∧
      ∀ out, c.deferMeasurements = .done out →
        (∀ before m after, out.ops = before ++ m :: after → m.isMeasure = true →
          ∀ o ∈ after, o.isMeasure = true) ∧
        out.ops.countP (!·.isMeasure) = c.ops.countP (!·.isMeasure) := by
  have hstart : Moment.InRange ⟨{ ops := c.ops }, .seeking 0⟩ := Nat.zero_le _
  refine ⟨ends_seeking 0 _, fun m hm hout => ?_, fun s i q b cursor insertion hm => ?_,
    fun out hdone => ?_⟩
  · have hturn := (hstart.reaches hm).step
    rw [hout] at hturn
    exact hturn
  · obtain ⟨-, hle, hcursor⟩ := hstart.reaches hm
    exact ⟨hle, hle.trans hcursor⟩
  · obtain ⟨body, stays, moved, hsplit, hops⟩ := splits_deferMeasurements hdone
    refine ⟨fun before m after hcut => ?_, ?_⟩
    · exact isMeasure_behind (fun o => hsplit.isMeasure_body) (hops ▸ hcut)
    · calc out.ops.countP (!·.isMeasure)
          = (out.ops.filter (!·.isMeasure)).length := List.countP_eq_length_filter
        _ = body.length := by rw [hops, hsplit.filter_output]
        _ = ((resolveAll firstUnrepeated? [] c.ops).filter (!·.isMeasure)).length :=
          hsplit.body.length_eq
        _ = (resolveAll firstUnrepeated? [] c.ops).countP (!·.isMeasure) :=
          List.countP_eq_length_filter.symm
        _ = c.ops.countP (!·.isMeasure) := countP_resolveAll c.ops

/-- A gate on the measured qubit stands in front of the gate that its result steers, so the scan
falls back; another measurement and a gate steered by it follow. -/
def fallback : Circuit :=
  { Circuit.withSize "fallback" 3 2 with
    ops := [measuring (⟨0⟩, ⟨0⟩), .gate (.ofKind .h [⟨0⟩]),
      .conditional ⟨.single ⟨0⟩, 1⟩ (.gate (.ofKind .x [⟨1⟩])), measuring (⟨1⟩, ⟨1⟩),
      .conditional ⟨.single ⟨1⟩, 0⟩ (.gate (.ofKind .z [⟨2⟩]))] }

theorem deferMeasurements_inRange_fallback :
    (∃ s, Moment.Reaches ⟨{ ops := fallback.ops }, .seeking 0⟩ ⟨s, .scanning 0 ⟨0⟩ ⟨0⟩ 2 1⟩ ∧
        1 ≤ 2 ∧ 1 ≤ s.ops.length) ∧
      ∃ out, fallback.deferMeasurements = .done out ∧
        out.ops = [.gate (.cnot ⟨0⟩ ⟨1⟩), .gate (.ofKind .h [⟨0⟩]),
          .gate (.controlled .z [.neg ⟨1⟩] [⟨2⟩]), measuring (⟨0⟩, ⟨0⟩), measuring (⟨1⟩, ⟨1⟩)] ∧
        (∀ before m after, out.ops = before ++ m :: after → m.isMeasure = true →
          ∀ o ∈ after, o.isMeasure = true) ∧
        out.ops.countP (!·.isMeasure) = fallback.ops.countP (!·.isMeasure) := by
  obtain ⟨-, -, hscan, hdone⟩ := deferMeasurements_inRange fallback
  have hreach : Moment.Reaches ⟨{ ops := fallback.ops }, .seeking 0⟩ _ :=
    .head rfl (.head rfl (.head rfl (.single rfl)))
  exact ⟨⟨_, hreach, hscan _ _ _ _ _ _ hreach⟩, _, by cbv, by cbv, hdone _ (by cbv)⟩

end Deferral
end QuantumCircuit
