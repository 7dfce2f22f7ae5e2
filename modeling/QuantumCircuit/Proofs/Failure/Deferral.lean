import Mathlib.Logic.Relation
import QuantumCircuit.Proofs.Deferral.Run
import QuantumCircuit.Proofs.Failure.Sweep
import QuantumCircuit.Proofs.Ordered

/-! Deferrals that give up. A measurement is taken out before the operations behind
it are looked at, and only at the end are the measurements put back, so what is left
has lost one of them. Some conditional gates may have been rewired by then; all other
operations are still there. Nothing has changed only if the very first measurement is
not one that can be deferred. -/
namespace QuantumCircuit
namespace Deferral
open Operation

/-! ## Edits -/

/-- What a deferral does to the operations: it takes a measurement out, or it puts a gate
that is conditional on the bit of one taken out further to the front, under a control on the
measured qubit. -/
inductive Edit : State → State → Prop where
  | take (before after : List Operation) (d : OrderedMap Qubit Clbit) (q : Qubit) (b : Clbit) :
    Edit ⟨before ++ measuring (q, b) :: after, d⟩ ⟨before ++ after, d.insert q b⟩
  | rewire (before between after : List Operation) {d : OrderedMap Qubit Clbit} {q : Qubit}
    {b : Clbit} {cond : Condition} {g : Gate} :
    d.get? q = some b → cond.register = .single b → q ∉ g.targets →
    Edit ⟨before ++ (between ++ .conditional cond (.gate g) :: after), d⟩
      ⟨before ++ .gate (withControl g (controlFor q cond)) :: (between ++ after), d⟩

/-- Edits one after the other. -/
def Edits : State → State → Prop := Relation.ReflTransGen Edit

section edits
variable {q : Qubit} {b : Clbit} {ops : List Operation} {i : Nat} {s s' : State}

theorem edits_scan {d : OrderedMap Qubit Clbit} (hd : d.get? q = some b) {cursor insertion : Nat}
    (hle : insertion ≤ cursor) : Edits ⟨ops, d⟩ ⟨(scan q b ops cursor insertion).state, d⟩ := by
  fun_induction scan q b ops cursor insertion with
  | case1 => exact .refl
  | case2 => exact .refl
  | case3 ops cursor insertion _ moves _ ih =>
    apply ih
    split <;> omega
  | case4 ops cursor insertion hlt g hreplace _ ih =>
    obtain ⟨cond, body, hop, hregister, hq, rfl⟩ := inspect_eq_replace hreplace
    have hold : ops = ops.take insertion ++ ((ops.take cursor).drop insertion ++
        .conditional cond (.gate body) :: ops.drop (cursor + 1)) := by
      have hfront : ops.take insertion ++ (ops.take cursor).drop insertion = ops.take cursor := by
        conv_rhs => rw [← List.take_append_drop insertion (ops.take cursor), List.take_take,
          Nat.min_eq_left hle]
      rw [← List.append_assoc, hfront, ← hop, ← List.drop_eq_getElem_cons hlt,
        List.take_append_drop]
    have hedit : Edit ⟨ops, d⟩
        ⟨relocate ops cursor insertion (.gate (withControl body (controlFor q cond))), d⟩ := by
      have hstep := Edit.rewire (ops.take insertion) ((ops.take cursor).drop insertion)
        (ops.drop (cursor + 1)) hd hregister hq
      rwa [← hold, ← relocate_eq hle hlt] at hstep
    exact .head hedit (ih (Nat.le_refl _))
  | case5 => exact .refl

/-- Taking a measurement out and scanning what is behind it. -/
theorem edits_takeOut (hi : i < s.ops.length)
    (hm : measurement? s.ops[i] = .ok (some (q, b))) :
    Edits s ⟨(scan q b (s.ops.take i ++ s.ops.drop (i + 1)) i i).state, s.deferred.insert q b⟩ := by
  have htake : Edit s ⟨s.ops.take i ++ s.ops.drop (i + 1), s.deferred.insert q b⟩ := by
    have hstep := Edit.take (s.ops.take i) (s.ops.drop (i + 1)) s.deferred q b
    rwa [← eq_measuring hm, ← List.drop_eq_getElem_cons hi, List.take_append_drop] at hstep
  exact .head htake (edits_scan (by simp) (Nat.le_refl i))

/-- Whether a run ends or gives up, it has done nothing but edits. -/
theorem edits_deferFrom (i : Nat) (s : State) : Edits s (deferFrom i s).state := by
  fun_induction deferFrom i s with
  | case1 => exact .refl
  | case2 _ _ _ _ ih => exact ih
  | case3 => exact .refl
  | case4 i s hlt q b hm _ _ _ _ _ => exact edits_takeOut hlt hm
  | case5 i s hlt q b hm _ _ _ _ ih => exact .trans (edits_takeOut hlt hm) ih
  | case6 => exact .refl

theorem length_entries_insert_le (d : OrderedMap Qubit Clbit) (q : Qubit) (b : Clbit) :
    (d.insert q b).entries.length ≤ d.entries.length + 1 := by
  rw [(d.entries_insert_perm q b).length_eq, List.length_cons]
  exact Nat.succ_le_succ (List.length_filter_le _ _)

/-- Edits find no new measurements, and those that are still there are together with the
deferred ones not more than there were. -/
theorem Edits.countP_isMeasure_le (h : Edits s s') :
    s'.ops.countP isMeasure ≤ s.ops.countP isMeasure ∧
      s'.ops.countP isMeasure + s'.deferred.entries.length ≤
        s.ops.countP isMeasure + s.deferred.entries.length := by
  induction h with
  | refl => exact ⟨Nat.le_refl _, Nat.le_refl _⟩
  | tail _ hstep ih =>
    cases hstep with
    | take before after d q b =>
      have hmeasure : (measuring (q, b)).isMeasure = true := rfl
      have hinsert := length_entries_insert_le d q b
      dsimp only at ih ⊢
      rw [List.countP_append, List.countP_cons_of_pos hmeasure] at ih
      rw [List.countP_append]
      omega
    | rewire before between after _ _ _ =>
      simp only [List.countP_append] at ih ⊢
      rw [List.countP_cons_of_neg (by simp [isMeasure])] at ih ⊢
      rwa [List.countP_append]

/-- The operations that a deferral lets alone. -/
def isBystander (op : Operation) : Bool := !op.isMeasure && !op.isConditional

/-- Edits keep the bystanders in order. -/
theorem Edits.bystanders (h : Edits s s') : (s.ops.filter isBystander).Sublist s'.ops := by
  induction h with
  | refl => exact List.filter_sublist
  | tail _ hstep ih =>
    have hkept := ih.filter isBystander
    rw [List.filter_filter] at hkept
    simp only [Bool.and_self] at hkept
    cases hstep with
    | take before after d q b =>
      refine hkept.trans ?_
      rw [List.filter_append, List.filter_cons_of_neg (by simp [isBystander, isMeasure, measuring]),
        ← List.filter_append]
      exact List.filter_sublist
    | rewire before between after _ _ _ =>
      refine hkept.trans ?_
      rw [List.filter_append, List.filter_append,
        List.filter_cons_of_neg (by simp [isBystander, isConditional]), ← List.filter_append,
        ← List.filter_append]
      exact List.filter_sublist.trans ((List.sublist_cons_self _ _).append_left _)

end edits

/-! ## The first measurement -/

section first
variable {before after : List Operation} {first : Operation} {d : OrderedMap Qubit Clbit}

/-- Operations that are not measurements are passed. -/
theorem deferFrom_front (before : List Operation) {front : List Operation} (rest : List Operation)
    (hfront : ∀ op ∈ front, op.isMeasure = false) :
    deferFrom before.length ⟨before ++ (front ++ rest), d⟩ =
      deferFrom (before ++ front).length ⟨before ++ front ++ rest, d⟩ := by
  induction front generalizing before with
  | nil => simp
  | cons op front ih =>
    have hop : measurement? op = .ok none := by
      rw [measurement?, if_neg (by simp [hfront op List.mem_cons_self])]
    rw [List.cons_append, deferFrom_pass hop,
      ih (before ++ [op]) fun o ho => hfront o (List.mem_cons_of_mem _ ho)]
    simp

theorem take_takeOut {ops : List Operation} {i : Nat} (hi : i < ops.length) (q : Qubit)
    (b : Clbit) :
    (scan q b (ops.take i ++ ops.drop (i + 1)) i i).state.take i = ops.take i := by
  have hlength : (ops.take i).length = i := List.length_take_of_le (Nat.le_of_lt hi)
  rw [take_scan (Nat.le_refl i) (Nat.le_refl i), List.take_left' hlength]

/-- A run changes nothing in front of the place where it starts. -/
theorem take_deferFrom (i : Nat) (s : State) :
    (deferFrom i s).state.ops.take i = s.ops.take i := by
  fun_induction deferFrom i s with
  | case1 => rfl
  | case2 i s _ _ ih =>
    have htake := congrArg (List.take i) ih
    rwa [List.take_take, List.take_take, Nat.min_eq_left (Nat.le_succ i)] at htake
  | case3 => rfl
  | case4 i s hlt q b _ _ _ _ _ _ => exact take_takeOut hlt q b
  | case5 i s hlt q b _ _ _ _ _ ih => exact ih.trans (take_takeOut hlt q b)
  | case6 => rfl

/-- A run that takes out the first measurement loses it, whatever happens then. -/
theorem countP_isMeasure_deferFrom_lt {q : Qubit} {b : Clbit}
    (hm : measurement? first = .ok (some (q, b))) (hafter : after ≠ []) :
    (deferFrom before.length ⟨before ++ first :: after, d⟩).state.ops.countP isMeasure <
      (before ++ first :: after).countP isMeasure := by
  have hmeasure : first.isMeasure = true := (measurement?_eq_some hm).1
  have hscan : Edits ⟨before ++ after, d.insert q b⟩
      ⟨(scan q b (before ++ after) before.length before.length).state, d.insert q b⟩ :=
    edits_scan (by simp) (Nat.le_refl before.length)
  have hedits : Edits ⟨before ++ after, d.insert q b⟩
      (deferFrom before.length ⟨before ++ first :: after, d⟩).state := by
    rw [deferFrom_defer hm hafter]
    cases hscanned : scan q b (before ++ after) before.length before.length with
    | failed e ops =>
      rw [hscanned] at hscan
      exact hscan
    | done ops =>
      rw [hscanned] at hscan
      exact .trans hscan (edits_deferFrom _ _)
  have hle := hedits.countP_isMeasure_le.1
  rw [List.countP_append] at hle
  rw [List.countP_append, List.countP_cons_of_pos hmeasure]
  omega

/-- A run that has nothing to defer changes nothing, one that cannot defer the first
measurement stops there, and any other loses that measurement. -/
theorem deferFrom_cases (ops : List Operation) :
    deferFrom 0 ⟨ops, ∅⟩ = .done ⟨ops, ∅⟩ ∨
      ∃ before first after, ops = before ++ first :: after ∧
        (∀ op ∈ before, op.isMeasure = false) ∧ first.isMeasure = true ∧
        ((∃ e, measurement? first = .error e ∧ deferFrom 0 ⟨ops, ∅⟩ = .failed e ⟨ops, ∅⟩) ∨
          (∃ m, first = measuring m) ∧ before <+: (deferFrom 0 ⟨ops, ∅⟩).state.ops ∧
            (deferFrom 0 ⟨ops, ∅⟩).state.ops.countP isMeasure < ops.countP isMeasure) := by
  cases hfind : ops.find? isMeasure with
  | none =>
    left
    have hnone : ∀ op ∈ ops, op.isMeasure = false := by simpa using hfind
    have hfront := deferFrom_front (d := ∅) [] [] hnone
    simp only [List.append_nil, List.nil_append] at hfront
    exact hfront.trans (by rw [deferFrom, dif_neg (Nat.lt_irrefl _)])
  | some first =>
    obtain ⟨hfirst, before, after, rfl, hbefore⟩ := List.find?_eq_some_iff_append.1 hfind
    have hbefore' : ∀ op ∈ before, op.isMeasure = false := by simpa using hbefore
    have hstart : deferFrom 0 ⟨before ++ first :: after, ∅⟩ =
        deferFrom before.length ⟨before ++ first :: after, ∅⟩ :=
      deferFrom_front [] (first :: after) hbefore'
    rw [hstart]
    cases hm : measurement? first with
    | error e =>
      refine .inr ⟨before, first, after, rfl, hbefore', hfirst, .inl ⟨e, hm, ?_⟩⟩
      rw [deferFrom, dif_pos length_lt_append_cons]
      simp only [getElem_append_length, hm]
    | ok found =>
      cases found with
      | none => exact absurd hfirst (by simp [isMeasure_of_measurement?_none hm])
      | some m =>
        by_cases hafter : after = []
        · subst hafter
          exact .inl (deferFrom_last hm)
        · have htake := take_deferFrom before.length ⟨before ++ first :: after, ∅⟩
          rw [List.take_left' rfl] at htake
          have hbegins := List.take_prefix before.length
            (deferFrom before.length ⟨before ++ first :: after, ∅⟩).state.ops
          rw [htake] at hbegins
          exact .inr ⟨before, first, after, rfl, hbefore', hfirst, .inr ⟨⟨m, eq_measuring hm⟩,
            hbegins, countP_isMeasure_deferFrom_lt hm hafter⟩⟩

end first

/-! ## What a deferral that gives up leaves -/

/-- The circuit `c'` is left when the deferral gives up on `c`. Nothing has changed if the
first measurement is not of one qubit into one bit. Otherwise what is left of the operations
comes from edits, behind which some of the measurements may have been put back: it begins as
before, all bystanders are there, and there are fewer measurements. If it is the end that
cannot be written, there is no output layout either. -/
def StopsWith (e : PassError) (c c' : Circuit) : Prop :=
  ∃ before first after, c.ops = before ++ first :: after ∧
    (∀ op ∈ before, op.isMeasure = false) ∧ first.isMeasure = true ∧
    (measurement? first = .error e ∧ c' = c ∨
      (∃ m, first = measuring m) ∧ ∃ s put, Edits ⟨c.ops, ∅⟩ s ∧
        c'.ops = s.ops ++ put.map measuring ∧ before <+: c'.ops ∧
        (c.ops.filter isBystander).Sublist c'.ops ∧
        c'.ops.countP isMeasure < c.ops.countP isMeasure ∧
        (put = [] ∧ c' = { c with ops := c'.ops } ∨
          (∃ cause, e = .circuit cause) ∧ (∃ m unput, s.deferred.entries = put ++ m :: unput) ∧
            c' = { c with ops := c'.ops, output := ∅ }))

theorem stopsWith_of_deferMeasurements {c c' : Circuit} {e : PassError}
    (h : c.deferMeasurements = .failed e c') : StopsWith e c c' := by
  rw [Circuit.deferMeasurements] at h
  rcases deferFrom_cases c.ops with
    hdone | ⟨before, first, after, hcut, hbefore, hfirst, ⟨e', hshape, hfailed⟩ | hlost⟩
  · rw [hdone] at h
    cases h
  · rw [hfailed] at h
    cases h
    exact ⟨before, first, after, hcut, hbefore, hfirst, .inl ⟨hshape, rfl⟩⟩
  · obtain ⟨hm, hbegins, hlt⟩ := hlost
    refine ⟨before, first, after, hcut, hbefore, hfirst, .inr ⟨hm, ?_⟩⟩
    have hedits := edits_deferFrom 0 ⟨c.ops, ∅⟩
    cases hrun : deferFrom 0 ⟨c.ops, ∅⟩ with
    | failed e' s =>
      rw [hrun] at h hbegins hlt hedits
      cases h
      exact ⟨s, [], hedits, (List.append_nil _).symm, hbegins, hedits.bystanders, hlt,
        .inl ⟨rfl, rfl⟩⟩
    | done s =>
      rw [hrun] at h hbegins hedits
      dsimp only at h
      split at h
      · cases h
      · -- The run has come to the end, but a measurement cannot be put back.
        cases hback : Outcome.forEach append s.deferred.entries
            { c with ops := s.ops, output := ∅ } with
        | done c₁ =>
          rw [hback] at h
          cases h
        | failed e' c₁ =>
          rw [hback] at h
          cases h
          obtain ⟨put, m, unput, hentries, hput, herror⟩ := Outcome.forEach_eq_failed hback
          have hcause : ∃ cause, e = .circuit cause := by
            rw [append] at herror
            split at herror
            · cases herror
            · next cause _ =>
              cases herror
              exact ⟨cause, rfl⟩
          have hc' := forEach_append_eq_done hput
          have hops : c'.ops = s.ops ++ put.map measuring := congrArg Circuit.ops hc'
          have hmeasures : (put.map measuring).countP isMeasure = put.length := by
            rw [List.countP_map]
            exact List.countP_eq_length.2 fun m _ => rfl
          have hsum : s.ops.countP isMeasure + s.deferred.entries.length ≤
              c.ops.countP isMeasure := hedits.countP_isMeasure_le.2
          have hlength := congrArg List.length hentries
          rw [List.length_append, List.length_cons] at hlength
          refine ⟨s, put, hedits, hops, ?_, ?_, ?_, .inr ⟨hcause, ⟨m, unput, hentries⟩, ?_⟩⟩
          · rw [hops]
            exact hbegins.trans (List.prefix_append _ _)
          · rw [hops]
            exact hedits.bystanders.trans (List.sublist_append_left _ _)
          · rw [hops, List.countP_append, hmeasures]
            omega
          · rw [hops]
            exact hc'

end Deferral
end QuantumCircuit
