import QuantumCircuit.Measurement.Deferral
import QuantumCircuit.Proofs.Validity

/-! One scan of the deferral, and the run over all measurements. A scan changes
nothing in front of the place where it starts, and each gate it puts in stands for
one conditional gate on the bit that is read. -/
namespace QuantumCircuit
namespace Deferral
open Operation

/-! ## Rewired gates -/

/-- The control that takes the place of a condition on the measured qubit. -/
def controlFor (q : Qubit) (cond : Condition) : Control :=
  if cond.value = 1 then .pos q else .neg q

theorem qubit_controlFor (q : Qubit) (cond : Condition) : (controlFor q cond).qubit = q := by
  rw [controlFor]
  split <;> rfl

/-- The gate with one control more. -/
def withControl (g : Gate) (c : Control) : Gate := { g with controls := g.controls.insert c }

theorem actsOn_withControl {g : Gate} {c : Control} {r : Qubit} :
    (withControl g c).actsOn r = true ↔ r = c.qubit ∨ g.actsOn r = true := by
  simp only [← Gate.mem_operands, Gate.operands, withControl, List.mem_append,
    Controls.mem_qubits_insert, or_assoc]

/-- What is rewired is a gate under a condition on the one bit. -/
theorem inspect_eq_replace {q : Qubit} {b : Clbit} {op : Operation} {g : Gate}
    (h : inspect q b op = .ok (.replace g)) :
    ∃ cond body, op = .conditional cond (.gate body) ∧ cond.register = .single b ∧
      q ∉ body.targets ∧ g = withControl body (controlFor q cond) := by
  cases op with
  | gate body => cases h
  | compound children =>
    unfold inspect at h
    split at h
    · cases h
    · cases h
  | effect e =>
    unfold inspect at h
    split at h
    · cases h
    · split at h
      · cases h
      · split at h
        · split at h <;> cases h
        · cases h
  | conditional cond body =>
    rw [inspect_conditional] at h
    by_cases hsize : cond.register.size = 1
    · by_cases hstart : cond.register.start = b
      · rw [if_neg (not_not.2 hsize), if_pos hstart] at h
        cases body with
        | gate body =>
          by_cases hq : q ∈ body.targets
          · rw [rewire, if_pos hq] at h
            cases h
          · rw [rewire, if_neg hq] at h
            cases h
            refine ⟨cond, body, rfl, ?_, hq, rfl⟩
            rw [Register.single, ← hstart, ← hsize]
        | compound children => cases h
        | effect e => cases h
        | conditional inner body => cases h
      · rw [if_neg (not_not.2 hsize), if_neg hstart] at h
        cases h
    · rw [if_pos hsize] at h
      cases h

/-! ## The list under the scan -/

section cut
variable {ops : List Operation} {cursor insertion : Nat}

/-- The operation at the cursor goes, and the new one is put in front of those
that the place for rewired gates has fallen behind. -/
theorem relocate_eq (hle : insertion ≤ cursor) (hlt : cursor < ops.length) (new : Operation) :
    relocate ops cursor insertion new = ops.take insertion ++
      new :: ((ops.take cursor).drop insertion ++ ops.drop (cursor + 1)) := by
  have hlen : insertion ≤ (ops.take cursor).length := by
    rw [List.length_take]
    omega
  rw [relocate, List.take_append_of_le_length hlen, List.drop_append_of_le_length hlen,
    List.take_take, Nat.min_eq_left hle]

end cut

section step
variable {q : Qubit} {b : Clbit} {before rest : List Operation} {op : Operation} {insertion : Nat}

theorem getElem_append_length (h : before.length < (before ++ op :: rest).length) :
    (before ++ op :: rest)[before.length] = op := by
  simp

theorem length_lt_append_cons : before.length < (before ++ op :: rest).length := by
  simp

theorem drop_append_cons : (before ++ op :: rest).drop (before.length + 1) = rest := by
  simp

theorem scan_end (q : Qubit) (b : Clbit) (ops : List Operation) (insertion : Nat) :
    scan q b ops ops.length insertion = .done ops := by
  rw [scan, dif_neg (Nat.lt_irrefl _)]

/-- One step of the scan, by what it does at the operation. -/
theorem scan_step : scan q b (before ++ op :: rest) before.length insertion =
    match inspect q b op with
    | .error e => .failed e (before ++ op :: rest)
    | .ok .stop => .done (before ++ op :: rest)
    | .ok (.skip moves) => scan q b (before ++ op :: rest) (before.length + 1)
        (if moves then insertion + 1 else insertion)
    | .ok (.replace g) => scan q b (relocate (before ++ op :: rest) before.length insertion
        (.gate g)) (insertion + 1) (insertion + 1) := by
  rw [scan, dif_pos length_lt_append_cons]
  split
  · next heq =>
    rw [getElem_append_length] at heq
    rw [heq]
  · next heq =>
    rw [getElem_append_length] at heq
    rw [heq]
  · next heq =>
    rw [getElem_append_length] at heq
    rw [heq]
  · next heq =>
    rw [getElem_append_length] at heq
    rw [heq]

theorem scan_error {e : PassError} (h : inspect q b op = .error e) :
    scan q b (before ++ op :: rest) before.length insertion =
      .failed e (before ++ op :: rest) := by
  rw [scan_step, h]

theorem scan_stop (h : inspect q b op = .ok .stop) :
    scan q b (before ++ op :: rest) before.length insertion = .done (before ++ op :: rest) := by
  rw [scan_step, h]

theorem scan_skip {moves : Bool} (h : inspect q b op = .ok (.skip moves)) :
    scan q b (before ++ op :: rest) before.length insertion =
      scan q b (before ++ op :: rest) (before.length + 1)
        (if moves then insertion + 1 else insertion) := by
  rw [scan_step, h]

theorem scan_replace {g : Gate} (h : inspect q b op = .ok (.replace g)) :
    scan q b (before ++ op :: rest) before.length insertion =
      scan q b (relocate (before ++ op :: rest) before.length insertion (.gate g))
        (insertion + 1) (insertion + 1) := by
  rw [scan_step, h]

end step

/-- A scan changes nothing in front of the place for rewired gates. -/
theorem take_scan {q : Qubit} {b : Clbit} {ops : List Operation} {cursor insertion k : Nat}
    (hk : k ≤ insertion) (hle : insertion ≤ cursor) :
    (scan q b ops cursor insertion).state.take k = ops.take k := by
  fun_induction scan q b ops cursor insertion with
  | case1 => rfl
  | case2 => rfl
  | case3 ops cursor insertion _ moves _ ih =>
    apply ih
    · split <;> omega
    · split <;> omega
  | case4 ops cursor insertion hlt g _ _ ih =>
    have hlen : k ≤ (ops.take insertion).length := by
      rw [List.length_take]
      omega
    rw [ih (by omega) (Nat.le_refl _), relocate_eq hle hlt, List.take_append_of_le_length hlen,
      List.take_take, Nat.min_eq_left hk]
  | case5 => rfl

/-! ## The run over all measurements -/

/-- A run that succeeds: what has been passed, what is still to come, what has been
deferred so far, and the state at the end. -/
inductive Runs : List Operation → List Operation → OrderedMap Qubit Clbit → State → Prop where
  | finish (before : List Operation) (d : OrderedMap Qubit Clbit) : Runs before [] d ⟨before, d⟩
  | pass {before rest : List Operation} {op : Operation} {d : OrderedMap Qubit Clbit} {s : State} :
    measurement? op = .ok none → Runs (before ++ [op]) rest d s → Runs before (op :: rest) d s
  /-- A measurement that is the last operation stays. -/
  | last {before : List Operation} {op : Operation} {d : OrderedMap Qubit Clbit} {q : Qubit}
    {b : Clbit} : measurement? op = .ok (some (q, b)) → Runs before [op] d ⟨before ++ [op], d⟩
  | defer {before rest rest' : List Operation} {op : Operation} {d : OrderedMap Qubit Clbit}
    {s : State} {q : Qubit} {b : Clbit} : measurement? op = .ok (some (q, b)) → rest ≠ [] →
    scan q b (before ++ rest) before.length before.length = .done (before ++ rest') →
    Runs before rest' (d.insert q b) s → Runs before (op :: rest) d s

section run
variable {before rest : List Operation} {op : Operation} {d : OrderedMap Qubit Clbit} {q : Qubit}
  {b : Clbit}

theorem deferFrom_pass (h : measurement? op = .ok none) :
    deferFrom before.length ⟨before ++ op :: rest, d⟩ =
      deferFrom (before ++ [op]).length ⟨before ++ [op] ++ rest, d⟩ := by
  rw [deferFrom, dif_pos length_lt_append_cons]
  simp [h]

theorem deferFrom_last (h : measurement? op = .ok (some (q, b))) :
    deferFrom before.length ⟨before ++ [op], d⟩ = .done ⟨before ++ [op], d⟩ := by
  rw [deferFrom, dif_pos length_lt_append_cons]
  simp [h]

theorem deferFrom_defer (h : measurement? op = .ok (some (q, b))) (hrest : rest ≠ []) :
    deferFrom before.length ⟨before ++ op :: rest, d⟩ =
      match scan q b (before ++ rest) before.length before.length with
      | .failed e ops => .failed e ⟨ops, d.insert q b⟩
      | .done ops => deferFrom before.length ⟨ops, d.insert q b⟩ := by
  have htaken : (before ++ op :: rest).take before.length ++
      (before ++ op :: rest).drop (before.length + 1) = before ++ rest := by
    rw [List.take_left' rfl, drop_append_cons]
  have hlast : ¬ before.length + 1 = (before ++ op :: rest).length := by
    have := List.length_pos_iff.2 hrest
    simp
    omega
  rw [deferFrom, dif_pos length_lt_append_cons]
  simp only [getElem_append_length, h, if_neg hlast, htaken]
  cases scan q b (before ++ rest) before.length before.length with
  | failed e ops => rfl
  | done ops => rfl

theorem runs_of_deferFrom {s : State}
    (h : deferFrom before.length ⟨before ++ rest, d⟩ = .done s) : Runs before rest d s := by
  induction hn : rest.length generalizing before rest d with
  | zero =>
    obtain rfl := List.eq_nil_of_length_eq_zero hn
    rw [List.append_nil, deferFrom, dif_neg (Nat.lt_irrefl _)] at h
    cases h
    exact .finish before d
  | succ n ih =>
    cases rest with
    | nil => cases hn
    | cons op rest =>
      have hlen : rest.length = n := Nat.succ.inj hn
      cases hm : measurement? op with
      | error e =>
        rw [deferFrom, dif_pos length_lt_append_cons] at h
        simp [hm] at h
      | ok found =>
        cases found with
        | none =>
          rw [deferFrom_pass hm] at h
          exact .pass hm (ih h hlen)
        | some m =>
          obtain ⟨q, b⟩ := m
          by_cases hrest : rest = []
          · subst hrest
            rw [deferFrom_last hm] at h
            cases h
            exact .last hm
          · rw [deferFrom_defer hm hrest] at h
            split at h
            · cases h
            · next ops hscan =>
              have hfront : (scan q b (before ++ rest) before.length before.length).state.take
                  before.length = (before ++ rest).take before.length :=
                take_scan (Nat.le_refl _) (Nat.le_refl _)
              have hlength := length_scan q b (before ++ rest) before.length before.length
              rw [hscan, Outcome.state] at hfront hlength
              rw [List.take_left' rfl] at hfront
              obtain ⟨rest', rfl⟩ : ∃ rest', ops = before ++ rest' :=
                ⟨ops.drop before.length, by
                  conv_lhs => rw [← List.take_append_drop before.length ops, hfront]⟩
              refine .defer hm hrest hscan (ih h ?_)
              simp only [List.length_append] at hlength
              omega

end run

/-! ## The measurements at the end -/

/-- The measurement of one qubit into one bit. -/
def measuring (m : Qubit × Clbit) : Operation :=
  .effect { kind := .measure, targets := [m.1], clbits := [m.2] }

theorem measurement?_eq_some {op : Operation} {q : Qubit} {b : Clbit}
    (h : measurement? op = .ok (some (q, b))) :
    op.isMeasure = true ∧ op.targets = [q] ∧ op.clbits = [b] := by
  rw [measurement?] at h
  split at h
  · next hmeasure =>
    split at h
    · next q' b' htargets hclbits =>
      cases h
      exact ⟨hmeasure, htargets, hclbits⟩
    · cases h
  · cases h

theorem eq_measuring {op : Operation} {q : Qubit} {b : Clbit}
    (h : measurement? op = .ok (some (q, b))) : op = measuring (q, b) := by
  obtain ⟨hmeasure, htargets, hclbits⟩ := measurement?_eq_some h
  cases op with
  | effect e =>
    obtain ⟨kind, targets, clbits⟩ := e
    obtain rfl : kind = .measure := by simpa [isMeasure] using hmeasure
    obtain rfl : targets = [q] := htargets
    obtain rfl : clbits = [b] := hclbits
    rfl
  | gate g => cases hmeasure
  | compound children => cases hmeasure
  | conditional cond body => cases hmeasure

theorem isMeasure_of_measurement?_none {op : Operation} (h : measurement? op = .ok none) :
    op.isMeasure = false := by
  rw [measurement?] at h
  split at h
  · split at h <;> cases h
  · next hmeasure => exact Bool.eq_false_iff.2 hmeasure

theorem inspect_measuring (q : Qubit) (b : Clbit) :
    inspect q b (measuring (q, b)) = .ok .stop := by
  unfold inspect
  simp [measuring, isUnitary, isReset, isMeasure, targets, clbits]

theorem ne_measuring_of_skip {q : Qubit} {b : Clbit} {op : Operation} {moves : Bool}
    (h : inspect q b op = .ok (.skip moves)) : op ≠ measuring (q, b) := by
  rintro rfl
  rw [inspect_measuring] at h
  cases h

theorem append_eq_ok {m : Qubit × Clbit} {c c' : Circuit} (h : append m c = .ok c') :
    c' = { c with ops := c.ops ++ [measuring m] } := by
  have hpush : c.push (measuring m) = .ok c' := by
    rw [append] at h
    split at h
    · next hmeasure =>
      cases h
      exact hmeasure
    · cases h
  exact (Circuit.push_eq_ok hpush).2.2

theorem forEach_append_eq_done {ms : List (Qubit × Clbit)} {c c' : Circuit}
    (h : Outcome.forEach append ms c = .done c') :
    c' = { c with ops := c.ops ++ ms.map measuring } := by
  induction ms generalizing c with
  | nil =>
    cases h
    simp
  | cons m rest ih =>
    rw [Outcome.forEach] at h
    split at h
    · next hm => rw [ih h, append_eq_ok hm, List.map_cons, List.append_assoc, List.singleton_append]
    · cases h

/-- A deferral that succeeds is a run over the operations, followed by the deferred
measurements. -/
theorem deferMeasurements_eq_done {c out : Circuit} (h : c.deferMeasurements = .done out) :
    ∃ s, Runs [] c.ops ∅ s ∧ out.ops = s.ops ++ s.deferred.entries.map measuring := by
  rw [Circuit.deferMeasurements] at h
  split at h
  · cases h
  · next s hs =>
    refine ⟨s, runs_of_deferFrom hs, ?_⟩
    split at h
    · next hempty =>
      cases h
      have hnil : s.deferred.entries = [] := List.isEmpty_iff.1 hempty
      simp [hnil]
    · cases hfor : Outcome.forEach append s.deferred.entries
          { c with ops := s.ops, output := ∅ } with
      | failed e c' =>
        rw [hfor] at h
        cases h
      | done c' =>
        rw [hfor] at h
        cases h
        exact congrArg Circuit.ops (forEach_append_eq_done hfor)

end Deferral
end QuantumCircuit
