import Mathlib.Data.List.Permutation
import QuantumCircuit.Proofs.Deferral.Moves

/-! The measurement that a gate comes to depend on. When a measurement is deferred, its
qubit takes over the gates that wait for its bit, up to the next measurement of the same
qubit into the same bit; what other qubits are measured into that bit makes no
difference. So among the qubits measured into its bit a gate goes to the first one that
is not measured into it again, and this is the latest one only if there is no other. -/
namespace QuantumCircuit

namespace Operation

/-- The qubits that a measurement reads, each with the bit that receives it. -/
def measured (op : Operation) : List (Qubit × Clbit) :=
  if op.isMeasure then op.targets.zip op.clbits else []

def measuredOfAll (ops : List Operation) : List (Qubit × Clbit) := ops.flatMap measured

theorem measured_of_not_isMeasure {op : Operation} (h : op.isMeasure = false) :
    op.measured = [] := by
  rw [measured, h]
  rfl

@[simp] theorem measuredOfAll_nil : measuredOfAll [] = [] := rfl

@[simp] theorem measuredOfAll_cons (op : Operation) (ops : List Operation) :
    measuredOfAll (op :: ops) = op.measured ++ measuredOfAll ops := rfl

@[simp] theorem measuredOfAll_append (as bs : List Operation) :
    measuredOfAll (as ++ bs) = measuredOfAll as ++ measuredOfAll bs :=
  List.flatMap_append

/-- Only the measurements count. -/
theorem measuredOfAll_filter (ops : List Operation) :
    measuredOfAll (ops.filter (·.isMeasure)) = measuredOfAll ops := by
  induction ops with
  | nil => rfl
  | cons op rest ih =>
    cases h : op.isMeasure with
    | true => rw [List.filter_cons_of_pos h, measuredOfAll_cons, measuredOfAll_cons, ih]
    | false =>
      rw [List.filter_cons_of_neg (by simp [h]), measuredOfAll_cons, measured_of_not_isMeasure h,
        ih, List.nil_append]

end Operation

namespace Deferral
open Operation

@[simp] theorem measured_measuring (m : Qubit × Clbit) : (measuring m).measured = [m] := rfl

@[simp] theorem measuredOfAll_map_measuring (ms : List (Qubit × Clbit)) :
    measuredOfAll (ms.map measuring) = ms := by
  induction ms with
  | nil => rfl
  | cons m rest ih => rw [List.map_cons, measuredOfAll_cons, measured_measuring, ih]; rfl

/-! ## The qubits measured into one bit -/

/-- The first qubit of a list that does not come again. -/
def firstUnrepeated? : List Qubit → Option Qubit
  | [] => none
  | q :: rest => if q ∈ rest then firstUnrepeated? rest else some q

theorem exists_firstUnrepeated? {qs : List Qubit} (h : qs ≠ []) :
    ∃ q, firstUnrepeated? qs = some q := by
  induction qs with
  | nil => exact absurd rfl h
  | cons q rest ih =>
    rw [firstUnrepeated?]
    split
    · next hq => exact ih (List.ne_nil_of_mem hq)
    · exact ⟨q, rfl⟩

/-- It is the last one exactly if the list holds no other qubit. -/
theorem firstUnrepeated?_eq_getLast?_iff {qs : List Qubit} :
    firstUnrepeated? qs = qs.getLast? ↔ ∀ p ∈ qs, ∀ q ∈ qs, p = q := by
  induction qs with
  | nil => simp [firstUnrepeated?]
  | cons q rest ih =>
    rw [firstUnrepeated?]
    by_cases hq : q ∈ rest
    · have hlast : (q :: rest).getLast? = rest.getLast? := by
        rw [List.getLast?_cons_of_ne_nil (List.ne_nil_of_mem hq)]
      rw [if_pos hq, hlast, ih]
      constructor
      · intro h p hp r hr
        have hmem : ∀ x ∈ q :: rest, x ∈ rest := by
          intro x hx
          rcases List.mem_cons.1 hx with rfl | hx
          · exact hq
          · exact hx
        exact h p (hmem p hp) r (hmem r hr)
      · intro h p hp r hr
        exact h p (List.mem_cons_of_mem _ hp) r (List.mem_cons_of_mem _ hr)
    · rw [if_neg hq]
      constructor
      · intro h
        have hnil : rest = [] := by
          by_contra hne
          rw [List.getLast?_cons_of_ne_nil hne] at h
          exact hq (List.mem_of_getLast? h.symm)
        subst hnil
        simp
      · intro h
        have hnil : rest = [] := by
          refine List.eq_nil_iff_forall_not_mem.2 fun r hr => hq ?_
          rwa [h q List.mem_cons_self r (List.mem_cons_of_mem _ hr)]
        subst hnil
        rfl

/-- The qubits measured into a bit, in order. -/
def writers (b : Clbit) (ms : List (Qubit × Clbit)) : List Qubit :=
  (ms.filter (·.2 = b)).map (·.1)

section writers
variable {q : Qubit} {b : Clbit} {ms : List (Qubit × Clbit)}

theorem mem_writers : q ∈ writers b ms ↔ (q, b) ∈ ms := by
  simp [writers]

theorem writers_cons_self : writers b ((q, b) :: ms) = q :: writers b ms := by
  simp [writers]

theorem writers_cons_of_ne {b' : Clbit} (h : b' ≠ b) :
    writers b' ((q, b) :: ms) = writers b' ms := by
  simp [writers, h.symm]

end writers

/-! ## Conditions resolved into controls -/

/-- A conditional gate comes under a control in place of its condition: on the qubit that
`pick` takes from those measured into the bit so far, if there is one. Any other operation
stays as it is. -/
def resolve (pick : List Qubit → Option Qubit) (seen : List (Qubit × Clbit)) :
    Operation → Operation
  | .conditional cond (.gate g) =>
    match pick (writers cond.register.start seen) with
    | some q => .gate (withControl g (controlFor q cond))
    | none => .conditional cond (.gate g)
  | op => op

/-- The operations one after the other, each with the measurements in front of it. -/
def resolveAll (pick : List Qubit → Option Qubit) (seen : List (Qubit × Clbit)) :
    List Operation → List Operation
  | [] => []
  | op :: rest => resolve pick seen op :: resolveAll pick (seen ++ op.measured) rest

section resolve
variable {pick pick' : List Qubit → Option Qubit} {seen : List (Qubit × Clbit)} {q : Qubit}
  {b : Clbit} {op : Operation}

theorem resolve_gate (g : Gate) : resolve pick seen (.gate g) = .gate g := rfl

theorem resolve_congr {seen' : List (Qubit × Clbit)}
    (h : ∀ cond body, op = .conditional cond body →
      pick (writers cond.register.start seen) = pick' (writers cond.register.start seen')) :
    resolve pick seen op = resolve pick' seen' op := by
  cases op with
  | gate g => rfl
  | compound children => rfl
  | effect e => rfl
  | conditional cond body =>
    cases body with
    | gate g => rw [resolve, resolve, h cond (.gate g) rfl]
    | compound children => rfl
    | effect e => rfl
    | conditional inner body => rfl

theorem resolve_of_isMeasure (h : op.isMeasure = true) : resolve pick seen op = op := by
  cases op with
  | effect e => rfl
  | gate g => cases h
  | compound children => cases h
  | conditional cond body => cases h

theorem resolve_nil (h : pick [] = none) : resolve pick [] op = op := by
  unfold resolve
  split
  · next cond g =>
    rw [show writers cond.register.start [] = [] from rfl, h]
  · rfl

theorem resolveAll_append (as bs : List Operation) :
    resolveAll pick seen (as ++ bs) =
      resolveAll pick seen as ++ resolveAll pick (seen ++ measuredOfAll as) bs := by
  induction as generalizing seen with
  | nil => simp [resolveAll]
  | cons op rest ih => simp [resolveAll, ih]

theorem mem_resolveAll {o : Operation} {ops : List Operation} (h : o ∈ resolveAll pick seen ops) :
    ∃ before op after, ops = before ++ op :: after ∧
      o = resolve pick (seen ++ measuredOfAll before) op := by
  induction ops generalizing seen with
  | nil => cases h
  | cons op rest ih =>
    rcases List.mem_cons.1 h with rfl | h
    · exact ⟨[], op, rest, rfl, by simp⟩
    · obtain ⟨before, op', after, rfl, rfl⟩ := ih h
      exact ⟨op :: before, op', after, rfl, by simp⟩

theorem resolveAll_congr {ops : List Operation}
    (h : ∀ before cond body after, ops = before ++ .conditional cond body :: after →
      pick (writers cond.register.start (seen ++ measuredOfAll before)) =
        pick' (writers cond.register.start (seen ++ measuredOfAll before))) :
    resolveAll pick seen ops = resolveAll pick' seen ops := by
  induction ops generalizing seen with
  | nil => rfl
  | cons op rest ih =>
    have hop : resolve pick seen op = resolve pick' seen op := by
      refine resolve_congr fun cond body hop => ?_
      have := h [] cond body rest (by rw [hop]; rfl)
      simpa using this
    rw [resolveAll, resolveAll, hop, ih]
    intro before cond body after hrest
    have := h (op :: before) cond body after (by rw [hrest]; rfl)
    simpa using this

/-! ## One measurement more -/

/-- If the pair is measured again, the earlier time does not count. -/
theorem resolve_cons_of_mem (h : (q, b) ∈ seen) :
    resolve firstUnrepeated? ((q, b) :: seen) op = resolve firstUnrepeated? seen op := by
  refine resolve_congr fun cond body _ => ?_
  by_cases hb : cond.register.start = b
  · rw [hb, writers_cons_self, firstUnrepeated?, if_pos (mem_writers.2 h)]
  · rw [writers_cons_of_ne hb]

theorem resolveAll_cons_of_mem {ops : List Operation} (h : (q, b) ∈ seen) :
    resolveAll firstUnrepeated? ((q, b) :: seen) ops = resolveAll firstUnrepeated? seen ops := by
  induction ops generalizing seen with
  | nil => rfl
  | cons op rest ih =>
    rw [resolveAll, resolveAll, resolve_cons_of_mem h, List.cons_append,
      ih (List.mem_append_left _ h)]

theorem readsFrom_of_skip {moves : Bool} (h : inspect q b op = .ok (.skip moves)) :
    readsFrom b op = false := by
  cases op with
  | gate g => rfl
  | compound children => rfl
  | effect e => rfl
  | conditional cond body =>
    rw [inspect_conditional] at h
    by_cases hstart : cond.register.start = b
    · rw [if_pos hstart] at h
      split at h
      · cases h
      · split at h <;> cases h
    · simp [readsFrom, hstart]

/-- What a scan goes past does not wait for the bit. -/
theorem resolve_cons_of_skip {moves : Bool} (h : inspect q b op = .ok (.skip moves)) :
    resolve firstUnrepeated? ((q, b) :: seen) op = resolve firstUnrepeated? seen op := by
  refine resolve_congr fun cond body hop => ?_
  have hreads := readsFrom_of_skip h
  rw [hop, readsFrom, decide_eq_false_iff_not] at hreads
  rw [writers_cons_of_ne hreads]

theorem resolve_of_replace {g : Gate} (h : inspect q b op = .ok (.replace g))
    (hseen : (q, b) ∉ seen) : resolve firstUnrepeated? ((q, b) :: seen) op = .gate g := by
  obtain ⟨cond, body, rfl, hreg, -, rfl⟩ := inspect_eq_replace h
  have hstart : cond.register.start = b := by
    rw [hreg]
    rfl
  have hpick : firstUnrepeated? (writers cond.register.start ((q, b) :: seen)) = some q := by
    rw [hstart, writers_cons_self, firstUnrepeated?, if_neg fun hq => hseen (mem_writers.1 hq)]
  rw [resolve, hpick]

end resolve

/-! ## A scan -/

/-- Every measurement is of one qubit into one bit. -/
def SingleMeasures (ops : List Operation) : Prop :=
  ∀ o ∈ ops, o.isMeasure = true → ∃ m, o = measuring m

section scans
variable {q : Qubit} {b : Clbit} {front passed rest out : List Operation} {ms : List Move}

theorem SingleMeasures.mono {ops ops' : List Operation} (h : SingleMeasures ops) (hsub : ops' ⊆ ops) :
    SingleMeasures ops' :=
  fun o ho => h o (hsub ho)

theorem not_mem_measured_of_skip {op : Operation} {moves : Bool}
    (h : inspect q b op = .ok (.skip moves)) (hsingle : op.isMeasure = true → ∃ m, op = measuring m) :
    (q, b) ∉ op.measured := by
  intro hmem
  cases hop : op.isMeasure with
  | false =>
    rw [measured_of_not_isMeasure hop] at hmem
    cases hmem
  | true =>
    obtain ⟨m, rfl⟩ := hsingle hop
    rw [measured_measuring, List.mem_singleton] at hmem
    subst hmem
    exact ne_measuring_of_skip h rfl

theorem eq_measuring_of_stop {op : Operation} (h : inspect q b op = .ok .stop) :
    op = measuring (q, b) := by
  unfold inspect at h
  split at h
  · cases h
  · split at h
    · cases h
    · split at h
      · next hmeasure =>
        split at h
        · next hpair =>
          apply eq_measuring
          rw [measurement?, if_pos hmeasure, hpair.1, hpair.2]
        · cases h
      · split at h
        · split at h
          · cases h
          · split at h
            · split at h <;> cases h
            · cases h
        · cases h

/-- Operations that a scan has gone past are resolved as before. -/
theorem resolveAll_cons_of_skip {seen : List (Qubit × Clbit)}
    (hpassed : ∀ o ∈ passed, ∃ moves, inspect q b o = .ok (.skip moves)) :
    resolveAll firstUnrepeated? ((q, b) :: seen) passed =
      resolveAll firstUnrepeated? seen passed := by
  induction passed generalizing seen with
  | nil => rfl
  | cons op rest ih =>
    obtain ⟨moves, hop⟩ := hpassed op List.mem_cons_self
    rw [resolveAll, resolveAll, resolve_cons_of_skip hop, List.cons_append,
      ih fun o ho => hpassed o (List.mem_cons_of_mem _ ho)]

theorem not_mem_measuredOfAll_of_skip (hsingle : SingleMeasures passed)
    (hpassed : ∀ o ∈ passed, ∃ moves, inspect q b o = .ok (.skip moves)) :
    (q, b) ∉ measuredOfAll passed := by
  intro hmem
  obtain ⟨o, ho, hin⟩ := List.mem_flatMap.1 hmem
  obtain ⟨moves, hskip⟩ := hpassed o ho
  exact not_mem_measured_of_skip hskip (hsingle o ho) hin

/-- A scan does to the operations behind a measurement what that measurement is there
for: after it they are resolved without the measurement as they were with it. Operations
in the queue have been gone past, so they do not wait for the bit. -/
theorem Scans.resolves (h : Scans q b front passed rest ms out)
    (hsingle : SingleMeasures (passed ++ rest))
    (hpassed : ∀ o ∈ passed, ∃ moves, inspect q b o = .ok (.skip moves)) :
    ∃ later, out = front ++ later ∧ ∀ seen, (q, b) ∉ seen →
      (resolveAll firstUnrepeated? seen later).Perm
        (resolveAll firstUnrepeated? ((q, b) :: seen) (passed ++ rest)) := by
  induction h with
  | finish front passed =>
    refine ⟨passed, rfl, fun seen _ => ?_⟩
    rw [List.append_nil, resolveAll_cons_of_skip hpassed]
  | @stop front passed rest op hop =>
    refine ⟨passed ++ op :: rest, rfl, fun seen _ => ?_⟩
    obtain rfl := eq_measuring_of_stop hop
    have hagain : (q, b) ∈ seen ++ measuredOfAll passed ++ [(q, b)] := by simp
    rw [resolveAll_append, resolveAll_append, resolveAll_cons_of_skip hpassed, List.cons_append,
      resolveAll, resolveAll, resolve_of_isMeasure rfl, resolve_of_isMeasure rfl,
      measured_measuring, List.cons_append, resolveAll_cons_of_mem hagain]
  | @keepUp front passed later rest out first op ms hop hcut _ ih =>
    have hlist : passed ++ op :: rest = first :: (later ++ rest) := by
      rw [List.append_cons, hcut, List.cons_append]
    have hqueue : ∀ o ∈ first :: later, ∃ moves, inspect q b o = .ok (.skip moves) := by
      intro o ho
      rw [← hcut] at ho
      rcases List.mem_append.1 ho with hold | hnew
      · exact hpassed o hold
      · exact ⟨true, List.mem_singleton.1 hnew ▸ hop⟩
    rw [hlist] at hsingle ⊢
    obtain ⟨moves, hfirst⟩ := hqueue first List.mem_cons_self
    obtain ⟨tail, rfl, htail⟩ := ih (hsingle.mono (List.subset_cons_self _ _))
      fun o ho => hqueue o (List.mem_cons_of_mem _ ho)
    refine ⟨first :: tail, by simp, fun seen hseen => ?_⟩
    have hseen' : (q, b) ∉ seen ++ first.measured := by
      rw [List.mem_append, not_or]
      exact ⟨hseen, not_mem_measured_of_skip hfirst (hsingle first List.mem_cons_self)⟩
    rw [resolveAll, resolveAll, resolve_cons_of_skip hfirst, List.cons_append]
    exact (htail _ hseen').cons _
  | @fallBehind front passed rest out op ms hop _ ih =>
    rw [List.append_cons] at hsingle ⊢
    apply ih hsingle
    intro o ho
    rcases List.mem_append.1 ho with hold | hnew
    · exact hpassed o hold
    · exact ⟨false, List.mem_singleton.1 hnew ▸ hop⟩
  | @replace front passed rest out op g ms hop _ ih =>
    have hless : passed ++ rest ⊆ passed ++ op :: rest := by simp
    have hgone : op.isMeasure = false := by
      obtain ⟨cond, body, rfl, -⟩ := inspect_eq_replace hop
      rfl
    obtain ⟨tail, rfl, htail⟩ := ih (hsingle.mono hless) fun o ho => absurd ho List.not_mem_nil
    refine ⟨.gate g :: tail, by simp, fun seen hseen => ?_⟩
    have hseen' : (q, b) ∉ seen ++ measuredOfAll passed := by
      have hsub : passed ⊆ passed ++ op :: rest := by simp
      rw [List.mem_append, not_or]
      exact ⟨hseen, not_mem_measuredOfAll_of_skip (hsingle.mono hsub) hpassed⟩
    have hplace : resolveAll firstUnrepeated? ((q, b) :: seen) (passed ++ op :: rest) =
        resolveAll firstUnrepeated? ((q, b) :: seen) passed ++ .gate g ::
          resolveAll firstUnrepeated? ((q, b) :: seen ++ measuredOfAll passed) rest := by
      rw [resolveAll_append, resolveAll, List.cons_append, resolve_of_replace hop hseen',
        measured_of_not_isMeasure hgone, List.append_nil]
    -- the gate goes to the front, and the rest is as it was without the operation
    rw [hplace, resolveAll, resolve_gate, measured_of_not_isMeasure rfl, List.append_nil]
    refine List.Perm.trans ?_ List.perm_middle.symm
    rw [← resolveAll_append]
    exact (htail seen hseen).cons _

end scans

/-! ## The run -/

/-- What becomes of operations when their measurements are deferred: the others, resolved,
come first, then perhaps one measurement that stays, and the rest of the measurements are
moved. -/
structure Splits (ops body : List Operation) (stays moved : List (Qubit × Clbit)) : Prop where
  body : body.Perm ((resolveAll firstUnrepeated? [] ops).filter (!·.isMeasure))
  measured : measuredOfAll ops = moved ++ stays
  atMostOne : stays.length ≤ 1

section runs
variable {before rest : List Operation} {d : OrderedMap Qubit Clbit} {s : State}

/-- The scan that defers a measurement leaves the measurements behind it. -/
theorem filter_isMeasure_of_defer {rest' : List Operation} {q : Qubit} {b : Clbit}
    (hscan : scan q b (before ++ rest) before.length before.length = .done (before ++ rest')) :
    rest'.filter (·.isMeasure) = rest.filter (·.isMeasure) := by
  have hfilter := (scans_of_defer hscan).filter_isMeasure
  rw [List.nil_append, List.filter_append, List.filter_append] at hfilter
  exact List.append_cancel_left hfilter

/-- A run gets to the end only if all measurements are of one qubit. -/
theorem Runs.singleMeasures (h : Runs before rest d s) : SingleMeasures rest := by
  induction h with
  | finish => exact fun o ho => absurd ho List.not_mem_nil
  | pass hop _ ih =>
    intro o ho hmeasure
    rcases List.mem_cons.1 ho with rfl | ho
    · rw [isMeasure_of_measurement?_none hop] at hmeasure
      cases hmeasure
    · exact ih o ho hmeasure
  | last hop =>
    intro o ho _
    exact ⟨_, (List.mem_singleton.1 ho).trans (eq_measuring hop)⟩
  | @defer before rest rest' op d s q b hop _ hscan _ ih =>
    intro o ho hmeasure
    rcases List.mem_cons.1 ho with rfl | ho
    · exact ⟨_, eq_measuring hop⟩
    · have hmem : o ∈ rest'.filter (·.isMeasure) := by
        rw [filter_isMeasure_of_defer hscan]
        exact List.mem_filter.2 ⟨ho, hmeasure⟩
      exact ih o (List.mem_filter.1 hmem).1 hmeasure

theorem Runs.splits (h : Runs before rest d s) :
    ∃ body stays moved, Splits rest body stays moved ∧
      s = ⟨before ++ (body ++ stays.map measuring),
        moved.foldl (fun d m => d.insert m.1 m.2) d⟩ := by
  induction h with
  | finish before d => exact ⟨[], [], [], ⟨.refl _, rfl, Nat.zero_le _⟩, by simp⟩
  | @pass before rest op d s hop _ ih =>
    obtain ⟨body, stays, moved, hsplit, rfl⟩ := ih
    have hmeasure := isMeasure_of_measurement?_none hop
    refine ⟨op :: body, stays, moved, ⟨?_, ?_, hsplit.atMostOne⟩, by simp⟩
    · rw [resolveAll, resolve_nil rfl, measured_of_not_isMeasure hmeasure, List.append_nil,
        List.filter_cons_of_pos (by simp [hmeasure])]
      exact hsplit.body.cons op
    · rw [measuredOfAll_cons, measured_of_not_isMeasure hmeasure]
      exact hsplit.measured
  | @last before op d q b hop =>
    obtain rfl := eq_measuring hop
    exact ⟨[], [(q, b)], [], ⟨.refl _, rfl, Nat.le_refl _⟩, rfl⟩
  | @defer before rest rest' op d s q b hop hne hscan hrun ih =>
    have hsingle := (Runs.defer hop hne hscan hrun).singleMeasures.mono (List.subset_cons_self _ _)
    obtain ⟨later, hlater, hresolve⟩ := (scans_of_defer hscan).resolves hsingle
      fun o ho => absurd ho List.not_mem_nil
    obtain rfl := List.append_cancel_left hlater
    obtain ⟨body, stays, moved, hsplit, rfl⟩ := ih
    obtain rfl := eq_measuring hop
    have hmeasure : (measuring (q, b)).isMeasure = true := rfl
    refine ⟨body, stays, (q, b) :: moved, ⟨?_, ?_, hsplit.atMostOne⟩, rfl⟩
    · rw [resolveAll, resolve_of_isMeasure hmeasure, List.filter_cons_of_neg (by simp [hmeasure])]
      exact hsplit.body.trans ((hresolve [] List.not_mem_nil).filter _)
    · have hsame : measuredOfAll rest = measuredOfAll rest' := by
        rw [← measuredOfAll_filter rest, ← filter_isMeasure_of_defer hscan, measuredOfAll_filter]
      rw [measuredOfAll_cons, hsame, hsplit.measured]
      rfl

end runs

/-- A deferral that succeeds splits the operations and puts the moved measurements at the
end; of several that are of one qubit it keeps the last. -/
theorem splits_deferMeasurements {c out : Circuit} (h : c.deferMeasurements = .done out) :
    ∃ body stays moved, Splits c.ops body stays moved ∧
      out.ops = body ++ (stays ++ (OrderedMap.ofList moved).entries).map measuring := by
  obtain ⟨s, hrun, hops⟩ := deferMeasurements_eq_done h
  obtain ⟨body, stays, moved, hsplit, rfl⟩ := hrun.splits
  refine ⟨body, stays, moved, hsplit, ?_⟩
  rw [hops, List.map_append, List.nil_append, List.append_assoc]
  rfl

theorem Splits.isMeasure_body {ops body : List Operation} {stays moved : List (Qubit × Clbit)}
    (h : Splits ops body stays moved) {o : Operation} (ho : o ∈ body) : o.isMeasure = false := by
  have hmem := (List.mem_filter.1 (h.body.mem_iff.1 ho)).2
  simpa using hmem

/-- The operations of the output that are not measurements. -/
theorem Splits.filter_output {ops body : List Operation} {stays moved ms : List (Qubit × Clbit)}
    (h : Splits ops body stays moved) :
    (body ++ ms.map measuring).filter (!·.isMeasure) = body := by
  have hbody : body.filter (!·.isMeasure) = body :=
    List.filter_eq_self.2 fun o ho => by rw [h.isMeasure_body ho]; rfl
  have hms : (ms.map measuring).filter (!·.isMeasure) = [] := by
    rw [List.filter_eq_nil_iff]
    intro o ho
    obtain ⟨m, -, rfl⟩ := List.mem_map.1 ho
    simp [measuring, isMeasure]
  rw [List.filter_append, hbody, hms, List.append_nil]

/-- Up to their order, the operations that are left are those of the circuit with every
condition resolved: a gate comes under a control on the first qubit, of those measured into
its bit before, that is not measured into it again. That is the qubit of the latest
measurement if only one qubit is measured into the bit before the gate. -/
theorem controls_deferMeasurements {c out : Circuit} (hdone : c.deferMeasurements = .done out) :
    (out.ops.filter (!·.isMeasure)).Perm
        ((resolveAll firstUnrepeated? [] c.ops).filter (!·.isMeasure)) ∧
      ((∀ before cond body after, c.ops = before ++ .conditional cond body :: after →
          ∀ p q, (p, cond.register.start) ∈ measuredOfAll before →
            (q, cond.register.start) ∈ measuredOfAll before → p = q) →
        (out.ops.filter (!·.isMeasure)).Perm
          ((resolveAll List.getLast? [] c.ops).filter (!·.isMeasure))) := by
  obtain ⟨body, stays, moved, hsplit, hops⟩ := splits_deferMeasurements hdone
  have hperm : (out.ops.filter (!·.isMeasure)).Perm
      ((resolveAll firstUnrepeated? [] c.ops).filter (!·.isMeasure)) := by
    rw [hops, hsplit.filter_output]
    exact hsplit.body
  refine ⟨hperm, fun hone => ?_⟩
  have hsame : resolveAll firstUnrepeated? [] c.ops = resolveAll List.getLast? [] c.ops := by
    refine resolveAll_congr fun before cond op after hcut => ?_
    rw [firstUnrepeated?_eq_getLast?_iff, List.nil_append]
    intro p hp q hq
    exact hone before cond op after hcut p q (mem_writers.1 hp) (mem_writers.1 hq)
  rw [← hsame]
  exact hperm

/-- One qubit is measured into the same bit twice, and each time a gate reads it. -/
def remeasured : Circuit :=
  { Circuit.withSize "remeasured" 3 2 with
    ops := [measuring (⟨0⟩, ⟨0⟩), .conditional ⟨.single ⟨0⟩, 1⟩ (.gate (.ofKind .x [⟨2⟩])),
      measuring (⟨1⟩, ⟨1⟩), measuring (⟨0⟩, ⟨0⟩),
      .conditional ⟨.single ⟨0⟩, 0⟩ (.gate (.ofKind .z [⟨2⟩])),
      .conditional ⟨.single ⟨1⟩, 1⟩ (.gate (.ofKind .y [⟨2⟩]))] }

theorem controls_deferMeasurements_remeasured :
    ∃ out, remeasured.deferMeasurements = .done out ∧
      out.ops = [.gate (.controlled .x [.pos ⟨0⟩] [⟨2⟩]), .gate (.controlled .z [.neg ⟨0⟩] [⟨2⟩]),
        .gate (.controlled .y [.pos ⟨1⟩] [⟨2⟩]), measuring (⟨0⟩, ⟨0⟩), measuring (⟨1⟩, ⟨1⟩)] ∧
      (out.ops.filter (!·.isMeasure)).Perm
        ((resolveAll List.getLast? [] remeasured.ops).filter (!·.isMeasure)) := by
  have hone : ∀ m ∈ measuredOfAll remeasured.ops, m = (⟨0⟩, ⟨0⟩) ∨ m = (⟨1⟩, ⟨1⟩) := by
    decide
  refine ⟨_, by cbv, by cbv, (controls_deferMeasurements (c := remeasured) (by cbv)).2 ?_⟩
  intro before cond body after hcut p q hp hq
  have hall : ∀ r, (r, cond.register.start) ∈ measuredOfAll before →
      (r, cond.register.start) = (⟨0⟩, ⟨0⟩) ∨ (r, cond.register.start) = (⟨1⟩, ⟨1⟩) := by
    intro r hr
    refine hone _ ?_
    rw [hcut, measuredOfAll_append]
    exact List.mem_append_left _ hr
  rcases hall p hp with h | h <;> rcases hall q hq with h' | h' <;> simp_all

/-- Two qubits are measured into one bit before a gate reads it. -/
def handover : Circuit :=
  { Circuit.withSize "handover" 3 1 with
    ops := [measuring (⟨0⟩, ⟨0⟩), measuring (⟨1⟩, ⟨0⟩),
      .conditional ⟨.single ⟨0⟩, 1⟩ (.gate (.ofKind .x [⟨2⟩]))] }

/-- With several qubits measured into the bit the control need not be on the latest. -/
theorem deferMeasurements_older_control :
    ∃ out, handover.deferMeasurements = .done out ∧
      out.ops.filter (!·.isMeasure) = [.gate (.controlled .x [.pos ⟨0⟩] [⟨2⟩])] ∧
      (resolveAll List.getLast? [] handover.ops).filter (!·.isMeasure) =
        [.gate (.controlled .x [.pos ⟨1⟩] [⟨2⟩])] :=
  ⟨_, by cbv, by cbv, by cbv⟩

end Deferral
end QuantumCircuit
