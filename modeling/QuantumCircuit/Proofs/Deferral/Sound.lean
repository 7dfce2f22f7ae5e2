import Mathlib.Data.List.Permutation
import QuantumCircuit.Proofs.Deferral.Run
import QuantumCircuit.Proofs.Execution
import QuantumCircuit.Proofs.Ordered

/-! Deferral on basis states. As long as no measured qubit is used again and no bit is
written twice, every rewired gate stays in its place, and the circuit computes the
same qubits and bits as before. -/
namespace QuantumCircuit
namespace Deferral
open Operation

/-- The operations of circuits that permute and copy bits: X and SWAP gates with any
controls, barriers, measurements of one qubit, and gates under a condition that a bit
is 0 or 1. -/
inductive Bitwise : Operation → Prop where
  | gate {g : Gate} (hkind : g.kind = .x ∨ g.kind = .swap) : Bitwise (.gate g)
  | barrier {e : Effect} (hkind : e.kind = .barrier) : Bitwise (.effect e)
  | measure (m : Qubit × Clbit) : Bitwise (measuring m)
  | conditional {cond : Condition} {g : Gate} (b : Clbit) (hregister : cond.register = .single b)
    (hvalue : cond.value = 0 ∨ cond.value = 1) (hkind : g.kind = .x ∨ g.kind = .swap) :
    Bitwise (.conditional cond (.gate g))

/-- The operation after the measurement of `q` into `b` has been deferred. -/
def rewired (q : Qubit) (b : Clbit) (op : Operation) : Operation :=
  match inspect q b op with
  | .ok (.replace g) => .gate g
  | _ => op

section operation
variable {q : Qubit} {b : Clbit} {op : Operation}

/-- On an operation that does not use the measured qubit the place for rewired gates
keeps up with the scan, unless the operation is rewired itself. -/
theorem inspect_of_not_actsOn (hop : Bitwise op) (hq : op.actsOn q = false) :
    (inspect q b op = .ok (.skip true) ∧ ∀ cond body, op = .conditional cond body →
      cond.register ≠ .single b) ∨
    ∃ cond g, op = .conditional cond (.gate g) ∧ cond.register = .single b ∧
      (cond.value = 0 ∨ cond.value = 1) ∧
      inspect q b op = .ok (.replace (withControl g (controlFor q cond))) := by
  cases hop with
  | gate hkind =>
    refine .inl ⟨?_, by intro _ _ heq; cases heq⟩
    unfold inspect
    simp [isUnitary, hq]
  | @barrier e hkind =>
    refine .inl ⟨?_, by intro _ _ heq; cases heq⟩
    unfold inspect
    simp [isUnitary, isReset, isMeasure, hkind, hq]
  | measure m =>
    refine .inl ⟨?_, by intro _ _ heq; cases heq⟩
    have hne : ¬ m.1 = q := by
      rintro rfl
      simp [measuring, actsOn] at hq
    unfold inspect
    simp [measuring, isUnitary, isReset, isMeasure, targets, hne]
  | @conditional cond g b' hregister hvalue hkind =>
    have htargets : q ∉ g.targets := by
      intro hmem
      simp [actsOn, Gate.actsOn, hmem] at hq
    by_cases hb : b' = b
    · subst hb
      refine .inr ⟨cond, g, rfl, hregister, hvalue, ?_⟩
      unfold inspect
      simp [isUnitary, isReset, isMeasure, hregister, Register.single, rewire, htargets,
        withControl, controlFor]
    · refine .inl ⟨?_, ?_⟩
      · unfold inspect
        simp [isUnitary, isReset, isMeasure, hregister, Register.single, hb, hq]
      · intro cond' body heq hreg
        cases heq
        rw [hregister] at hreg
        cases hreg
        exact hb rfl

theorem rewired_of_skip {moves : Bool} (h : inspect q b op = .ok (.skip moves)) :
    rewired q b op = op := by
  rw [rewired, h]

theorem rewired_of_replace {g : Gate} (h : inspect q b op = .ok (.replace g)) :
    rewired q b op = .gate g := by
  rw [rewired, h]

/-- Rewiring adds the measured qubit and nothing else. -/
theorem actsOn_rewired {r : Qubit} (hr : r ≠ q) : (rewired q b op).actsOn r = op.actsOn r := by
  rw [rewired]
  split
  · next g hg =>
    obtain ⟨cond, body, rfl, -, -, rfl⟩ := inspect_eq_replace hg
    have hiff : (withControl body (controlFor q cond)).actsOn r = true ↔ body.actsOn r = true := by
      rw [actsOn_withControl, qubit_controlFor]
      simp [hr]
    exact Bool.eq_iff_iff.2 hiff
  · rfl

/-- Measurements are not rewired, and nothing becomes one. -/
theorem isMeasure_rewired : (rewired q b op).isMeasure = op.isMeasure := by
  rw [rewired]
  split
  · next g hg =>
    obtain ⟨cond, body, rfl, -⟩ := inspect_eq_replace hg
    rfl
  · rfl

theorem rewired_of_isMeasure (h : op.isMeasure = true) : rewired q b op = op := by
  rw [rewired]
  split
  · next g hg =>
    obtain ⟨cond, body, rfl, -⟩ := inspect_eq_replace hg
    cases h
  · rfl

theorem clbits_rewired : (rewired q b op).clbits = op.clbits := by
  rw [rewired]
  split
  · next g hg =>
    obtain ⟨cond, body, rfl, -⟩ := inspect_eq_replace hg
    rfl
  · rfl

theorem bitwise_rewired (hop : Bitwise op) : Bitwise (rewired q b op) := by
  rw [rewired]
  split
  · next g hg =>
    obtain ⟨cond, body, rfl, -, -, rfl⟩ := inspect_eq_replace hg
    cases hop with
    | conditional _ _ _ hkind => exact .gate hkind
  · exact hop

end operation

/-- Where the measured qubit is not used again, a scan rewires in place. -/
theorem scan_in_place {q : Qubit} {b : Clbit} (rest : List Operation)
    (hrest : ∀ op ∈ rest, Bitwise op ∧ op.actsOn q = false) (before : List Operation) :
    scan q b (before ++ rest) before.length before.length =
      .done (before ++ rest.map (rewired q b)) := by
  induction rest generalizing before with
  | nil =>
    rw [scan, dif_neg (by simp)]
    rfl
  | cons op rest ih =>
    obtain ⟨hop, hq⟩ := hrest op List.mem_cons_self
    have hnext := ih (fun o ho => hrest o (List.mem_cons_of_mem _ ho)) (before ++ [rewired q b op])
    have hlen : (before ++ [rewired q b op]).length = before.length + 1 := by simp
    rw [hlen, List.append_assoc, List.singleton_append] at hnext
    rw [List.map_cons]
    rcases inspect_of_not_actsOn hop hq with ⟨hskip, -⟩ | ⟨cond, g, -, -, -, hreplace⟩
    · rw [scan_skip hskip, if_pos rfl]
      rw [rewired_of_skip hskip] at hnext ⊢
      simpa using hnext
    · have hplace : relocate (before ++ op :: rest) before.length before.length
          (rewired q b op) = before ++ rewired q b op :: rest := by
        rw [relocate_eq (Nat.le_refl _) (by simp)]
        simp
      rw [scan_replace hreplace, ← rewired_of_replace hreplace, hplace]
      simpa using hnext

/-! ## One measurement -/

section execution
variable {v : Qubit → Bool} {g : Gate} {c : Control} {m : Qubit × Clbit} {s : BitState}

theorem enabled_withControl :
    (withControl g c).enabled v = (c.holds v && g.enabled v) := by
  have hiff : (withControl g c).enabled v = true ↔ (c.holds v && g.enabled v) = true := by
    simp only [Gate.enabled, withControl, List.all_eq_true, OrderedSet.mem_toList,
      OrderedSet.mem_insert, Bool.and_eq_true]
    constructor
    · intro h
      exact ⟨h c (.inl rfl), fun d hd => h d (.inr hd)⟩
    · rintro ⟨hc, hg⟩ d (rfl | hd)
      · exact hc
      · exact hg d hd
  exact Bool.eq_iff_iff.2 hiff

/-- With one control more a gate acts only if that control holds. -/
theorem permute_withControl :
    (withControl g c).permute v = if c.holds v then g.permute v else v := by
  have hact : (withControl g c).act v = g.act v := rfl
  rw [Gate.permute, enabled_withControl, hact, Gate.permute]
  cases c.holds v <;> simp

/-- The new control holds exactly when the condition on the measured bit does. -/
theorem holds_controlFor {q : Qubit} {b : Clbit} {cond : Condition} {bits : Clbit → Bool}
    (hregister : cond.register = .single b) (hvalue : cond.value = 0 ∨ cond.value = 1)
    (hbit : bits b = v q) : cond.holds bits = (controlFor q cond).holds v := by
  rw [Condition.holds, hregister, Register.read_single, hbit, controlFor]
  rcases hvalue with h | h <;> cases hv : v q <;>
    simp [h, hv, Control.holds, Control.pos, Control.neg, Control.isPositive]

@[simp] theorem exec_measuring :
    (measuring m).exec s = { s with clbits := Function.update s.clbits m.2 (s.qubits m.1) } := by
  simp [measuring, exec, Effect.run]

/-- A measurement may be done after an operation that neither uses its qubit nor
writes its bit, if the operation is rewired. -/
theorem exec_rewired {op : Operation} (hop : Bitwise op) (hq : op.actsOn m.1 = false)
    (hb : op.isMeasure = true → m.2 ∉ op.clbits) :
    op.exec ((measuring m).exec s) = (measuring m).exec ((rewired m.1 m.2 op).exec s) := by
  obtain ⟨q, b⟩ := m
  rcases inspect_of_not_actsOn hop hq with ⟨hskip, hother⟩ | ⟨cond, g, rfl, hreg, hval, hreplace⟩
  · rw [rewired_of_skip hskip]
    cases hop with
    | @gate g hkind =>
      have hkeep : g.permute s.qubits q = s.qubits q := Gate.permute_of_not_actsOn hq
      simp [exec, hkeep]
    | @barrier e hkind => simp [exec, Effect.run, hkind]
    | measure m =>
      have hne : b ≠ m.2 := by simpa [measuring, isMeasure, clbits] using hb
      simp [Function.update_comm hne]
    | @conditional cond g b' hregister hvalue hkind =>
      have hkeep : g.permute s.qubits q = s.qubits q := Gate.permute_of_not_actsOn hq
      have hne : b' ≠ b := by
        rintro rfl
        exact hother cond (.gate g) rfl hregister
      have hsame : cond.holds (Function.update s.clbits b (s.qubits q)) = cond.holds s.clbits := by
        simp only [Condition.holds, hregister, Register.read_single, Function.update_of_ne hne]
      by_cases hholds : cond.holds s.clbits = true
      · simp [exec, hsame, hholds, hkeep]
      · simp [exec, hsame, hholds]
  · have hkeep : g.permute s.qubits q = s.qubits q := Gate.permute_of_not_actsOn hq
    have hholds : cond.holds (Function.update s.clbits b (s.qubits q)) =
        (controlFor q cond).holds s.qubits := holds_controlFor hreg hval (Function.update_self ..)
    rw [rewired_of_replace hreplace]
    by_cases hcontrol : (controlFor q cond).holds s.qubits = true
    · simp [exec, hholds, permute_withControl, hcontrol, hkeep]
    · simp [exec, hholds, permute_withControl, hcontrol]

/-- A measurement may be moved to the end if the operations behind it are rewired. -/
theorem execAll_rewired {rest : List Operation}
    (hrest : ∀ op ∈ rest, Bitwise op ∧ op.actsOn m.1 = false ∧
      (op.isMeasure = true → m.2 ∉ op.clbits)) (s : BitState) :
    execAll rest ((measuring m).exec s) =
      (measuring m).exec (execAll (rest.map (rewired m.1 m.2)) s) := by
  induction rest generalizing s with
  | nil => rfl
  | cons op rest ih =>
    obtain ⟨hop, hq, hb⟩ := hrest op List.mem_cons_self
    rw [List.map_cons, execAll_cons, execAll_cons, exec_rewired hop hq hb,
      ih fun o ho => hrest o (List.mem_cons_of_mem _ ho)]

/-- Measurements into different bits may be done in any order. -/
theorem execAll_measuring_perm {ms ns : List (Qubit × Clbit)} (hperm : ms.Perm ns)
    (hbits : (ms.map Prod.snd).Nodup) (s : BitState) :
    execAll (ms.map measuring) s = execAll (ns.map measuring) s := by
  induction hperm generalizing s with
  | nil => rfl
  | cons m _ ih =>
    rw [List.map_cons, List.map_cons, execAll_cons, execAll_cons]
    exact ih (List.nodup_cons.1 hbits).2 _
  | swap m n ms =>
    have hne : n.2 ≠ m.2 := by
      intro heq
      simp [heq] at hbits
    simp [Function.update_comm hne]
  | trans hms _ ih ih' =>
    rw [ih hbits, ih' ((hms.map Prod.snd).nodup_iff.1 hbits)]

end execution

/-! ## All measurements -/

/-- If the first operation is a measurement, the second one neither uses its qubits
nor writes its bits. -/
def Undisturbed (m op : Operation) : Prop :=
  m.isMeasure = true → (∀ q, m.actsOn q = true → op.actsOn q = false) ∧
    (op.isMeasure = true → ∀ b ∈ m.clbits, b ∉ op.clbits)

/-- What is still to come, and the measurements that have been deferred: all of them
measure different qubits into different bits. -/
structure Pending (rest : List Operation) (d : OrderedMap Qubit Clbit) : Prop where
  bitwise : ∀ op ∈ rest, Bitwise op
  undisturbed : rest.Pairwise Undisturbed
  fresh : ∀ op ∈ rest, op.isMeasure = true → ∀ m ∈ d.entries, op.actsOn m.1 = false ∧
    m.2 ∉ op.clbits
  bits : (d.entries.map Prod.snd).Nodup

namespace Pending
variable {op : Operation} {rest : List Operation} {d : OrderedMap Qubit Clbit}
  {m : Qubit × Clbit}

theorem tail (h : Pending (op :: rest) d) : Pending rest d :=
  ⟨fun o ho => h.bitwise o (List.mem_cons_of_mem _ ho), (List.pairwise_cons.1 h.undisturbed).2,
    fun o ho => h.fresh o (List.mem_cons_of_mem _ ho), h.bits⟩

/-- The operations behind a measurement do not disturb it. -/
theorem behind (h : Pending (measuring m :: rest) d) {o : Operation} (ho : o ∈ rest) :
    Bitwise o ∧ o.actsOn m.1 = false ∧ (o.isMeasure = true → m.2 ∉ o.clbits) := by
  obtain ⟨hacts, hbits⟩ := (List.pairwise_cons.1 h.undisturbed).1 o ho rfl
  refine ⟨h.bitwise o (List.mem_cons_of_mem _ ho), hacts m.1 ?_, fun hmeasure => ?_⟩
  · simp [measuring, actsOn]
  · exact hbits hmeasure m.2 (List.mem_singleton_self _)

/-- The next measurement is deferred beside the earlier ones. -/
theorem entries_insert (h : Pending (measuring m :: rest) d) :
    (d.insert m.1 m.2).entries.Perm (m :: d.entries) := by
  have hkeep : (d.erase m.1).entries = d.entries := by
    refine List.filter_eq_self.2 fun e he => ?_
    have hfree := (h.fresh _ List.mem_cons_self rfl e he).1
    have hne : e.1 ≠ m.1 := by simpa [measuring, actsOn] using hfree
    simpa using hne
  have hperm := d.entries_insert_perm m.1 m.2
  rwa [hkeep] at hperm

theorem bits_cons (h : Pending (measuring m :: rest) d) :
    ((m :: d.entries).map Prod.snd).Nodup := by
  rw [List.map_cons, List.nodup_cons]
  refine ⟨fun hmem => ?_, h.bits⟩
  obtain ⟨e, he, heq⟩ := List.mem_map.1 hmem
  have hfree := (h.fresh _ List.mem_cons_self rfl e he).2
  simp [measuring, clbits, heq] at hfree

/-- After a measurement has been deferred the rest is as before. -/
theorem defer (h : Pending (measuring m :: rest) d) :
    Pending (rest.map (rewired m.1 m.2)) (d.insert m.1 m.2) where
  bitwise := by
    intro o ho
    obtain ⟨old, hold, rfl⟩ := List.mem_map.1 ho
    exact bitwise_rewired (h.behind hold).1
  undisturbed := by
    refine List.pairwise_map.2 (h.tail.undisturbed.imp_of_mem ?_)
    intro x y hx hy hxy hmeasure
    rw [isMeasure_rewired] at hmeasure
    rw [rewired_of_isMeasure hmeasure, isMeasure_rewired, clbits_rewired]
    obtain ⟨hacts, hbits⟩ := hxy hmeasure
    refine ⟨fun r hr => ?_, hbits⟩
    have hne : r ≠ m.1 := by
      rintro rfl
      rw [(h.behind hx).2.1] at hr
      cases hr
    rw [actsOn_rewired hne]
    exact hacts r hr
  fresh := by
    intro o ho hmeasure e he
    obtain ⟨old, hold, rfl⟩ := List.mem_map.1 ho
    rw [isMeasure_rewired] at hmeasure
    rw [rewired_of_isMeasure hmeasure]
    rcases List.mem_cons.1 (h.entries_insert.subset he) with rfl | he
    · exact ⟨(h.behind hold).2.1, (h.behind hold).2.2 hmeasure⟩
    · exact h.fresh old (List.mem_cons_of_mem _ hold) hmeasure e he
  bits := (h.entries_insert.map Prod.snd).nodup_iff.2 h.bits_cons

end Pending

/-- A run followed by the deferred measurements computes what the operations compute
followed by the measurements that had been deferred before. -/
theorem Runs.execAll {before rest : List Operation} {d : OrderedMap Qubit Clbit} {s : State}
    (h : Runs before rest d s) (hpending : Pending rest d) (σ : BitState) :
    Operation.execAll (s.ops ++ s.deferred.entries.map measuring) σ =
      Operation.execAll (before ++ rest ++ d.entries.map measuring) σ := by
  induction h with
  | finish before d => simp
  | pass _ _ ih =>
    rw [ih hpending.tail]
    simp
  | last _ => simp
  | @defer before rest rest' op d s q b hm _ hscan _ ih =>
    obtain rfl := eq_measuring hm
    have hplace : rest' = rest.map (rewired q b) := by
      have hbehind : ∀ o ∈ rest, Bitwise o ∧ o.actsOn q = false :=
        fun o ho => ⟨(hpending.behind ho).1, (hpending.behind ho).2.1⟩
      rw [scan_in_place rest hbehind] at hscan
      exact (List.append_cancel_left (Outcome.done.inj hscan)).symm
    subst hplace
    have hmeasures := execAll_measuring_perm hpending.entries_insert.symm hpending.bits_cons
    rw [ih hpending.defer, execAll_append, ← hmeasures]
    simp only [List.map_cons, execAll_append, execAll_cons]
    rw [execAll_rewired fun o ho => hpending.behind ho]

end Deferral
end QuantumCircuit
