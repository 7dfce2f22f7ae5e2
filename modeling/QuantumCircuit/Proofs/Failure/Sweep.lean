import QuantumCircuit.Peephole.CnotCancellation
import QuantumCircuit.Peephole.Fusion
import QuantumCircuit.Peephole.SwapReconstruction
import QuantumCircuit.Proofs.Lanes

/-! Sweeps that give up. A sweep has changed what stands in front of the operation
that it refuses, just as if nothing followed, and has not touched the rest; the
identities it leaves behind are not swept up any more. -/
namespace QuantumCircuit

/-! ## Loops that fail -/

namespace Outcome
variable {σ α : Type} {step : α → σ → Except PassError σ} {s s' : σ} {e : PassError}

/-- A loop fails at one of its elements, with the state in which that step began. -/
theorem forEach_eq_failed {as : List α} (h : forEach step as s = .failed e s') :
    ∃ before a after, as = before ++ a :: after ∧ forEach step before s = .done s' ∧
      step a s' = .error e := by
  induction as generalizing s with
  | nil => cases h
  | cons a rest ih =>
    rw [forEach] at h
    cases ha : step a s with
    | ok t =>
      rw [ha] at h
      obtain ⟨before, a', after, rfl, hbefore, herror⟩ := ih h
      refine ⟨a :: before, a', after, rfl, ?_, herror⟩
      rw [forEach, ha]
      exact hbefore
    | error cause =>
      rw [ha] at h
      cases h
      exact ⟨[], a, rest, rfl, rfl, ha⟩

/-- A loop over slots fails at one of them, after those below it. -/
theorem forEach_range_eq_failed {step : Nat → σ → Except PassError σ} {n : Nat}
    (h : forEach step (List.range n) s = .failed e s') :
    ∃ k < n, forEach step (List.range k) s = .done s' ∧ step k s' = .error e := by
  obtain ⟨before, a, after, hrange, hdone, herror⟩ := forEach_eq_failed h
  rw [List.range_eq_range', List.range'_eq_append_iff] at hrange
  obtain ⟨k, hk, rfl, hrest⟩ := hrange
  obtain ⟨rfl, hpos, -⟩ := List.range'_eq_cons_iff.1 hrest.symm
  rw [Nat.zero_add, Nat.mul_one] at herror
  exact ⟨k, by omega, List.range_eq_range' ▸ hdone, herror⟩

end Outcome

/-! ## Operations behind those that are swept -/

namespace Sweep
variable {s s' : Sweep} {n i : Nat} {rest : List Operation}

/-- The sweep with further operations behind those it has. -/
def extend (s : Sweep) (rest : List Operation) : Sweep := { s with ops := s.ops ++ rest }

@[simp] theorem lanes_extend : (s.extend rest).lanes = s.lanes := rfl

@[simp] theorem popBoth_extend (a b : Qubit) :
    (s.extend rest).popBoth a b = (s.popBoth a b).extend rest :=
  rfl

@[simp] theorem extend_nil (s : Sweep) : s.extend [] = s := by
  rw [extend, List.append_nil]

/-- A sweep of `n` operations with no other slots on its lanes. -/
structure Bounded (n : Nat) (s : Sweep) : Prop where
  length : s.ops.length = n
  below : ∀ {q : Qubit} {i : Nat}, i ∈ s.lanes.stack q → i < n

theorem bounded_start (ops : List Operation) (c : Circuit) :
    Bounded ops.length ⟨ops, .forCircuit c⟩ := by
  refine ⟨rfl, fun {q i} hi => ?_⟩
  rw [Lanes.forCircuit, Lanes.stack_ofCount] at hi
  cases hi

theorem Bounded.top (h : Bounded n s) {q : Qubit} (hi : s.lanes.top? q = some i) : i < n :=
  h.below (List.mem_of_head? hi)

theorem Bounded.sharedTop (h : Bounded n s) {a b : Qubit} (hi : s.lanes.sharedTop? a b = some i) :
    i < n := by
  rw [Lanes.sharedTop?] at hi
  split at hi
  · next hx hy =>
    split at hi
    · cases hi
      exact h.top hx
    · cases hi
  · cases hi

theorem Bounded.sharedSecond (h : Bounded n s) {a b : Qubit}
    (hi : s.lanes.sharedSecond? a b = some i) : i < n := by
  rw [Lanes.sharedSecond?] at hi
  split at hi
  · next hx hy =>
    split at hi
    · cases hi
      exact h.below (List.mem_of_mem_tail (List.mem_of_head? hx))
    · cases hi
  · cases hi

/-! ### Single edits -/

theorem Bounded.put (h : Bounded n s) (hi : i < n) : Bounded n (s.put i) := by
  rw [Sweep.put]
  split
  · next op _ =>
    refine ⟨h.length, fun {q j} hj => ?_⟩
    rw [Lanes.stack_pushAll_qubits] at hj
    split at hj
    · rcases List.mem_cons.1 hj with rfl | hj
      · exact hi
      · exact h.below hj
    · exact h.below hj
  · exact h

theorem Bounded.set (h : Bounded n s) (i : Nat) (op : Operation) : Bounded n (s.set i op) :=
  ⟨by rw [Sweep.set, List.length_set, h.length], h.below⟩

theorem Bounded.discard (h : Bounded n s) (i : Nat) : Bounded n (s.discard i) :=
  ⟨by rw [Sweep.discard, List.length_modify, h.length], h.below⟩

theorem Bounded.pop (h : Bounded n s) (q : Qubit) :
    Bounded n { s with lanes := s.lanes.pop q } := by
  refine ⟨h.length, fun {r j} hj => ?_⟩
  rw [Lanes.stack_pop] at hj
  split at hj
  · exact h.below (List.mem_of_mem_tail hj)
  · exact h.below hj

theorem Bounded.popBoth (h : Bounded n s) (a b : Qubit) : Bounded n (s.popBoth a b) :=
  (h.pop a).pop b

theorem getElem?_extend (h : Bounded n s) (hi : i < n) : (s.extend rest).ops[i]? = s.ops[i]? :=
  List.getElem?_append_left (h.length ▸ hi)

theorem put_extend (h : Bounded n s) (hi : i < n) :
    (s.extend rest).put i = (s.put i).extend rest := by
  rw [Sweep.put, Sweep.put, getElem?_extend h hi]
  split <;> rfl

theorem set_extend (h : Bounded n s) (hi : i < n) (op : Operation) :
    (s.extend rest).set i op = (s.set i op).extend rest := by
  rw [extend, Sweep.set, extend, List.set_append_left i op (h.length ▸ hi)]
  rfl

theorem discard_extend (h : Bounded n s) (hi : i < n) :
    (s.extend rest).discard i = (s.discard i).extend rest := by
  have hlt : i < s.ops.length := h.length ▸ hi
  rw [Sweep.discard, Sweep.discard, extend, extend, List.modify_eq_set_getElem?,
    List.modify_eq_set_getElem?, List.getElem?_append_left hlt, List.getElem?_eq_getElem hlt]
  simp only [Option.map_eq_map, Option.map_some, Option.getD_some, List.set_append_left i _ hlt]

/-! ### Steps -/

/-- A step that looks only at operations in front of the current one and at that: whatever
follows, it places the operation or makes the same edit. -/
def Local (pass : String) (step : Nat → Sweep → Except PassError Sweep) : Prop :=
  ∀ {n i : Nat} {s : Sweep}, Bounded n s → i < n →
    (∀ rest, step i (s.extend rest) = (s.extend rest).place pass i) ∨
      ∃ s', Bounded n s' ∧ ∀ rest, step i (s.extend rest) = .ok (s'.extend rest)

variable {pass : String} {step : Nat → Sweep → Except PassError Sweep}

theorem place_extend (h : Bounded n s) (hi : i < n) (rest : List Operation) :
    (s.extend rest).place pass i = (s.place pass i).map (·.extend rest) := by
  rw [place, place, getElem?_extend h hi]
  split
  · next op _ =>
    cases op.check pass with
    | ok => exact congrArg Except.ok (put_extend h hi)
    | error e => rfl
  · rfl

theorem Bounded.place (h : Bounded n s) (hi : i < n) (hplace : s.place pass i = .ok s') :
    Bounded n s' := by
  rw [Sweep.place] at hplace
  split at hplace
  · split at hplace
    · cases hplace
      exact h.put hi
    · cases hplace
  · cases hplace
    exact h

theorem check_of_place {e : PassError} (hplace : s.place pass i = .error e) :
    ∃ op, s.ops[i]? = some op ∧ op.check pass = .error e := by
  rw [place] at hplace
  split at hplace
  · next op hop =>
    refine ⟨op, hop, ?_⟩
    split at hplace
    · cases hplace
    · next e' hcheck =>
      cases hplace
      exact hcheck
  · cases hplace

theorem Local.step_extend (hstep : Local pass step) (h : Bounded n s) (hi : i < n)
    (rest : List Operation) : step i (s.extend rest) = (step i s).map (·.extend rest) := by
  rcases hstep h hi with hplace | ⟨s', -, hedit⟩
  · have hself := hplace []
    rw [extend_nil] at hself
    rw [hplace rest, hself, place_extend h hi]
  · have hself := hedit []
    rw [extend_nil, extend_nil] at hself
    rw [hedit rest, hself]
    rfl

theorem Local.bounded (hstep : Local pass step) (h : Bounded n s) (hi : i < n)
    (hok : step i s = .ok s') : Bounded n s' := by
  rw [← extend_nil s] at hok
  rcases hstep h hi with hplace | ⟨s₁, hs₁, hedit⟩
  · rw [hplace, extend_nil] at hok
    exact h.place hi hok
  · rw [hedit, extend_nil] at hok
    cases hok
    exact hs₁

theorem Local.refuses (hstep : Local pass step) (h : Bounded n s) (hi : i < n) {e : PassError}
    (herror : step i s = .error e) : ∃ op, s.ops[i]? = some op ∧ op.check pass = .error e := by
  rw [← extend_nil s] at herror
  rcases hstep h hi with hplace | ⟨s₁, -, hedit⟩
  · rw [hplace, extend_nil] at herror
    exact check_of_place herror
  · rw [hedit] at herror
    cases herror

/-- A loop of such steps over slots that have an operation. -/
theorem Local.forEach (hstep : Local pass step) (rest : List Operation) {slots : List Nat}
    (hslots : ∀ i ∈ slots, i < n) (h : Bounded n s) :
    Outcome.forEach step slots (s.extend rest) =
      (Outcome.forEach step slots s).map (·.extend rest) := by
  induction slots generalizing s with
  | nil => rfl
  | cons i slots ih =>
    have hi := hslots i List.mem_cons_self
    rw [Outcome.forEach, Outcome.forEach, hstep.step_extend h hi]
    cases hs : step i s with
    | error e => rfl
    | ok s' => exact ih (fun j hj => hslots j (List.mem_cons_of_mem _ hj)) (hstep.bounded h hi hs)

theorem Local.bounded_forEach (hstep : Local pass step) {slots : List Nat}
    (hslots : ∀ i ∈ slots, i < n) (h : Bounded n s)
    (hdone : Outcome.forEach step slots s = .done s') : Bounded n s' := by
  induction slots generalizing s with
  | nil =>
    cases hdone
    exact h
  | cons i slots ih =>
    rw [Outcome.forEach] at hdone
    split at hdone
    · next t ht =>
      exact ih (fun j hj => hslots j (List.mem_cons_of_mem _ hj))
        (hstep.bounded h (hslots i List.mem_cons_self) ht) hdone
    · cases hdone

/-! ## What a sweep that gives up leaves -/

/-- The circuit `c'` is left when a sweep of `c` refuses an operation: the operations in
front are swept, as they would be if nothing followed, and the others are as they were. -/
def StopsWith (pass : String) (step : Nat → Sweep → Except PassError Sweep) (e : PassError)
    (c c' : Circuit) : Prop :=
  ∃ before op after swept, c.ops = before ++ op :: after ∧ op.check pass = .error e ∧
    Outcome.forEach step (List.range before.length) ⟨before, .forCircuit c⟩ = .done swept ∧
    c' = { c with ops := swept.ops ++ op :: after }

/-- The operation at which the loop stops is the one that the step refuses. -/
theorem Local.check_of_stop (hstep : Local pass step) {before after : List Operation}
    {op : Operation} (h : Bounded before.length s) {e : PassError}
    (herror : step before.length (s.extend (op :: after)) = .error e) :
    op.check pass = .error e := by
  have hlonger : Bounded (before.length + (after.length + 1)) (s.extend (op :: after)) := by
    refine ⟨?_, fun {q i} hi => Nat.lt_of_lt_of_le (h.below hi) (Nat.le_add_right _ _)⟩
    rw [Sweep.extend, List.length_append, h.length, List.length_cons]
  obtain ⟨op', hop, hcheck⟩ := hstep.refuses hlonger (by omega) herror
  have hlast : (s.ops ++ op :: after)[before.length]? = some op' := hop
  rw [List.getElem?_append_right (Nat.le_of_eq h.length), h.length, Nat.sub_self] at hlast
  obtain rfl := Option.some.inj hlast
  exact hcheck

theorem Local.stopsWith_of_run (hstep : Local pass step) {c c' : Circuit} {e : PassError}
    (h : run step c = .failed e c') : StopsWith pass step e c c' := by
  rw [run] at h
  cases hloop : Outcome.forEach step (List.range c.ops.length) ⟨c.ops, .forCircuit c⟩ with
  | done t =>
    rw [hloop] at h
    cases h
  | failed cause t =>
    rw [hloop] at h
    cases h
    obtain ⟨k, hk, hdone, herror⟩ := Outcome.forEach_range_eq_failed hloop
    obtain ⟨before, op, after, hcut, rfl⟩ :
        ∃ before op after, c.ops = before ++ op :: after ∧ before.length = k := by
      refine ⟨c.ops.take k, c.ops[k], c.ops.drop (k + 1), ?_, List.length_take_of_le (by omega)⟩
      rw [← List.drop_eq_getElem_cons hk, List.take_append_drop]
    -- The refused operation and what follows it are set aside for the loop in front.
    have hstart := bounded_start before c
    have hslots : ∀ i ∈ List.range before.length, i < before.length := fun i => List.mem_range.1
    have hfront := hstep.forEach (op :: after) hslots hstart
    rw [Sweep.extend, ← hcut, hdone] at hfront
    cases hswept : Outcome.forEach step (List.range before.length) ⟨before, .forCircuit c⟩ with
    | failed cause' t' =>
      rw [hswept] at hfront
      cases hfront
    | done swept =>
      rw [hswept] at hfront
      obtain rfl := Outcome.done.inj hfront
      have hcheck := hstep.check_of_stop (hstep.bounded_forEach hslots hstart hswept) herror
      exact ⟨before, op, after, swept, hcut, hcheck, hswept, rfl⟩

end Sweep

/-! ## The steps of the passes -/

section steps
open Sweep
variable {s : Sweep} {n i : Nat} {rest : List Operation}

theorem SwapReconstruction.cnotAt?_extend (h : Bounded n s) (hi : i < n) :
    cnotAt? (s.extend rest) i = cnotAt? s i := by
  rw [cnotAt?, cnotAt?, getElem?_extend h hi]

theorem SwapReconstruction.local_step : Local passName step := by
  intro n i s h hi
  have hcurrent : ∀ rest, cnotAt? (s.extend rest) i = cnotAt? s i := fun _ => cnotAt?_extend h hi
  cases hnow : cnotAt? s i with
  | none => exact .inl fun rest => by simp only [step, hcurrent, hnow]
  | some found =>
    obtain ⟨current, control, target⟩ := found
    cases hshared : s.lanes.sharedTop? control target with
    | none => exact .inl fun rest => by simp only [step, hcurrent, hnow, lanes_extend, hshared]
    | some prev =>
      have hprev := h.sharedTop hshared
      have hearlier : ∀ rest, cnotAt? (s.extend rest) prev = cnotAt? s prev :=
        fun _ => cnotAt?_extend h hprev
      cases hbefore : cnotAt? s prev with
      | none =>
        exact .inl fun rest => by
          simp only [step, hcurrent, hnow, lanes_extend, hshared, hearlier, hbefore]
      | some found =>
        obtain ⟨earlier, prevControl, prevTarget⟩ := found
        have hpop := h.popBoth control target
        right
        by_cases heq : prevControl = control ∧ prevTarget = target
        · refine ⟨_, (hpop.discard prev).discard i, fun rest => ?_⟩
          simp only [step, hcurrent, hnow, lanes_extend, hshared, hearlier, hbefore, if_pos heq,
            popBoth_extend]
          rw [discard_extend hpop hprev, discard_extend (hpop.discard prev) hi]
        · have hswap := (hpop.set prev (.gate (earlier.becomeSwap control target))).put hprev
          refine ⟨_, (hswap.set i (.gate (current.becomeCnot target control))).put hi,
            fun rest => ?_⟩
          simp only [step, hcurrent, hnow, lanes_extend, hshared, hearlier, hbefore, if_neg heq,
            popBoth_extend]
          rw [set_extend hpop hprev, put_extend (hpop.set prev _) hprev, set_extend hswap hi,
            put_extend (hswap.set i _) hi]

theorem CnotCancellation.pairGateAt?_extend (h : Bounded n s) (hi : i < n) :
    pairGateAt? (s.extend rest) i = pairGateAt? s i := by
  rw [pairGateAt?, pairGateAt?, getElem?_extend h hi]

theorem CnotCancellation.thirdCnot?_extend (h : Bounded n s) (target control : Qubit) :
    thirdCnot? (s.extend rest) target control = thirdCnot? s target control := by
  rw [thirdCnot?, thirdCnot?, lanes_extend]
  cases hsecond : s.lanes.sharedSecond? target control with
  | none => rfl
  | some slot =>
    dsimp only
    rw [pairGateAt?_extend h (h.sharedSecond hsecond)]

theorem CnotCancellation.lt_of_thirdCnot? (h : Bounded n s) {target control : Qubit} {g : Gate}
    (hthird : thirdCnot? s target control = some (i, g)) : i < n := by
  rw [thirdCnot?] at hthird
  split at hthird
  · cases hthird
  · next slot hsecond =>
    split at hthird
    · split at hthird
      · cases hthird
        exact h.sharedSecond hsecond
      · cases hthird
    · cases hthird

theorem CnotCancellation.cancel_extend (h : Bounded n s) {prev : Nat} (hprev : prev < n)
    (hi : i < n) (a b : Qubit) :
    cancel (s.extend rest) prev i a b = (cancel s prev i a b).extend rest := by
  have hpop := h.popBoth a b
  rw [cancel, cancel, popBoth_extend, discard_extend hpop hprev,
    discard_extend (hpop.discard prev) hi]

theorem CnotCancellation.bounded_cancel (h : Bounded n s) (prev slot : Nat) (a b : Qubit) :
    Bounded n (cancel s prev slot a b) :=
  ((h.popBoth a b).discard prev).discard slot

/-- Two gates in a row are rewritten in the same way whatever follows. -/
theorem CnotCancellation.rewritePair_extend (h : Bounded n s) {prev : Nat} (hprev : prev < n)
    (hi : i < n) (earlier current : Gate) (before now : PairGate) :
    (∀ rest, rewritePair (s.extend rest) prev i earlier current before now =
        (s.extend rest).place passName i) ∨
      ∃ s', Bounded n s' ∧ ∀ rest,
        rewritePair (s.extend rest) prev i earlier current before now = .ok (s'.extend rest) := by
  -- A CNOT next to a SWAP: both places are written anew, then the later one is put on the lanes.
  have hboth : ∀ a b : Operation, Bounded n (((s.set prev a).set i b).put i) ∧ ∀ rest,
      (((s.extend rest).set prev a).set i b).put i = (((s.set prev a).set i b).put i).extend rest :=
    fun a b => ⟨((h.set prev a).set i b).put hi, fun rest => by
      rw [set_extend h hprev, set_extend (h.set prev a) hi,
        put_extend ((h.set prev a).set i b) hi]⟩
  cases before with
  | swap a b =>
    cases now with
    | swap a' b' =>
      exact .inr ⟨_, bounded_cancel h prev i a' b', fun rest =>
        congrArg Except.ok (cancel_extend h hprev hi a' b')⟩
    | cnot target control =>
      obtain ⟨hbounded, hextend⟩ := hboth (.gate (earlier.becomeCnot control target))
        (.gate (current.becomeCnot target control))
      exact .inr ⟨_, hbounded, fun rest => congrArg Except.ok (hextend rest)⟩
  | cnot t c =>
    cases now with
    | swap a' b' =>
      obtain ⟨hbounded, hextend⟩ := hboth (.gate (earlier.becomeCnot t c))
        (.gate (current.becomeCnot c t))
      exact .inr ⟨_, hbounded, fun rest => congrArg Except.ok (hextend rest)⟩
    | cnot target control =>
      by_cases heq : t = target ∧ c = control
      · refine .inr ⟨_, bounded_cancel h prev i target control, fun rest => ?_⟩
        rw [rewritePair, if_pos heq, cancel_extend h hprev hi]
      · cases hthird : thirdCnot? s target control with
        | none =>
          refine .inl fun rest => ?_
          rw [rewritePair, if_neg heq, thirdCnot?_extend h, hthird]
        | some found =>
          obtain ⟨first, g⟩ := found
          have hset := h.set first (.gate (g.becomeSwap target control))
          refine .inr ⟨_, bounded_cancel hset prev i target control, fun rest => ?_⟩
          rw [rewritePair, if_neg heq, thirdCnot?_extend h, hthird]
          dsimp only
          rw [set_extend h (lt_of_thirdCnot? h hthird), cancel_extend hset hprev hi]

theorem CnotCancellation.local_step : Local passName step := by
  intro n i s h hi
  have hcurrent : ∀ rest, pairGateAt? (s.extend rest) i = pairGateAt? s i :=
    fun _ => pairGateAt?_extend h hi
  cases hnow : pairGateAt? s i with
  | none => exact .inl fun rest => by simp only [step, hcurrent, hnow]
  | some found =>
    obtain ⟨current, now⟩ := found
    cases hshared : s.lanes.sharedTop? now.first now.second with
    | none => exact .inl fun rest => by simp only [step, hcurrent, hnow, lanes_extend, hshared]
    | some prev =>
      have hprev := h.sharedTop hshared
      have hearlier : ∀ rest, pairGateAt? (s.extend rest) prev = pairGateAt? s prev :=
        fun _ => pairGateAt?_extend h hprev
      cases hbefore : pairGateAt? s prev with
      | none =>
        exact .inl fun rest => by
          simp only [step, hcurrent, hnow, lanes_extend, hshared, hearlier, hbefore]
      | some found =>
        obtain ⟨earlier, before⟩ := found
        have hstep : ∀ rest, step i (s.extend rest) =
            rewritePair (s.extend rest) prev i earlier current before now := fun rest => by
          simp only [step, hcurrent, hnow, lanes_extend, hshared, hearlier, hbefore]
        simp only [hstep]
        exact rewritePair_extend h hprev hi earlier current before now

/-- A gate on one qubit that follows another operation on it. -/
theorem Fusion.step_extend_of_top (h : Bounded n s) (hi : i < n) {current : Gate} {target : Qubit}
    {prev : Nat} {op : Operation} (hnow : s.ops[i]? = some (.gate current))
    (htarget : soleTarget? current = some target) (htop : s.lanes.top? target = some prev)
    (hbefore : s.ops[prev]? = some op) :
    (∀ rest, step i (s.extend rest) = (s.extend rest).place passName i) ∨
      ∃ s', Bounded n s' ∧ ∀ rest, step i (s.extend rest) = .ok (s'.extend rest) := by
  have hprev := h.top htop
  have hcurrent : ∀ rest, (s.extend rest).ops[i]? = some (.gate current) :=
    fun _ => (getElem?_extend h hi).trans hnow
  have hearlier : ∀ rest, (s.extend rest).ops[prev]? = some op :=
    fun _ => (getElem?_extend h hprev).trans hbefore
  -- Fusing writes the place of the earlier operation anew and discards the current one.
  have hfuse : ∀ fused : Operation, Bounded n ((s.set prev fused).discard i) ∧ ∀ rest,
      ((s.extend rest).set prev fused).discard i = ((s.set prev fused).discard i).extend rest :=
    fun fused => ⟨(h.set prev fused).discard i, fun rest => by
      rw [set_extend h hprev, discard_extend (h.set prev fused) hi]⟩
  cases op with
  | effect e =>
    exact .inl fun rest => by simp only [step, hcurrent, htarget, lanes_extend, htop, hearlier]
  | conditional cond body =>
    exact .inl fun rest => by simp only [step, hcurrent, htarget, lanes_extend, htop, hearlier]
  | compound children =>
    by_cases htakes : takesGates children = true
    · obtain ⟨hbounded, hextend⟩ := hfuse (.compound
        (if undoesLast current.kind children then children.dropLast
          else children ++ [.gate current]))
      refine .inr ⟨_, hbounded, fun rest => ?_⟩
      simp only [step, hcurrent, htarget, lanes_extend, htop, hearlier, if_pos htakes, hextend]
    · exact .inl fun rest => by
        simp only [step, hcurrent, htarget, lanes_extend, htop, hearlier, if_neg htakes]
  | gate earlier =>
    by_cases hnone : (soleTarget? earlier).isNone = true
    · exact .inl fun rest => by
        simp only [step, hcurrent, htarget, lanes_extend, htop, hearlier, if_pos hnone]
    · right
      by_cases hinverse : areInverse earlier.kind current.kind = true
      · refine ⟨_, ((h.discard prev).discard i).pop target, fun rest => ?_⟩
        simp only [step, hcurrent, htarget, lanes_extend, htop, hearlier, if_neg hnone,
          if_pos hinverse, discard_extend h hprev, discard_extend (h.discard prev) hi]
        rfl
      · obtain ⟨hbounded, hextend⟩ := hfuse (.compound [.gate earlier, .gate current])
        refine ⟨_, hbounded, fun rest => ?_⟩
        simp only [step, hcurrent, htarget, lanes_extend, htop, hearlier, if_neg hnone,
          if_neg hinverse, hextend]

theorem Fusion.local_step : Local passName step := by
  intro n i s h hi
  have hcurrent : ∀ rest, (s.extend rest).ops[i]? = s.ops[i]? := fun _ => getElem?_extend h hi
  cases hnow : s.ops[i]? with
  | none => exact .inl fun rest => by simp only [step, hcurrent, hnow]
  | some op =>
    cases op with
    | compound children => exact .inl fun rest => by simp only [step, hcurrent, hnow]
    | effect e => exact .inl fun rest => by simp only [step, hcurrent, hnow]
    | conditional cond body => exact .inl fun rest => by simp only [step, hcurrent, hnow]
    | gate current =>
      cases htarget : soleTarget? current with
      | none => exact .inl fun rest => by simp only [step, hcurrent, hnow, htarget]
      | some target =>
        cases htop : s.lanes.top? target with
        | none =>
          exact .inl fun rest => by
            simp only [step, hcurrent, hnow, htarget, lanes_extend, htop]
        | some prev =>
          have hprev := h.top htop
          have hearlier : ∀ rest, (s.extend rest).ops[prev]? = s.ops[prev]? :=
            fun _ => getElem?_extend h hprev
          cases hbefore : s.ops[prev]? with
          | none =>
            exact .inl fun rest => by
              simp only [step, hcurrent, hnow, htarget, lanes_extend, htop, hearlier, hbefore]
          | some op =>
            exact step_extend_of_top h hi hnow htarget htop hbefore

end steps
end QuantumCircuit
