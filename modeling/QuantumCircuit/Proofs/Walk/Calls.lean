import QuantumCircuit.Proofs.Walk.Invariant
import QuantumCircuit.Proofs.Walk.Machine

/-! What holds of the calls of a walk at every moment. A call works at the end of its lane, and
the calls inside it have only to do with slots above that one: they leave the lanes that have
come back to it where they are. So the lanes that go on in the end are all at the same slot,
and each of them has one slot less afterwards. -/
namespace QuantumCircuit
namespace Walk

variable {rule : Rule} {w w' : Walk} {q : Qubit} {slot : Nat} {op : Operation}

/-! ## Rules and lanes -/

/-- A rule that keeps to the lanes of the operation it is asked about. -/
structure Orderly (rule : Rule) : Prop where
  halt : ∀ ⦃q op r⦄, r ∈ (rule q op).halt → op.actsOn r = true
  /-- Where something is to be done, no lane is given up, from whichever lane one comes. -/
  quiet : ∀ ⦃q op⦄, (rule q op).stages ≠ [] ∨ (rule q op).advance ≠ none →
    ∀ p, (rule p op).halt = []
  result_quiet : ∀ ⦃q op stage⦄, stage ∈ (rule q op).stages → ∀ p, (rule p stage.result).halt = []
  result_actsOn : ∀ ⦃q op stage⦄, stage ∈ (rule q op).stages →
    ∀ r, stage.result.actsOn r = op.actsOn r
  nodup : ∀ ⦃q op rs⦄, (rule q op).advance = some rs → (rs ++ [q]).Nodup
  /-- The lanes that go on have been waited for. -/
  synced : ∀ ⦃q op rs⦄, (rule q op).advance = some rs →
    ∀ r ∈ rs, ∃ stage ∈ (rule q op).stages, r ∈ stage.others

/-- Lanes that list, in descending order, operations on their qubits, without gaps. A lane has
not gone over an operation at which it is to be given up. -/
structure InOrder (rule : Rule) (w : Walk) : Prop where
  sorted : ∀ q, (w.lanes.stack q).Pairwise (· > ·)
  acts : ∀ ⦃q j⦄, j ∈ w.lanes.stack q → ∃ op, w.ops[j]? = some op ∧ op.actsOn q = true
  full : ∀ ⦃q j op s⦄, w.ops[j]? = some op → op.actsOn q = true → w.lanes.top? q = some s →
    j ≤ s → j ∈ w.lanes.stack q
  halting : ∀ ⦃p r j op s⦄, w.ops[j]? = some op → r ∈ (rule p op).halt →
    w.lanes.top? r = some s → j ≤ s

theorem le_head_of_descending {l : List Nat} {j s : Nat} (h : l.Pairwise (· > ·))
    (hs : l.head? = some s) (hj : j ∈ l) : j ≤ s := by
  cases l with
  | nil => cases hj
  | cons a rest =>
    cases hs
    rcases List.mem_cons.1 hj with rfl | hj
    · exact Nat.le_refl _
    · exact Nat.le_of_lt ((List.pairwise_cons.1 h).1 j hj)

theorem stack_of_top (htop : w.lanes.top? q = some slot) :
    w.lanes.stack q = slot :: (w.lanes.stack q).tail :=
  (List.cons_head?_tail htop).symm

theorem InOrder.acts_top (h : InOrder rule w) (htop : w.lanes.top? q = some slot) :
    ∃ op, w.ops[slot]? = some op ∧ op.actsOn q = true :=
  h.acts (List.mem_of_head? htop)

theorem top_clear {r : Qubit} {s : Nat} (h : (w.lanes.clear q).top? r = some s) :
    r ≠ q ∧ w.lanes.top? r = some s := by
  rw [Lanes.top?, Lanes.stack_clear] at h
  split at h
  · cases h
  · next hr => exact ⟨hr, h⟩

theorem InOrder.clear (h : InOrder rule w) (q : Qubit) :
    InOrder rule { w with lanes := w.lanes.clear q } := by
  have hstack : ∀ r, (w.lanes.clear q).stack r = if r = q then [] else w.lanes.stack r :=
    Lanes.stack_clear w.lanes q
  refine ⟨fun r => ?_, fun r j hj => ?_, fun r j op s hop hr htop hle => ?_,
    fun p r j op s hop hr htop => h.halting hop hr (top_clear htop).2⟩
  · show ((w.lanes.clear q).stack r).Pairwise _
    rw [hstack]
    split
    · exact .nil
    · exact h.sorted r
  · have hj' : j ∈ (w.lanes.clear q).stack r := hj
    rw [hstack] at hj'
    split at hj'
    · cases hj'
    · exact h.acts hj'
  · obtain ⟨hne, htop⟩ := top_clear htop
    show j ∈ (w.lanes.clear q).stack r
    rw [hstack, if_neg hne]
    exact h.full hop hr htop hle

theorem InOrder.clearAll (h : InOrder rule w) (qs : List Qubit) :
    InOrder rule { w with lanes := qs.foldl Lanes.clear w.lanes } := by
  induction qs generalizing w with
  | nil => exact h
  | cons q rest ih => exact ih (h.clear q)

theorem top_clearAll {qs : List Qubit} {r : Qubit} {s : Nat}
    (h : (qs.foldl Lanes.clear w.lanes).top? r = some s) : w.lanes.top? r = some s := by
  induction qs generalizing w with
  | nil => exact h
  | cons q rest ih => exact (top_clear (ih (w := { w with lanes := w.lanes.clear q }) h)).2

theorem keeps_clearAll {n : Nat} {qs : List Qubit}
    (hqs : ∀ r ∈ qs, ∀ s, w.lanes.top? r = some s → n ≤ s) :
    Keeps n n w { w with lanes := qs.foldl Lanes.clear w.lanes } := by
  induction qs generalizing w with
  | nil => exact .refl n n w
  | cons q rest ih =>
    refine (keeps_clear (hqs q List.mem_cons_self)).trans (ih fun r hr s hs => ?_)
    exact hqs r (List.mem_cons_of_mem q hr) s (top_clear hs).2

/-- The operation at a slot may become one on the same qubits at which no lane is given up. -/
theorem InOrder.set (h : InOrder rule w) {result : Operation} (hop : w.ops[slot]? = some op)
    (hacts : ∀ r, result.actsOn r = op.actsOn r) (hquiet : ∀ p, (rule p result).halt = []) :
    InOrder rule { w with ops := w.ops.set slot result } := by
  refine ⟨h.sorted, fun r j hj => ?_, fun r j o s ho hr htop hle => ?_,
    fun p r j o s ho hr htop => ?_⟩
  · obtain ⟨o, ho, hr⟩ := h.acts hj
    by_cases hjs : slot = j
    · subst hjs
      cases hop.symm.trans ho
      exact ⟨result, List.getElem?_set_self (List.getElem?_eq_some_iff.1 hop).1, hacts r ▸ hr⟩
    · exact ⟨o, (List.getElem?_set_ne hjs).trans ho, hr⟩
  · rcases Operation.getElem?_set_cases ho with ⟨rfl, rfl⟩ | ⟨-, ho⟩
    · exact h.full hop (hacts r ▸ hr) htop hle
    · exact h.full ho hr htop hle
  · rcases Operation.getElem?_set_cases ho with ⟨rfl, rfl⟩ | ⟨-, ho⟩
    · rw [hquiet p] at hr
      cases hr
    · exact h.halting ho hr htop

/-- Lanes that are at the same slot may go over it, if no lane is given up there. -/
theorem InOrder.popAll (h : InOrder rule w) (hrule : Orderly rule) {qs : List Qubit}
    (hqs : qs.Nodup) (htop : ∀ r ∈ qs, w.lanes.top? r = some slot)
    (hquiet : ∀ op, w.ops[slot]? = some op → ∀ p, (rule p op).halt = []) :
    InOrder rule { w with lanes := qs.foldl Lanes.pop w.lanes } := by
  have hstack : ∀ r, (qs.foldl Lanes.pop w.lanes).stack r =
      if r ∈ qs then (w.lanes.stack r).tail else w.lanes.stack r := Lanes.stack_foldl_pop _ hqs
  have hcut : ∀ {r}, r ∈ qs → w.lanes.stack r = slot :: (w.lanes.stack r).tail :=
    fun hr => stack_of_top (htop _ hr)
  have hrest : ∀ {r j}, r ∈ qs → j ∈ w.lanes.stack r → j ≠ slot → j ∈ (w.lanes.stack r).tail := by
    intro r j hr hj hne
    rw [hcut hr] at hj
    exact (List.mem_cons.1 hj).resolve_left hne
  have hlt : ∀ {r j}, r ∈ qs → j ∈ (w.lanes.stack r).tail → j < slot := by
    intro r j hr hj
    have hsorted := h.sorted r
    rw [hcut hr, List.pairwise_cons] at hsorted
    exact hsorted.1 j hj
  refine ⟨fun r => ?_, fun r j hj => ?_, fun r j op s hop hacts hs hle => ?_,
    fun p r j op s hop hhalt hs => ?_⟩
  · show ((qs.foldl Lanes.pop w.lanes).stack r).Pairwise _
    rw [hstack]
    split
    · exact (h.sorted r).tail
    · exact h.sorted r
  · have hj' : j ∈ (qs.foldl Lanes.pop w.lanes).stack r := hj
    rw [hstack] at hj'
    split at hj'
    · exact h.acts (List.mem_of_mem_tail hj')
    · exact h.acts hj'
  · have hs' : ((qs.foldl Lanes.pop w.lanes).stack r).head? = some s := hs
    show j ∈ (qs.foldl Lanes.pop w.lanes).stack r
    rw [hstack] at hs' ⊢
    split at hs'
    · next hr =>
      rw [if_pos hr]
      have hj : j < slot := Nat.lt_of_le_of_lt hle (hlt hr (List.mem_of_head? hs'))
      exact hrest hr (h.full hop hacts (htop r hr) (Nat.le_of_lt hj)) (Nat.ne_of_lt hj)
    · next hr =>
      rw [if_neg hr]
      exact h.full hop hacts hs' hle
  · have hs' : ((qs.foldl Lanes.pop w.lanes).stack r).head? = some s := hs
    rw [hstack] at hs'
    split at hs'
    · next hr =>
      have hle : j ≤ slot := h.halting hop hhalt (htop r hr)
      have hne : j ≠ slot := by
        rintro rfl
        rw [hquiet op hop p] at hhalt
        cases hhalt
      have hmem := hrest hr (h.full hop (hrule.halt hhalt) (htop r hr) hle) hne
      exact le_head_of_descending (h.sorted r).tail hs' hmem
    · exact h.halting hop hhalt hs'

/-! ## Calls -/

/-- What is left of a step, as the lanes stand meanwhile; the pending lanes are being driven. -/
structure Task.Sound (rule : Rule) (w : Walk) (bound : Option Nat) (q : Qubit)
    (pending : List Qubit) (t : Task) : Prop where
  above : Lanes.isAbove bound t.slot = true
  /-- The driven lane is at the slot, or it has been given up. -/
  back : ∀ s, w.lanes.top? q = some s → s = t.slot
  /-- It is there if anything is still to be done. -/
  top : t.stages ≠ [] ∨ t.advance ≠ none → w.lanes.top? q = some t.slot
  nodup : ∀ rs, t.advance = some rs → (rs ++ [q]).Nodup
  /-- The other lanes that will go on are at the slot, or are still to be driven there. -/
  synced : ∀ rs, t.advance = some rs → ∀ r ∈ rs, w.lanes.top? r = some t.slot ∨ r ∈ pending ∨
    ∃ stage ∈ t.stages, r ∈ stage.others
  quiet : t.stages ≠ [] ∨ t.advance ≠ none → ∀ op, w.ops[t.slot]? = some op →
    ∀ p, (rule p op).halt = []
  results : ∀ stage ∈ t.stages, (∀ p, (rule p stage.result).halt = []) ∧
    ∀ op, w.ops[t.slot]? = some op → ∀ r, stage.result.actsOn r = op.actsOn r

def Call.Sound (rule : Rule) (w : Walk) (c : Call) : Prop :=
  match c.phase with
  | .looking => True
  | .working t => t.Sound rule w c.bound c.lane []
  | .waiting r t => t.Sound rule w c.bound c.lane [r]

/-- The first call has been made by the second one, which waits for it. -/
def Call.Inside (inner outer : Call) : Prop :=
  ∃ t, outer.phase = .waiting inner.lane t ∧ inner.bound = some t.slot

/-- A task does not notice what happens above its slot. -/
theorem Task.Sound.keeps {bound : Option Nat} {pending : List Qubit} {t : Task}
    (h : t.Sound rule w bound q pending) (hk : Keeps (t.slot + 1) (t.slot + 1) w w') :
    t.Sound rule w' bound q pending := by
  have hop : w'.ops[t.slot]? = w.ops[t.slot]? := hk.ops t.slot (Nat.lt_succ_self _)
  refine ⟨h.above, ?_, fun ht => hk.top (h.top ht), h.nodup, fun rs hrs r hr => ?_, ?_, ?_⟩
  · have hstack := hk.lanes q fun s hs => Nat.lt_succ_of_le (Nat.le_of_eq (h.back s hs))
    intro s hs
    rw [Lanes.top?, hstack] at hs
    exact h.back s hs
  · exact (h.synced rs hrs r hr).imp_left hk.top
  · rw [hop]
    exact h.quiet
  · rw [hop]
    exact h.results

/-- A call makes no difference to the ones around it. -/
theorem sound_below {c : Call} {below : List Call} (hinside : (c :: below).IsChain Call.Inside)
    (h : ∀ d ∈ below, d.Sound rule w) (hk : Keeps (firstAbove c.bound) (firstAbove c.bound) w w') :
    ∀ d ∈ below, d.Sound rule w' := by
  induction below generalizing c with
  | nil => exact fun d hd => absurd hd List.not_mem_nil
  | cons d rest ih =>
    obtain ⟨⟨t, hphase, hbound⟩, hrest⟩ := List.isChain_cons_cons.1 hinside
    have ht : t.Sound rule w d.bound d.lane [c.lane] := by
      have hd := h d List.mem_cons_self
      rwa [Call.Sound, hphase] at hd
    -- what stays below the slot of the waiting call stays below the bound of that call too
    rw [hbound] at hk
    have hle : firstAbove d.bound ≤ t.slot + 1 := Nat.le_succ_of_le (isAbove_iff.1 ht.above)
    intro e he
    rcases List.mem_cons.1 he with rfl | he
    · rw [Call.Sound, hphase]
      exact ht.keeps hk
    · exact ih hrest (fun e he => h e (List.mem_cons_of_mem d he)) (hk.mono hle hle) e he

namespace Machine

structure Sound (rule : Rule) (m : Machine) : Prop where
  inOrder : InOrder rule m.walk
  calls : ∀ c ∈ m.calls, c.Sound rule m.walk
  inside : m.calls.IsChain Call.Inside

variable {c : Call} {below : List Call} {todo : List Qubit}

/-- The innermost call goes on to another phase. -/
theorem Sound.goOn (h : Sound rule ⟨w, c :: below, todo⟩) (hw' : InOrder rule w')
    (hk : Keeps (firstAbove c.bound) (firstAbove c.bound) w w') {phase : Phase}
    (hphase : Call.Sound rule w' ⟨c.bound, c.lane, phase⟩) :
    Sound rule ⟨w', ⟨c.bound, c.lane, phase⟩ :: below, todo⟩ := by
  refine ⟨hw', fun d hd => ?_, ?_⟩
  · rcases List.mem_cons.1 hd with rfl | hd
    · exact hphase
    · exact sound_below h.inside (fun e he => h.calls e (List.mem_cons_of_mem _ he)) hk d hd
  · have hinside := h.inside
    cases below with
    | nil => exact .singleton _
    | cons d rest =>
      obtain ⟨hd, hrest⟩ := List.isChain_cons_cons.1 hinside
      exact .cons_cons hd hrest

/-- The innermost call ends. -/
theorem Sound.finish (h : Sound rule ⟨w, c :: below, todo⟩) (hw' : InOrder rule w')
    (hk : Keeps (firstAbove c.bound) (firstAbove c.bound) w w') :
    Sound rule ⟨w', below, todo⟩ :=
  ⟨hw', sound_below h.inside (fun e he => h.calls e (List.mem_cons_of_mem _ he)) hk,
    h.inside.of_cons⟩

section working
variable {bound : Option Nat} {t : Task}

/-- A call that has come to a slot may give up its lane. -/
theorem Sound.giveUp {pending : List Qubit} (h : Sound rule ⟨w, c :: below, todo⟩)
    (ht : t.Sound rule w c.bound c.lane pending) : Sound rule (giveUp w c.lane below todo) := by
  refine h.finish (h.inOrder.clear c.lane) (keeps_clear fun s hs => ?_)
  rw [ht.back s hs]
  exact isAbove_iff.1 ht.above

/-- The end of the lane is looked at. -/
theorem Sound.look (hrule : Orderly rule)
    (h : Sound rule ⟨w, ⟨bound, q, .looking⟩ :: below, todo⟩) {op : Operation}
    (htop : w.lanes.top? q = some slot) (habove : Lanes.isAbove bound slot = true)
    (hop : w.ops[slot]? = some op) :
    Sound rule ⟨{ w with lanes := (rule q op).halt.foldl Lanes.clear w.lanes },
      ⟨bound, q, .working ⟨slot, (rule q op).stages, (rule q op).advance⟩⟩ :: below, todo⟩ := by
  have hhalt : ∀ r ∈ (rule q op).halt, ∀ s, w.lanes.top? r = some s → slot ≤ s :=
    fun r hr s hs => h.inOrder.halting hop hr hs
  have hk := (keeps_clearAll hhalt).mono (isAbove_iff.1 habove) (isAbove_iff.1 habove)
  refine h.goOn (h.inOrder.clearAll _) hk ?_
  -- the driven lane may be among those given up, but then nothing is left to be done
  have hsame : (rule q op).stages ≠ [] ∨ (rule q op).advance ≠ none →
      (rule q op).halt.foldl Lanes.clear w.lanes = w.lanes := by
    intro hact
    rw [hrule.quiet hact q]
    rfl
  refine ⟨habove, fun s hs => ?_, fun hact => ?_, fun rs hrs => hrule.nodup hrs,
    fun rs hrs r hr => .inr (.inr (hrule.synced hrs r hr)), fun hact o ho => ?_,
    fun stage hstage => ⟨hrule.result_quiet hstage, fun o ho => ?_⟩⟩
  · cases htop.symm.trans (top_clearAll hs)
    rfl
  · show ((rule q op).halt.foldl Lanes.clear w.lanes).top? q = some slot
    rw [hsame hact]
    exact htop
  · cases hop.symm.trans ho
    exact hrule.quiet hact
  · cases hop.symm.trans ho
    exact hrule.result_actsOn hstage

/-- Another lane is to be driven first. -/
theorem Sound.wait {r : Qubit} {others : List Qubit} {result : Operation} {stages : List Stage}
    {advance : Option (List Qubit)}
    (h : Sound rule ⟨w, ⟨bound, q, .working ⟨slot, ⟨r :: others, result⟩ :: stages, advance⟩⟩ ::
      below, todo⟩) :
    Sound rule ⟨w, ⟨some slot, r, .looking⟩ ::
      ⟨bound, q, .waiting r ⟨slot, ⟨others, result⟩ :: stages, advance⟩⟩ :: below, todo⟩ := by
  have ht : Task.Sound rule w bound q [] ⟨slot, ⟨r :: others, result⟩ :: stages, advance⟩ :=
    h.calls _ List.mem_cons_self
  have hwait : Task.Sound rule w bound q [r] ⟨slot, ⟨others, result⟩ :: stages, advance⟩ := by
    refine ⟨ht.above, ht.back, fun _ => ht.top (.inl (List.cons_ne_nil _ _)), ht.nodup,
      fun rs hrs r' hr' => ?_, fun _ => ht.quiet (.inl (List.cons_ne_nil _ _)),
      fun stage hstage => ?_⟩
    · rcases ht.synced rs hrs r' hr' with htop | hpending | ⟨stage, hstage, hmem⟩
      · exact .inl htop
      · cases hpending
      · rcases List.mem_cons.1 hstage with rfl | hstage
        · rcases List.mem_cons.1 hmem with rfl | hmem
          · exact .inr (.inl List.mem_cons_self)
          · exact .inr (.inr ⟨_, List.mem_cons_self, hmem⟩)
        · exact .inr (.inr ⟨stage, List.mem_cons_of_mem _ hstage, hmem⟩)
    · rcases List.mem_cons.1 hstage with rfl | hstage
      · exact ht.results ⟨r :: others, result⟩ List.mem_cons_self
      · exact ht.results stage (List.mem_cons_of_mem _ hstage)
  have hgo : Sound rule ⟨w, ⟨bound, q, .waiting r ⟨slot, ⟨others, result⟩ :: stages, advance⟩⟩ ::
      below, todo⟩ := h.goOn h.inOrder (.refl _ _ w) hwait
  refine ⟨h.inOrder, fun d hd => ?_, .cons_cons ⟨_, rfl, rfl⟩ hgo.inside⟩
  rcases List.mem_cons.1 hd with rfl | hd
  · trivial
  · exact hgo.calls d hd

/-- The lane that was waited for has come back. -/
theorem Sound.resume {r : Qubit} (h : Sound rule ⟨w, ⟨bound, q, .waiting r t⟩ :: below, todo⟩)
    (hr : w.lanes.top? r = some t.slot) :
    Sound rule ⟨w, ⟨bound, q, .working t⟩ :: below, todo⟩ := by
  have ht : t.Sound rule w bound q [r] := h.calls _ List.mem_cons_self
  refine h.goOn h.inOrder (.refl _ _ w) { ht with synced := fun rs hrs r' hr' => ?_ }
  rcases ht.synced rs hrs r' hr' with htop | hpending | hstage
  · exact .inl htop
  · exact .inl (List.mem_singleton.1 hpending ▸ hr)
  · exact .inr (.inr hstage)

/-- All lanes of a stage are at the slot, and the operation there changes. -/
theorem Sound.write {result : Operation} {stages : List Stage} {advance : Option (List Qubit)}
    (h : Sound rule ⟨w, ⟨bound, q, .working ⟨slot, ⟨[], result⟩ :: stages, advance⟩⟩ :: below,
      todo⟩) :
    Sound rule ⟨{ w with ops := w.ops.set slot result },
      ⟨bound, q, .working ⟨slot, stages, advance⟩⟩ :: below, todo⟩ := by
  have ht : Task.Sound rule w bound q [] ⟨slot, ⟨[], result⟩ :: stages, advance⟩ :=
    h.calls _ List.mem_cons_self
  have htop := ht.top (.inl (List.cons_ne_nil _ _))
  obtain ⟨op, hop, -⟩ := h.inOrder.acts_top htop
  obtain ⟨hquiet, hacts⟩ := ht.results ⟨[], result⟩ List.mem_cons_self
  have hnew : (w.ops.set slot result)[slot]? = some result :=
    List.getElem?_set_self (List.getElem?_eq_some_iff.1 hop).1
  refine h.goOn (h.inOrder.set hop (hacts op hop) hquiet)
    ((keeps_set w slot slot result).mono (isAbove_iff.1 ht.above) (isAbove_iff.1 ht.above)) ?_
  refine ⟨ht.above, ht.back, fun _ => htop, ht.nodup, fun rs hrs r hr => ?_, fun _ o ho => ?_,
    fun stage hstage => ?_⟩
  · rcases ht.synced rs hrs r hr with htop | hpending | ⟨stage, hstage, hmem⟩
    · exact .inl htop
    · cases hpending
    · rcases List.mem_cons.1 hstage with rfl | hstage
      · cases hmem
      · exact .inr (.inr ⟨stage, hstage, hmem⟩)
  · cases hnew.symm.trans ho
    exact hquiet
  · obtain ⟨hquiet', hacts'⟩ := ht.results stage (List.mem_cons_of_mem _ hstage)
    refine ⟨hquiet', fun o ho r => ?_⟩
    cases hnew.symm.trans ho
    rw [hacts' op hop, hacts op hop]

/-- When a step is through, all lanes that go on are at its slot. -/
theorem Sound.together {rs : List Qubit}
    (h : Sound rule ⟨w, ⟨bound, q, .working ⟨slot, [], some rs⟩⟩ :: below, todo⟩) :
    Task.Sound rule w bound q [] ⟨slot, [], some rs⟩ ∧
      ∀ r ∈ rs ++ [q], w.lanes.top? r = some slot := by
  have ht : Task.Sound rule w bound q [] ⟨slot, [], some rs⟩ := h.calls _ List.mem_cons_self
  refine ⟨ht, fun r hr => ?_⟩
  rcases List.mem_append.1 hr with hr | hr
  · rcases ht.synced rs rfl r hr with htop | hpending | ⟨stage, hstage, -⟩
    · exact htop
    · cases hpending
    · cases hstage
  · rw [List.mem_singleton.1 hr]
    exact ht.top (.inr (Option.some_ne_none rs))

/-- The lanes go on. -/
theorem Sound.moveOn (hrule : Orderly rule) {rs : List Qubit}
    (h : Sound rule ⟨w, ⟨bound, q, .working ⟨slot, [], some rs⟩⟩ :: below, todo⟩) :
    Sound rule ⟨{ w with lanes := (rs ++ [q]).foldl Lanes.pop w.lanes },
      ⟨bound, q, .looking⟩ :: below, todo⟩ := by
  obtain ⟨ht, htops⟩ := h.together
  have hnodup := ht.nodup rs rfl
  refine h.goOn (h.inOrder.popAll hrule hnodup htops (ht.quiet (.inr (Option.some_ne_none rs))))
    (keeps_popAll hnodup htops (isAbove_iff.1 ht.above)) ?_
  trivial

end working

/-! ## Runs -/

variable {m m' : Machine}

theorem Sound.step (hrule : Orderly rule) (h : Sound rule m) (hstep : m.step rule = some m') :
    Sound rule m' := by
  unfold Machine.step at hstep
  split at hstep
  · cases hstep
  · cases hstep
    refine ⟨h.inOrder, fun d hd => ?_, .singleton _⟩
    rw [List.mem_singleton.1 hd]
    trivial
  · next w bound q below todo =>
    split at hstep
    · cases hstep
      exact h.finish h.inOrder (.refl _ _ _)
    · next slot htop =>
      split at hstep
      · next habove =>
        split at hstep
        · next hop =>
          obtain ⟨op, hop', -⟩ := h.inOrder.acts_top htop
          cases hop.symm.trans hop'
        · next op hop =>
          cases hstep
          exact h.look hrule htop habove hop
      · cases hstep
        exact h.finish h.inOrder (.refl _ _ _)
  · cases hstep
    exact h.wait
  · cases hstep
    exact h.write
  · cases hstep
    exact h.giveUp (h.calls _ List.mem_cons_self)
  · cases hstep
    exact h.moveOn hrule
  · next w bound q r t below todo =>
    split at hstep
    · next hr =>
      cases hstep
      exact h.resume hr
    · cases hstep
      exact h.giveUp (h.calls _ List.mem_cons_self)

theorem Sound.reaches (hrule : Orderly rule) (h : Sound rule m) (hreach : Reaches rule m m') :
    Sound rule m' := by
  induction hreach with
  | refl => exact h
  | tail _ hstep ih => exact ih.step hrule hstep

end Machine
end Walk
end QuantumCircuit
