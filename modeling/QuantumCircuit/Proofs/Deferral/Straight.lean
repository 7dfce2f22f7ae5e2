import Mathlib.Data.List.Permutation
import QuantumCircuit.Proofs.Deferral.Order

/-! Circuits whose deferral keeps the order on a qubit, told from the operations
alone. A use of the measured qubit is what holds the place for rewired gates back. So
what has to be kept away from an unmeasured qubit `p` is: a use of the measured qubit,
then an operation on `p`, then a gate on `p` that is rewired. -/
namespace QuantumCircuit
namespace Deferral
open Operation

/-- The operation holds back the place for rewired gates. -/
def uses (q : Qubit) (op : Operation) : Bool := !op.isMeasure && op.actsOn q

/-- The operation is rewired when the measurement into `b` is deferred, and acts on `p`. -/
def awaits (p : Qubit) (b : Clbit) (op : Operation) : Bool := readsFrom b op && op.actsOn p

/-- The operation is conditional, and it acts on `q` or comes to do so when it is rewired
for another bit. It may be put in front of others then. -/
def MayUse (measured : Qubit → Clbit → Prop) (q : Qubit) (b : Clbit) (op : Operation) : Prop :=
  ∃ cond body, op = .conditional cond body ∧
    (body.actsOn q = true ∨ cond.register.start ≠ b ∧ measured q cond.register.start)

/-- The operations behind a measurement of `q` into `b` let its gates on `p` stay in order. -/
structure Straight (measured : Qubit → Clbit → Prop) (p q : Qubit) (b : Clbit)
    (later : List Operation) : Prop where
  /-- No operation on `p` comes between a use of `q` and a gate on `p` that awaits `b`. -/
  between : ∀ u o x, [u, o, x].Sublist later → uses q u = true → o.actsOn p = true →
    awaits p b x = false
  /-- A use of `q` in front of such a gate is not an operation on `p` itself. -/
  apart : ∀ u x, [u, x].Sublist later → uses q u = true → u.actsOn p = true → awaits p b x = false
  /-- With an operation on `p` in front of such a gate, no further uses of `q` can come up. -/
  settled : ∀ o x y, [o, x].Sublist later → o.actsOn p = true → awaits p b x = true →
    y ∈ later → ¬ MayUse measured q b y

/-- Every measurement of the list is followed by operations of that kind. -/
def AllStraight (measured : Qubit → Clbit → Prop) (p : Qubit) (ops : List Operation) : Prop :=
  ∀ q b later, (measuring (q, b) :: later) <:+ ops → Straight measured p q b later

section sublist
variable {measured : Qubit → Clbit → Prop} {p q : Qubit} {b : Clbit} {ops ops' : List Operation}

theorem Straight.mono (h : Straight measured p q b ops) (hsub : ops'.Sublist ops) :
    Straight measured p q b ops' where
  between u o x hs := h.between u o x (hs.trans hsub)
  apart u x hs := h.apart u x (hs.trans hsub)
  settled o x y hs ho hx hy := h.settled o x y (hs.trans hsub) ho hx (hsub.mem hy)

theorem AllStraight.mono (h : AllStraight measured p ops) (hsub : ops'.Sublist ops) :
    AllStraight measured p ops' := by
  intro q b later hsuffix
  obtain ⟨r₁, r₂, rfl, hmem, hlater⟩ := List.cons_sublist_iff.1 (hsuffix.sublist.trans hsub)
  obtain ⟨s, t, rfl⟩ := List.append_of_mem hmem
  have hcut : (measuring (q, b) :: (t ++ r₂)) <:+ s ++ measuring (q, b) :: t ++ r₂ :=
    ⟨s, by simp⟩
  exact (h q b _ hcut).mono (hlater.trans (List.sublist_append_right t r₂))

/-- A sublist of a list with one element put in leaves the element out or is cut at it. -/
theorem sublist_put_in {g : Operation} {l front back : List Operation}
    (h : l.Sublist (front ++ g :: back)) :
    l.Sublist (front ++ back) ∨
      ∃ l₁ l₂, l = l₁ ++ g :: l₂ ∧ l₁.Sublist front ∧ l₂.Sublist back := by
  obtain ⟨l₁, l₂, rfl, hfront, hback⟩ := List.sublist_append_iff.1 h
  rcases List.sublist_cons_iff.1 hback with hback | ⟨r, rfl, hr⟩
  · exact .inl (hfront.append hback)
  · exact .inr ⟨l₁, r, rfl, hfront, hr⟩

end sublist

/-! ## A gate put in front of the queue -/

section hoist
variable {measured : Qubit → Clbit → Prop} {p q₀ : Qubit} {b₀ : Clbit} {op : Operation} {g : Gate}
  {front passed rest : List Operation}

theorem mayUse_of_replace (hop : inspect q₀ b₀ op = .ok (.replace g)) (hm : measured q₀ b₀)
    {q : Qubit} {b : Clbit} (hne : (q, b) ≠ (q₀, b₀)) (hg : uses q (.gate g) = true) :
    MayUse measured q b op := by
  have hacts := (actsOn_of_replace hop).1 ((Bool.and_eq_true _ _).mp hg).2
  obtain ⟨cond, body, rfl, hreg, -, -⟩ := inspect_eq_replace hop
  refine ⟨cond, _, rfl, ?_⟩
  rcases hacts with rfl | hbody
  · right
    rw [hreg]
    exact ⟨fun hb => hne (by rw [← hb]; rfl), hm⟩
  · exact .inl hbody

/-- What is on `p` behind a gate that was put in comes behind the operation it stands for. -/
theorem behind_of_clears (hclear : Move.Clears p ⟨g, passed⟩) (hg : g.actsOn p = true)
    {x : Operation} (hx : x ∈ passed ++ rest) (hxp : x.actsOn p = true) : x ∈ rest := by
  rcases List.mem_append.1 hx with hpassed | hrest
  · rw [hclear hg x hpassed] at hxp
    cases hxp
  · exact hrest

/-- A gate on `p` that was put in and an operation on `p` behind it were the rewired
operation and that one before. -/
theorem pair_of_put_in (hop : inspect q₀ b₀ op = .ok (.replace g)) (hp : p ≠ q₀)
    (hclear : Move.Clears p ⟨g, passed⟩) {l : List Operation} {x : Operation}
    (hl : l.Sublist front) (hg : g.actsOn p = true) (hx : [x].Sublist (passed ++ rest))
    (hxp : x.actsOn p = true) :
    op.actsOn p = true ∧ (l ++ [op, x]).Sublist (front ++ (passed ++ op :: rest)) := by
  have hrest := behind_of_clears hclear hg (List.singleton_sublist.1 hx) hxp
  have hpair : [op, x].Sublist (op :: rest) := (List.singleton_sublist.2 hrest).cons_cons op
  refine ⟨((actsOn_of_replace hop).1 hg).resolve_left hp, hl.append ?_⟩
  exact hpair.trans (List.sublist_append_right passed _)

theorem actsOn_of_awaits {q : Qubit} {b : Clbit} {x : Operation} (h : awaits q b x = true) :
    x.actsOn q = true :=
  ((Bool.and_eq_true _ _).mp h).2

/-- A move for one measurement keeps the operations behind another one straight. The
gate that is put in awaits nothing, so it can only be the use or the operation on `p`. -/
theorem Straight.hoist (hop : inspect q₀ b₀ op = .ok (.replace g)) (hm : measured q₀ b₀)
    (hp : p ≠ q₀) (hclear : Move.Clears p ⟨g, passed⟩) {q : Qubit} {b : Clbit}
    (hne : (q, b) ≠ (q₀, b₀)) (h : Straight measured p q b (front ++ (passed ++ op :: rest))) :
    Straight measured p q b (front ++ .gate g :: (passed ++ rest)) := by
  have hless : (front ++ (passed ++ rest)).Sublist (front ++ (passed ++ op :: rest)) := by
    simp
  have hopmem : op ∈ front ++ (passed ++ op :: rest) := by simp
  refine ⟨?_, ?_, ?_⟩
  · intro u o x hsub hu ho
    by_contra hx
    replace hx := Bool.eq_true_of_not_eq_false hx
    rcases sublist_put_in hsub with hsub | ⟨l₁, l₂, heq, hfront, hback⟩
    · rw [h.between u o x (hsub.trans hless) hu ho] at hx
      cases hx
    · rcases l₁ with _ | ⟨u', _ | ⟨o', _ | ⟨x', l₁⟩⟩⟩
      · cases heq
        have hbehind : [o, x].Sublist (front ++ (passed ++ rest)) :=
          hback.trans (List.sublist_append_right front _)
        exact h.settled o x op (hbehind.trans hless) ho hx hopmem
          (mayUse_of_replace hop hm hne hu)
      · cases heq
        obtain ⟨hacts, hthree⟩ := pair_of_put_in hop hp hclear hfront ho hback
          (actsOn_of_awaits hx)
        rw [h.between u op x hthree hu hacts] at hx
        cases hx
      · cases heq
        cases hx
      · simp at heq
  · intro u x hsub hu hup
    by_contra hx
    replace hx := Bool.eq_true_of_not_eq_false hx
    rcases sublist_put_in hsub with hsub | ⟨l₁, l₂, heq, hfront, hback⟩
    · rw [h.apart u x (hsub.trans hless) hu hup] at hx
      cases hx
    · rcases l₁ with _ | ⟨u', _ | ⟨x', l₁⟩⟩
      · cases heq
        obtain ⟨hacts, htwo⟩ := pair_of_put_in hop hp hclear hfront hup hback
          (actsOn_of_awaits hx)
        exact h.settled op x op htwo hacts hx hopmem (mayUse_of_replace hop hm hne hu)
      · cases heq
        cases hx
      · simp at heq
  · intro o x y hsub ho hx hy hmay
    have hold : y ∈ front ++ (passed ++ op :: rest) := by
      obtain ⟨cond, body, rfl, -⟩ := hmay
      apply hless.mem
      simpa using hy
    rcases sublist_put_in hsub with hsub | ⟨l₁, l₂, heq, hfront, hback⟩
    · exact h.settled o x y (hsub.trans hless) ho hx hold hmay
    · rcases l₁ with _ | ⟨o', _ | ⟨x', l₁⟩⟩
      · cases heq
        obtain ⟨hacts, htwo⟩ := pair_of_put_in hop hp hclear hfront ho hback
          (actsOn_of_awaits hx)
        exact h.settled op x y htwo hacts hx hold hmay
      · cases heq
        cases hx
      · simp at heq

theorem AllStraight.hoist (hop : inspect q₀ b₀ op = .ok (.replace g)) (hm : measured q₀ b₀)
    (hp : p ≠ q₀) (hclear : Move.Clears p ⟨g, passed⟩) (hfree : measuring (q₀, b₀) ∉ front)
    (h : AllStraight measured p (front ++ (passed ++ op :: rest))) :
    AllStraight measured p (front ++ .gate g :: (passed ++ rest)) := by
  intro q b later hsuffix
  obtain ⟨t, ht⟩ := hsuffix
  rcases List.append_eq_append_iff.1 ht with ⟨as, rfl, heq⟩ | ⟨bs, rfl, heq⟩
  -- the measurement is in front of the gate
  · rcases List.append_eq_cons_iff.1 heq.symm with ⟨-, hgate⟩ | ⟨front₂, rfl, rfl⟩
    · cases hgate
    · have hne : (q, b) ≠ (q₀, b₀) := by
        rintro hsame
        rw [hsame] at hfree
        simp at hfree
      have hcut : (measuring (q, b) :: (front₂ ++ (passed ++ op :: rest))) <:+
          t ++ measuring (q, b) :: front₂ ++ (passed ++ op :: rest) := ⟨t, by simp⟩
      exact (h q b _ hcut).hoist hop hm hp hclear hne
  -- the measurement is behind the gate, and only the rewired operation is gone there
  · rcases List.cons_eq_append_iff.1 heq with ⟨-, hgate⟩ | ⟨bs₂, rfl, hrest⟩
    · cases hgate
    · have hback : AllStraight measured p (passed ++ rest) := h.mono (by simp)
      exact hback q b later ⟨bs₂, hrest.symm⟩

end hoist

/-! ## A scan -/

theorem uses_of_skip {q : Qubit} {b : Clbit} {op : Operation} {moves : Bool}
    (h : inspect q b op = .ok (.skip moves)) : uses q op = !moves := by
  unfold inspect at h
  split at h
  · next hunitary =>
    cases h
    cases op <;> simp_all [uses, isUnitary, isMeasure]
  · split at h
    · cases h
    · split at h
      · next hmeasure =>
        split at h
        · cases h
        · cases h
          simp [uses, hmeasure]
      · next hmeasure =>
        split at h
        · split at h
          · cases h
          · split at h
            · split at h <;> cases h
            · cases h
              simp [uses, isMeasure]
        · cases h
          simp [uses, hmeasure]

/-- The queue is as long as there were uses of the measured qubit. So what is in the
queue is such a use or comes behind one. -/
theorem exists_use_of_mem_queue {q : Qubit} {dropped passed : List Operation} {o : Operation}
    (hlen : passed.length = (dropped ++ passed).countP (uses q)) (ho : o ∈ passed) :
    uses q o = true ∨ ∃ u, uses q u = true ∧ [u, o].Sublist (dropped ++ passed) := by
  obtain ⟨s, t, rfl⟩ := List.append_of_mem ho
  by_cases hused : uses q o = true
  · exact .inl hused
  · right
    have hpos : 0 < (dropped ++ s).countP (uses q) := by
      have htail : t.countP (uses q) ≤ t.length := List.countP_le_length
      simp only [← List.append_assoc, List.countP_append, List.countP_cons, List.length_append,
        List.length_cons, if_neg hused] at hlen ⊢
      omega
    obtain ⟨u, hu, huse⟩ := List.countP_pos_iff.1 hpos
    refine ⟨u, huse, ?_⟩
    rw [← List.append_assoc]
    exact (List.singleton_sublist.2 hu).append (List.singleton_sublist.2 List.mem_cons_self)

section scan
variable {measured : Qubit → Clbit → Prop} {p q : Qubit} {b : Clbit}
  {front dropped passed rest out : List Operation} {op : Operation} {g : Gate} {ms : List Move}

/-- The one step in which the order could change. -/
theorem clears_of_straight (hop : inspect q b op = .ok (.replace g)) (hp : p ≠ q)
    (hlen : passed.length = (dropped ++ passed).countP (uses q))
    (h : Straight measured p q b (dropped ++ (passed ++ op :: rest))) :
    Move.Clears p ⟨g, passed⟩ := by
  intro hg o ho
  have hacts : op.actsOn p = true := ((actsOn_of_replace hop).1 hg).resolve_left hp
  have hawaits : awaits p b op = true := by
    rw [awaits, readsFrom_of_replace hop, hacts]
    rfl
  have hops : dropped ++ (passed ++ op :: rest) = dropped ++ passed ++ ([op] ++ rest) := by simp
  rw [hops] at h
  by_contra hon
  replace hon := Bool.eq_true_of_not_eq_false hon
  have hlast : [op].Sublist ([op] ++ rest) := List.sublist_append_left [op] rest
  rcases exists_use_of_mem_queue hlen ho with huse | ⟨u, huse, hsub⟩
  · have hsub : [o].Sublist (dropped ++ passed) :=
      List.singleton_sublist.2 (List.mem_append_right _ ho)
    rw [h.apart o op (hsub.append hlast) huse hon] at hawaits
    cases hawaits
  · rw [h.between u o op (hsub.append hlast) huse hon] at hawaits
    cases hawaits

/-- A scan keeps every other measurement straight and makes only moves that clear `p`. -/
theorem Scans.clears (h : Scans q b front passed rest ms out) (hm : measured q b) (hp : p ≠ q)
    (hfree : measuring (q, b) ∉ front ++ passed)
    (hlen : passed.length = (dropped ++ passed).countP (uses q))
    (hthis : Straight measured p q b (dropped ++ (passed ++ rest)))
    (hall : AllStraight measured p (front ++ (passed ++ rest))) :
    (∀ m ∈ ms, m.Clears p) ∧ AllStraight measured p out := by
  induction h generalizing dropped with
  | finish front passed =>
    rw [List.append_nil] at hall
    exact ⟨nofun, hall⟩
  | stop => exact ⟨nofun, hall⟩
  | @keepUp front passed later rest out first op ms hop hcut _ ih =>
    have hfree' : measuring (q, b) ∉ front ++ [first] ++ later := by
      rw [List.append_assoc, List.singleton_append, ← hcut, ← List.append_assoc]
      simp only [List.mem_append, List.mem_singleton, not_or] at hfree ⊢
      exact ⟨hfree, (ne_measuring_of_skip hop).symm⟩
    have hlen' : later.length = (dropped ++ [first] ++ later).countP (uses q) := by
      have hcount : (dropped ++ (passed ++ [op])).countP (uses q) =
          (dropped ++ passed).countP (uses q) := by
        simp [← List.append_assoc, List.countP_append, uses_of_skip hop]
      have hlength := congrArg List.length hcut
      rw [List.append_assoc, List.singleton_append, ← hcut, hcount, ← hlen]
      simp only [List.length_append, List.length_cons, List.length_nil] at hlength
      omega
    rw [keepUp_eq hcut] at hthis hall
    exact ih hfree' hlen' hthis hall
  | @fallBehind front passed rest out op ms hop _ ih =>
    have hfree' : measuring (q, b) ∉ front ++ (passed ++ [op]) := by
      rw [← List.append_assoc]
      simp only [List.mem_append, List.mem_singleton, not_or] at hfree ⊢
      exact ⟨hfree, (ne_measuring_of_skip hop).symm⟩
    have hlen' : (passed ++ [op]).length =
        (dropped ++ (passed ++ [op])).countP (uses q) := by
      rw [← List.append_assoc, List.countP_append, ← hlen]
      simp [uses_of_skip hop]
    rw [List.append_cons passed] at hthis hall
    exact ih hfree' hlen' hthis hall
  | @replace front passed rest out op g ms hop _ ih =>
    have hclear := clears_of_straight hop hp hlen hthis
    have hfront : measuring (q, b) ∉ front := fun hmem => hfree (List.mem_append_left _ hmem)
    have hgate : measuring (q, b) ≠ .gate g := nofun
    have hfree' : measuring (q, b) ∉ front ++ [.gate g] ++ [] := by
      simp [hfront, hgate]
    have hthis' : Straight measured p q b ([] ++ ([] ++ (passed ++ rest))) :=
      hthis.mono (by simp)
    have hall' : AllStraight measured p (front ++ [.gate g] ++ ([] ++ (passed ++ rest))) := by
      have := hall.hoist hop hm hp hclear hfront
      simpa using this
    obtain ⟨hms, hout⟩ := ih hfree' rfl hthis' hall'
    refine ⟨?_, hout⟩
    intro m hmem
    rcases List.mem_cons.1 hmem with rfl | hlater
    · exact hclear
    · exact hms m hlater

end scan

/-! ## The run -/

theorem Runs.clears {measured : Qubit → Clbit → Prop} {p : Qubit} {before rest : List Operation}
    {d : OrderedMap Qubit Clbit} {s : State} (h : Runs before rest d s)
    (hspare : Spares measured p (before ++ rest)) (hbefore : ∀ o ∈ before, o.isMeasure = false)
    (hall : AllStraight measured p (before ++ rest)) :
    ∀ m ∈ movesFrom before.length (before ++ rest), m.Clears p := by
  induction h with
  | finish before d =>
    rw [movesFrom_nil]
    exact nofun
  | @pass before rest op d s hop _ ih =>
    rw [List.append_cons] at hspare hall
    rw [movesFrom_pass hop]
    apply ih hspare ?_ hall
    intro o ho
    rcases List.mem_append.1 ho with hold | hnew
    · exact hbefore o hold
    · rw [List.mem_singleton.1 hnew]
      exact isMeasure_of_measurement?_none hop
  | last hop =>
    rw [movesFrom_last hop]
    exact nofun
  | @defer before rest rest' op d s q b hop hrest hscan _ ih =>
    obtain ⟨hm, hpq⟩ := hspare.of_defer hop
    have hscans := scans_of_defer hscan
    have hfree : measuring (q, b) ∉ before ++ [] := by
      intro hmem
      rw [List.append_nil] at hmem
      exact Bool.noConfusion (hbefore _ hmem)
    have hthis : Straight measured p q b ([] ++ ([] ++ rest)) :=
      hall q b rest ⟨before, by rw [eq_measuring hop]⟩
    obtain ⟨hmoves, hout⟩ := hscans.clears hm hpq hfree rfl hthis (hall.mono (by simp))
    rw [movesFrom_defer hop hrest hscan]
    intro m hmem
    rcases List.mem_append.1 hmem with hnow | hlater
    · exact hmoves m hnow
    · exact ih (hspare.of_scans hscans) hbefore hout m hlater

end Deferral

/-- The circuit measures the qubit into the bit. -/
def Circuit.Measures (c : Circuit) (q : Qubit) (b : Clbit) : Prop :=
  Deferral.measuring (q, b) ∈ c.ops

namespace Deferral
open Operation

/-- The operations on a qubit that no measurement is of change their order by the moves
alone. They keep it if no gate on the qubit is moved over an operation on the qubit, and
this holds of every circuit that is straight on the qubit. -/
theorem order_deferMeasurements {c out : Circuit} {p : Qubit}
    (hdone : c.deferMeasurements = .done out)
    (hp : ∀ op ∈ c.ops, op.isMeasure = true → op.actsOn p = false) :
    Reorders c.Measures p c.deferralMoves (c.ops.filter (·.actsOn p))
        (out.ops.filter (·.actsOn p)) ∧
      ((∀ m ∈ c.deferralMoves, m.Clears p) →
        List.Forall₂ (Corresponds c.Measures) (c.ops.filter (·.actsOn p))
          (out.ops.filter (·.actsOn p))) ∧
      (AllStraight c.Measures p c.ops → ∀ m ∈ c.deferralMoves, m.Clears p) := by
  have hspare : Spares c.Measures p c.ops := by
    intro q b hmem
    refine ⟨hmem, ?_⟩
    have hoff := hp _ hmem rfl
    rintro rfl
    simp [measuring, actsOn] at hoff
  have hreorders := reorders_deferMeasurements hdone hspare
  refine ⟨hreorders, hreorders.forall₂, fun hall => ?_⟩
  obtain ⟨s, hruns, -⟩ := deferMeasurements_eq_done hdone
  exact hruns.clears hspare (fun _ ho => absurd ho List.not_mem_nil) hall

/-- A measured qubit is used again before a gate reads its bit. -/
def reuse : Circuit :=
  { Circuit.withSize "reuse" 3 1 with
    ops := [measuring (⟨0⟩, ⟨0⟩), .gate (.ofKind .z [⟨1⟩]), .gate (.ofKind .h [⟨0⟩]),
      .gate (.ofKind .h [⟨2⟩]), .conditional ⟨.single ⟨0⟩, 1⟩ (.gate (.ofKind .x [⟨1⟩]))] }

theorem allStraight_reuse : AllStraight reuse.Measures ⟨1⟩ reuse.ops := by
  intro q b later hsuffix
  have hlater : (q = ⟨0⟩ ∧ b = ⟨0⟩) ∧ later = reuse.ops.tail := by
    simpa [reuse, List.suffix_cons_iff, measuring] using hsuffix
  obtain ⟨⟨rfl, rfl⟩, rfl⟩ := hlater
  refine ⟨?_, ?_, ?_⟩
  · intro u o x hsub hu ho
    simp [reuse, List.sublist_cons_iff] at hsub
    rcases hsub with ⟨-, rfl, -⟩ | ⟨rfl, -⟩
    · exact absurd ho (by decide)
    · exact absurd hu (by decide)
  · intro u x hsub hu hup
    simp [reuse, List.sublist_cons_iff] at hsub
    rcases hsub with (⟨rfl, -⟩ | ⟨rfl, -⟩) | ⟨rfl, -⟩
    · exact absurd hu (by decide)
    · exact absurd hup (by decide)
    · exact absurd hu (by decide)
  · intro o x y _ _ _ hy hmay
    obtain ⟨cond, body, rfl, hmay⟩ := hmay
    simp [reuse] at hy
    obtain ⟨rfl, rfl⟩ := hy
    rcases hmay with hacts | ⟨hstart, -⟩
    · exact absurd hacts (by decide)
    · exact hstart rfl

theorem order_deferMeasurements_reuse :
    ∃ out, reuse.deferMeasurements = .done out ∧
      out.ops = [.gate (.ofKind .z [⟨1⟩]), .gate (.ofKind .h [⟨0⟩]),
        .gate (.controlled .x [.pos ⟨0⟩] [⟨1⟩]), .gate (.ofKind .h [⟨2⟩]),
        measuring (⟨0⟩, ⟨0⟩)] ∧
      (∀ m ∈ reuse.deferralMoves, m.Clears ⟨1⟩) ∧
      List.Forall₂ (Corresponds reuse.Measures) (reuse.ops.filter (·.actsOn ⟨1⟩))
        (out.ops.filter (·.actsOn ⟨1⟩)) := by
  have hp : ∀ op ∈ reuse.ops, op.isMeasure = true → op.actsOn ⟨1⟩ = false := by
    decide
  refine ⟨_, by cbv, by cbv, ?_⟩
  have horder := order_deferMeasurements (c := reuse) (by cbv) hp
  have hclear := horder.2.2 allStraight_reuse
  exact ⟨hclear, horder.2.1 hclear⟩

/-- The measured qubit is used again before another gate on the target. -/
def overtaking : Circuit :=
  { Circuit.withSize "overtaking" 2 1 with
    ops := [measuring (⟨0⟩, ⟨0⟩), .gate (.ofKind .h [⟨0⟩]), .gate (.ofKind .z [⟨1⟩]),
      .conditional ⟨.single ⟨0⟩, 1⟩ (.gate (.ofKind .x [⟨1⟩]))] }

/-- Without such a condition a rewired gate can overtake an operation on its own target. -/
theorem deferMeasurements_overtakes :
    ∃ out, overtaking.deferMeasurements = .done out ∧
      out.ops.filter (·.actsOn ⟨1⟩) =
        [.gate (.controlled .x [.pos ⟨0⟩] [⟨1⟩]), .gate (.ofKind .z [⟨1⟩])] ∧
      ¬ List.Forall₂ (Corresponds overtaking.Measures) (overtaking.ops.filter (·.actsOn ⟨1⟩))
        (out.ops.filter (·.actsOn ⟨1⟩)) := by
  refine ⟨_, by cbv, by cbv, ?_⟩
  intro hsame
  have hfirst : Corresponds overtaking.Measures (.gate (.ofKind .z [⟨1⟩]))
      (.gate (.controlled .x [.pos ⟨0⟩] [⟨1⟩])) := by
    cases hsame with
    | cons hfirst _ => exact hfirst
  rcases hfirst with heq | ⟨_, _, _, _, _, _, hcond, _⟩
  · cases heq
  · cases hcond

end Deferral
end QuantumCircuit
