import QuantumCircuit.Measurement.Reset
import QuantumCircuit.Proofs.Words

/-! What the elimination of resets leaves of a circuit. Fresh qubits are numbered upwards
from the first one that is free. While the words last none of them is refused; past the last
word numbers come up again, and one that is in the initial layout ends the elimination. The
leaves stay in order, without the resets, each under the renaming that the resets in front
of it have built up. -/
namespace QuantumCircuit

namespace Outcome
variable {σ τ : Type}

theorem forEach_append {α : Type} (step : α → σ → Except PassError σ) (as bs : List α) (s : σ) :
    forEach step (as ++ bs) s = (forEach step as s).andThen (forEach step bs) := by
  induction as generalizing s with
  | nil => rfl
  | cons a rest ih =>
    rw [List.cons_append, forEach, forEach]
    cases step a s with
    | ok s' => exact ih s'
    | error e => rfl

theorem map_eq_done {f : σ → τ} {o : Outcome σ} {t : τ} :
    o.map f = .done t ↔ ∃ s, o = .done s ∧ f s = t := by
  cases o <;> simp [map]

theorem map_eq_failed {f : σ → τ} {o : Outcome σ} {e : PassError} {t : τ} :
    o.map f = .failed e t ↔ ∃ s, o = .failed e s ∧ f s = t := by
  cases o <;> simp [map]

end Outcome

namespace Operation

/-- The qubits that the resets of a list clear, in order and with repetitions. -/
def resetTargets (ops : List Operation) : List Qubit := (ops.filter (·.isReset)).flatMap targets

@[simp] theorem resetTargets_append (as bs : List Operation) :
    resetTargets (as ++ bs) = resetTargets as ++ resetTargets bs := by
  simp [resetTargets]

theorem resetTargets_cons_of_isReset {op : Operation} (h : op.isReset = true)
    (rest : List Operation) : resetTargets (op :: rest) = op.targets ++ resetTargets rest := by
  rw [resetTargets, List.filter_cons_of_pos h]
  rfl

theorem resetTargets_cons_of_not_isReset {op : Operation} (h : op.isReset = false)
    (rest : List Operation) : resetTargets (op :: rest) = resetTargets rest := by
  rw [resetTargets, List.filter_cons_of_neg (by simp [h])]
  rfl

end Operation

namespace Renaming
open Operation

/-! ## Fresh qubits -/

/-- The renaming after a reset of one qubit. -/
def renew (r : Renaming) (q : Qubit) : Renaming where
  circuit := { r.circuit with
    initial := r.circuit.initial.insert ⟨r.next⟩ ⟨r.next⟩
    output := r.circuit.output.insert ⟨r.next⟩ ⟨r.next⟩
    numQubits := wordAdd r.circuit.numQubits 1 }
  standIn := r.standIn.insert q ⟨r.next⟩
  next := wordAdd r.next 1

def renewAll (r : Renaming) (qs : List Qubit) : Renaming := qs.foldl renew r

/-- The next fresh qubit is not in the initial layout. -/
def Free (r : Renaming) : Prop := r.circuit.initial.get? ⟨r.next⟩ = none

/-- No qubit from the next fresh one on is in the initial layout, and there are words for
the given number of them. -/
structure Ready (r : Renaming) (count : Nat) : Prop where
  free : ∀ q : Qubit, r.next ≤ q.index → r.circuit.initial.get? q = none
  words : r.next + count < wordBound

section fresh
variable {r : Renaming}

@[simp] theorem renewAll_nil (r : Renaming) : r.renewAll [] = r := rfl

@[simp] theorem renewAll_cons (r : Renaming) (q : Qubit) (qs : List Qubit) :
    r.renewAll (q :: qs) = (r.renew q).renewAll qs := rfl

@[simp] theorem renewAll_append (r : Renaming) (as bs : List Qubit) :
    r.renewAll (as ++ bs) = (r.renewAll as).renewAll bs :=
  List.foldl_append

theorem next_renew {count : Nat} (h : r.next + (count + 1) < wordBound) (q : Qubit) :
    (r.renew q).next = r.next + 1 :=
  wordAdd_of_lt (by omega)

theorem refresh_of_free (h : r.Free) (q : Qubit) : refresh q r = .ok (r.renew q) := by
  have hfree : r.circuit.initial.contains ⟨r.next⟩ = false := OrderedMap.contains_eq_false.2 h
  rw [refresh, Circuit.addQubit, hfree]
  rfl

theorem refresh_of_not_free (h : ¬ r.Free) (q : Qubit) :
    refresh q r = .error (.circuit (.duplicateQubit ⟨r.next⟩ none)) := by
  have htaken : r.circuit.initial.contains ⟨r.next⟩ = true := by
    by_contra hnot
    exact h (OrderedMap.contains_eq_false.1 (Bool.eq_false_of_not_eq_true hnot))
  rw [refresh, Circuit.addQubit, htaken]
  rfl

/-- The targets get fresh qubits one after the other, up to a qubit that is refused. -/
theorem forEach_refresh_cases (r : Renaming) (qs : List Qubit) :
    Outcome.forEach refresh qs r = .done (r.renewAll qs) ∨
      ∃ front q back, qs = front ++ q :: back ∧ ¬ (r.renewAll front).Free ∧
        Outcome.forEach refresh qs r =
          .failed (.circuit (.duplicateQubit ⟨(r.renewAll front).next⟩ none))
            (r.renewAll front) := by
  induction qs generalizing r with
  | nil => exact .inl rfl
  | cons q rest ih =>
    rw [Outcome.forEach]
    by_cases hfree : r.Free
    · rw [refresh_of_free hfree]
      refine (ih (r.renew q)).imp id ?_
      rintro ⟨front, q', back, rfl, hnot, hfailed⟩
      exact ⟨q :: front, q', back, rfl, hnot, hfailed⟩
    · rw [refresh_of_not_free hfree]
      exact .inr ⟨[], q, rest, rfl, hfree, rfl⟩

theorem ops_renewAll (r : Renaming) (qs : List Qubit) :
    (r.renewAll qs).circuit.ops = r.circuit.ops := by
  induction qs generalizing r with
  | nil => rfl
  | cons q rest ih => exact ih (r.renew q)

theorem next_renewAll (h : r.next < wordBound) (qs : List Qubit) :
    (r.renewAll qs).next = wordAdd r.next qs.length := by
  induction qs generalizing r with
  | nil => exact (Nat.mod_eq_of_lt h).symm
  | cons q rest ih =>
    rw [renewAll_cons, ih (wordAdd_lt _ _), List.length_cons, Nat.add_comm, ← wordAdd_wordAdd]
    rfl

theorem next_renewAll_of_lt {qs : List Qubit} (h : r.next + qs.length < wordBound) :
    (r.renewAll qs).next = r.next + qs.length := by
  rw [next_renewAll (Nat.lt_of_le_of_lt (Nat.le_add_right _ _) h), wordAdd_of_lt h]

theorem numQubits_renewAll (h : r.circuit.numQubits < wordBound) (qs : List Qubit) :
    (r.renewAll qs).circuit.numQubits = wordAdd r.circuit.numQubits qs.length := by
  induction qs generalizing r with
  | nil => exact (Nat.mod_eq_of_lt h).symm
  | cons q rest ih =>
    rw [renewAll_cons, ih (wordAdd_lt _ _), List.length_cons, Nat.add_comm, ← wordAdd_wordAdd]
    rfl

theorem numQubits_renewAll_of_lt {qs : List Qubit}
    (h : r.circuit.numQubits + qs.length < wordBound) :
    (r.renewAll qs).circuit.numQubits = r.circuit.numQubits + qs.length := by
  rw [numQubits_renewAll (Nat.lt_of_le_of_lt (Nat.le_add_right _ _) h), wordAdd_of_lt h]

theorem isSome_renewAll {p : Qubit} (h : (r.circuit.initial.get? p).isSome) (qs : List Qubit) :
    ((r.renewAll qs).circuit.initial.get? p).isSome := by
  induction qs generalizing r with
  | nil => exact h
  | cons q rest ih =>
    refine ih ?_
    rw [renew, OrderedMap.get?_insert]
    split
    · rfl
    · exact h

/-- The first fresh qubit is in the initial layout from then on. -/
theorem isSome_next_renewAll (r : Renaming) {qs : List Qubit} (h : qs ≠ []) :
    ((r.renewAll qs).circuit.initial.get? ⟨r.next⟩).isSome := by
  obtain ⟨q, rest, rfl⟩ := List.exists_cons_of_ne_nil h
  refine isSome_renewAll ?_ rest
  rw [renew, OrderedMap.get?_insert, if_pos rfl]
  rfl

theorem free_of_forEach {r' : Renaming} {front back : List Qubit} {q : Qubit}
    (h : Outcome.forEach refresh (front ++ q :: back) r = .done r') : (r.renewAll front).Free := by
  rw [Outcome.forEach_append] at h
  rcases r.forEach_refresh_cases front with hdone | ⟨_, _, _, -, -, hfailed⟩
  · rw [hdone] at h
    by_contra hnot
    have hstep : Outcome.forEach refresh (q :: back) (r.renewAll front) = .done r' := h
    rw [Outcome.forEach, refresh_of_not_free hnot] at hstep
    cases hstep
  · rw [hfailed] at h
    cases h

/-- After as many fresh qubits as there are words the first number would come up again, so
there are never more. -/
theorem length_le_of_forEach {r' : Renaming} {qs : List Qubit}
    (h : Outcome.forEach refresh qs r = .done r') (hnext : r.next < wordBound) :
    qs.length ≤ wordBound := by
  by_contra hlong
  have hlt : wordBound < qs.length := Nat.lt_of_not_le hlong
  have htaken : (qs.take wordBound).length = wordBound := List.length_take_of_le (Nat.le_of_lt hlt)
  rw [← List.take_append_drop wordBound qs, List.drop_eq_getElem_cons hlt] at h
  have hfree := free_of_forEach h
  have hback : (r.renewAll (qs.take wordBound)).next = r.next := by
    rw [next_renewAll hnext, htaken, wordAdd, Nat.add_mod_right, Nat.mod_eq_of_lt hnext]
  have hne : qs.take wordBound ≠ [] := by
    intro hnil
    rw [hnil] at htaken
    cases htaken
  have hsome := r.isSome_next_renewAll hne
  rw [Free, hback] at hfree
  rw [hfree] at hsome
  cases hsome

theorem eq_renewAll_of_forEach {r' : Renaming} {qs : List Qubit}
    (h : Outcome.forEach refresh qs r = .done r') : r' = r.renewAll qs := by
  rcases r.forEach_refresh_cases qs with hdone | ⟨_, _, _, -, -, hfailed⟩
  · exact (Outcome.done.inj (hdone.symm.trans h)).symm
  · rw [hfailed] at h
    cases h

theorem Ready.renew {count : Nat} (h : r.Ready (count + 1)) (q : Qubit) :
    (r.renew q).Ready count := by
  have hnext := next_renew h.words q
  refine ⟨fun p hp => ?_, by have := h.words; omega⟩
  have hne : p ≠ ⟨r.next⟩ := by
    rintro rfl
    dsimp only at hp
    omega
  rw [Renaming.renew, OrderedMap.get?_insert, if_neg hne]
  exact h.free p (by omega)

/-- While the words last every target gets a fresh qubit. -/
theorem forEach_refresh {qs : List Qubit} (h : r.Ready qs.length) :
    Outcome.forEach refresh qs r = .done (r.renewAll qs) := by
  induction qs generalizing r with
  | nil => rfl
  | cons q rest ih =>
    rw [Outcome.forEach, refresh_of_free (h.free _ (Nat.le_refl _))]
    exact ih (h.renew q)

end fresh

/-! ## The leaves -/

/-- The leaves without the resets, each renamed. -/
def relabelLeaves (r : Renaming) : List Operation → List Operation
  | [] => []
  | op :: rest =>
    if op.isReset then relabelLeaves (r.renewAll op.targets) rest
    else op.mapQubits r.apply :: relabelLeaves r rest

theorem relabelLeaves_cons_of_isReset (r : Renaming) {op : Operation} (h : op.isReset = true)
    (rest : List Operation) :
    r.relabelLeaves (op :: rest) = (r.renewAll op.targets).relabelLeaves rest :=
  if_pos h

theorem relabelLeaves_cons_of_not_isReset (r : Renaming) {op : Operation} (h : op.isReset = false)
    (rest : List Operation) :
    r.relabelLeaves (op :: rest) = op.mapQubits r.apply :: r.relabelLeaves rest :=
  if_neg (by simp [h])

theorem relabelLeaves_append (r : Renaming) (as bs : List Operation) :
    r.relabelLeaves (as ++ bs) =
      r.relabelLeaves as ++ (r.renewAll (resetTargets as)).relabelLeaves bs := by
  induction as generalizing r with
  | nil => rfl
  | cons op rest ih =>
    rw [List.cons_append]
    cases h : op.isReset with
    | true =>
      rw [relabelLeaves_cons_of_isReset r h, relabelLeaves_cons_of_isReset r h, ih,
        resetTargets_cons_of_isReset h, renewAll_append]
    | false =>
      rw [relabelLeaves_cons_of_not_isReset r h, relabelLeaves_cons_of_not_isReset r h, ih,
        resetTargets_cons_of_not_isReset h, List.cons_append]

-- Over a list the two statements follow from those for each operation in it.
theorem map_relabelAll_of {ops : List Operation}
    (h : ∀ op ∈ ops, ∀ r : Renaming,
      (relabel op r).map Prod.fst = Outcome.forEach refresh (resetTargets op.leaves) r)
    (r : Renaming) :
    (relabelAll ops r).map Prod.fst =
      Outcome.forEach refresh (resetTargets (leavesOfAll ops)) r := by
  induction ops generalizing r with
  | nil => rfl
  | cons op rest ih =>
    rw [leavesOfAll_cons, resetTargets_append, Outcome.forEach_append,
      ← h op List.mem_cons_self r, relabelAll]
    cases relabel op r with
    | failed cause s => rfl
    | done s =>
      refine Eq.trans ?_ (ih (fun o ho => h o (List.mem_cons_of_mem _ ho)) s.1)
      dsimp only
      cases relabelAll rest s.1 <;> rfl

/-- Relabelling gives out fresh qubits to the targets of all resets in order, and stops when
one is refused. -/
theorem map_relabel (op : Operation) (r : Renaming) :
    (relabel op r).map Prod.fst = Outcome.forEach refresh (resetTargets op.leaves) r := by
  induction op using inductionOn generalizing r with
  | gate g => rfl
  | conditional cond body _ => rfl
  | effect e =>
    have hleaves : (Operation.effect e).leaves = [.effect e] := rfl
    rw [relabel, hleaves]
    by_cases hkind : e.kind = .reset
    · have hreset : (Operation.effect e).isReset = true := by simpa [isReset] using hkind
      rw [if_pos hkind, resetTargets_cons_of_isReset hreset]
      show _ = Outcome.forEach refresh (e.targets ++ []) r
      rw [List.append_nil]
      cases Outcome.forEach refresh e.targets r <;> rfl
    · have hreset : (Operation.effect e).isReset = false := by simpa [isReset] using hkind
      rw [if_neg hkind, resetTargets_cons_of_not_isReset hreset]
      rfl
  | compound children ih =>
    rw [leaves_compound, ← map_relabelAll_of ih r, relabel]
    cases relabelAll children r with
    | failed cause s => rfl
    | done s =>
      obtain ⟨r', ops⟩ := s
      cases ops <;> rfl

theorem map_relabelAll (ops : List Operation) (r : Renaming) :
    (relabelAll ops r).map Prod.fst =
      Outcome.forEach refresh (resetTargets (leavesOfAll ops)) r :=
  map_relabelAll_of (fun op _ => map_relabel op) r

theorem leavesOfAll_relabelAll_of {ops : List Operation}
    (h : ∀ op ∈ ops, ∀ {r r' : Renaming} {op?}, relabel op r = .done (r', op?) →
      leavesOfAll op?.toList = r.relabelLeaves op.leaves)
    {r r' : Renaming} {out : List Operation} (hrun : relabelAll ops r = .done (r', out)) :
    leavesOfAll out = r.relabelLeaves (leavesOfAll ops) := by
  induction ops generalizing r out with
  | nil =>
    cases hrun
    rfl
  | cons op rest ih =>
    rw [relabelAll] at hrun
    split at hrun
    · cases hrun
    · next r₁ op? hop =>
      obtain ⟨⟨r₂, kept⟩, hrest, heq⟩ := Outcome.map_eq_done.1 hrun
      cases heq
      have hnext : r₁ = r.renewAll (resetTargets op.leaves) :=
        eq_renewAll_of_forEach (by rw [← map_relabel, hop]; rfl)
      rw [leavesOfAll_append, h op List.mem_cons_self hop,
        ih (fun o ho => h o (List.mem_cons_of_mem _ ho)) hrest, hnext, leavesOfAll_cons,
        relabelLeaves_append]

/-- What is left of the leaves. -/
theorem leavesOfAll_relabel {op : Operation} {r r' : Renaming} {op? : Option Operation}
    (h : relabel op r = .done (r', op?)) : leavesOfAll op?.toList = r.relabelLeaves op.leaves := by
  induction op using inductionOn generalizing r r' op? with
  | gate g =>
    cases h
    rfl
  | conditional cond body _ =>
    cases h
    rfl
  | effect e =>
    have hleaves : (Operation.effect e).leaves = [.effect e] := rfl
    rw [relabel] at h
    split at h
    · next hkind =>
      have hreset : (Operation.effect e).isReset = true := by simpa [isReset] using hkind
      obtain ⟨s, -, heq⟩ := Outcome.map_eq_done.1 h
      cases heq
      rw [hleaves, relabelLeaves_cons_of_isReset r hreset]
      rfl
    · next hkind =>
      have hreset : (Operation.effect e).isReset = false := by simpa [isReset] using hkind
      cases h
      rw [hleaves, relabelLeaves_cons_of_not_isReset r hreset]
      rfl
  | compound children ih =>
    rw [relabel] at h
    rw [leaves_compound]
    split at h
    · cases h
    · next hrun =>
      cases h
      exact leavesOfAll_relabelAll_of (fun c hc => ih c hc) hrun
    · next hrun =>
      cases h
      rw [← leavesOfAll_relabelAll_of (fun c hc => ih c hc) hrun]
      simp

theorem leavesOfAll_relabelAll {ops out : List Operation} {r r' : Renaming}
    (h : relabelAll ops r = .done (r', out)) :
    leavesOfAll out = r.relabelLeaves (leavesOfAll ops) :=
  leavesOfAll_relabelAll_of (fun _ _ => leavesOfAll_relabel) h

-- An operation that is no compound is kept as one that is none, or dropped.
theorem isCompound_of_relabel {op o : Operation} {r r' : Renaming}
    (h : relabel op r = .done (r', some o)) (hop : op.isCompound = false) :
    o.isCompound = false := by
  cases op with
  | compound children => cases hop
  | gate g =>
    cases h
    rfl
  | conditional cond body =>
    cases h
    rfl
  | effect e =>
    rw [relabel] at h
    split at h
    · obtain ⟨s, -, heq⟩ := Outcome.map_eq_done.1 h
      cases heq
    · cases h
      rfl

theorem isCompound_of_relabelAll {ops out : List Operation} {r r' : Renaming}
    (h : relabelAll ops r = .done (r', out)) (hops : ∀ op ∈ ops, op.isCompound = false) :
    ∀ o ∈ out, o.isCompound = false := by
  induction ops generalizing r out with
  | nil =>
    cases h
    simp
  | cons op rest ih =>
    rw [relabelAll] at h
    split at h
    · cases h
    · next r₁ op? hop =>
      obtain ⟨⟨r₂, kept⟩, hrest, heq⟩ := Outcome.map_eq_done.1 h
      cases heq
      intro o ho
      rcases List.mem_append.1 ho with ho | ho
      · rw [Option.mem_toList.1 ho] at hop
        exact isCompound_of_relabel hop (hops op List.mem_cons_self)
      · exact ih hrest (fun op hop => hops op (List.mem_cons_of_mem _ hop)) o ho

end Renaming

/-! ## The first free qubit -/

namespace Circuit

/-- The optional qubit is there and is at least `q`. -/
def AtLeast (q : Qubit) (top : Option Qubit) : Prop := ∃ m, top = some m ∧ q.index ≤ m.index

@[simp] theorem atLeast_none {q : Qubit} : ¬ AtLeast q none := by
  rintro ⟨m, hm, -⟩
  cases hm

@[simp] theorem atLeast_some {q m : Qubit} : AtLeast q (some m) ↔ q.index ≤ m.index := by
  simp [AtLeast]

theorem eq_of_atLeast_iff {a b : Option Qubit} (h : ∀ q, AtLeast q a ↔ AtLeast q b) : a = b := by
  cases a with
  | none =>
    cases b with
    | none => rfl
    | some y => exact absurd ((h y).2 (atLeast_some.2 (Nat.le_refl _))) atLeast_none
  | some x =>
    have hx := (h x).1 (atLeast_some.2 (Nat.le_refl _))
    cases b with
    | none => exact absurd hx atLeast_none
    | some y =>
      have hy := (h y).2 (atLeast_some.2 (Nat.le_refl _))
      rw [atLeast_some] at hx hy
      have hxy : x = y := Ranked.rank_injective (Nat.le_antisymm hx hy)
      rw [hxy]

theorem atLeast_maxQubit? {q : Qubit} {a b : Option Qubit} :
    AtLeast q (maxQubit? a b) ↔ AtLeast q a ∨ AtLeast q b := by
  cases a with
  | none => cases b <;> simp [maxQubit?]
  | some x =>
    cases b with
    | none => simp [maxQubit?]
    | some y =>
      rw [maxQubit?]
      split
      · simp only [atLeast_some]
        omega
      · simp only [atLeast_some]
        omega

theorem atLeast_foldl_maxQubit? {q : Qubit} {l : List (Option Qubit)} {top : Option Qubit} :
    AtLeast q (l.foldl maxQubit? top) ↔ AtLeast q top ∨ ∃ a ∈ l, AtLeast q a := by
  induction l generalizing top with
  | nil => simp
  | cons a rest ih => simp [ih, atLeast_maxQubit?, or_assoc]

theorem atLeast_maxKey? {q : Qubit} {layout : Layout} :
    AtLeast q layout.maxKey? ↔ ∃ p, (layout.get? p).isSome ∧ q.index ≤ p.index := by
  constructor
  · rintro ⟨top, htop, hle⟩
    exact ⟨top, OrderedMap.mem_keys.1 (List.mem_of_getLast? htop), hle⟩
  · rintro ⟨p, hp, hle⟩
    obtain ⟨top, htop, hpt⟩ := OrderedMap.le_maxKey? hp
    exact ⟨top, htop, Nat.le_trans hle hpt⟩

theorem atLeast_max? {q : Qubit} {op : Operation} :
    AtLeast q op.qubits.max? ↔ ∃ p, op.actsOn p = true ∧ q.index ≤ p.index := by
  constructor
  · rintro ⟨top, htop, hle⟩
    exact ⟨top, Operation.mem_qubits.1 (List.mem_of_getLast? htop), hle⟩
  · rintro ⟨p, hp, hle⟩
    obtain ⟨top, htop, hpt⟩ := OrderedSet.le_max? (Operation.mem_qubits.2 hp)
    exact ⟨top, htop, Nat.le_trans hle hpt⟩

theorem atLeast_maxPhysical? {c : Circuit} {q : Qubit} :
    AtLeast q c.maxPhysical? ↔ q.index < c.numQubits ∨
      (∃ p, (c.initial.get? p).isSome ∧ q.index ≤ p.index) ∨
        ∃ op ∈ c.ops, ∃ p, op.actsOn p = true ∧ q.index ≤ p.index := by
  have hcount : AtLeast q (if c.numQubits = 0 then none else some ⟨c.numQubits - 1⟩) ↔
      q.index < c.numQubits := by
    split
    · next h => simp [h]
    · rw [atLeast_some]
      dsimp only
      omega
  rw [maxPhysical?, atLeast_foldl_maxQubit?, atLeast_maxQubit?, atLeast_maxKey?, hcount]
  simp only [List.mem_map, exists_exists_and_eq_and, atLeast_max?]
  rw [or_comm (a := ∃ p, _), or_assoc]

/-- The number above all qubits that are in use or counted; it need not be a word. -/
def ceiling (c : Circuit) : Nat :=
  max (match c.maxPhysical? with | some q => q.index + 1 | none => 0) c.numQubits

/-- The ceiling is above the count, the initial layout and the operations, and no higher
than that. -/
theorem lt_ceiling_iff {c : Circuit} {q : Qubit} :
    q.index < c.ceiling ↔ q.index < c.numQubits ∨
      (∃ p, (c.initial.get? p).isSome ∧ q.index ≤ p.index) ∨
        ∃ op ∈ c.ops, ∃ p, op.actsOn p = true ∧ q.index ≤ p.index := by
  have hceiling : q.index < c.ceiling ↔ AtLeast q c.maxPhysical? ∨ q.index < c.numQubits := by
    rw [ceiling]
    cases c.maxPhysical? with
    | none => simp
    | some m =>
      rw [atLeast_some]
      dsimp only
      omega
  rw [hceiling, or_iff_left_of_imp, atLeast_maxPhysical?]
  intro hlt
  exact atLeast_maxPhysical?.2 (.inl hlt)

theorem lt_ceiling_of_initial {c : Circuit} {q : Qubit} (h : (c.initial.get? q).isSome) :
    q.index < c.ceiling :=
  lt_ceiling_iff.2 (.inr (.inl ⟨q, h, Nat.le_refl _⟩))

theorem numQubits_le_ceiling (c : Circuit) : c.numQubits ≤ c.ceiling := Nat.le_max_right _ _

/-- Below the last word the first free qubit is the one at the ceiling. -/
theorem firstFree_eq_ceiling {c : Circuit} (h : c.ceiling < wordBound) :
    c.firstFree = c.ceiling := by
  rw [ceiling] at h
  rw [firstFree, ceiling]
  cases hmax : c.maxPhysical? with
  | none => rfl
  | some m =>
    rw [hmax] at h
    dsimp only at h ⊢
    rw [wordAdd_of_lt (by omega)]

/-! ## The circuit without resets -/

/-- The renaming at the start. -/
def unrenamed (c : Circuit) : Renaming := { circuit := { c with ops := [] }, next := c.firstFree }

/-- The qubits that the circuit resets. -/
def resetTargets (c : Circuit) : List Qubit := Operation.resetTargets (Operation.leavesOfAll c.ops)

/-- There are words above the ceiling for a fresh qubit for each target of a reset. -/
def HasRoom (c : Circuit) : Prop := c.ceiling + c.resetTargets.length < wordBound

/-- Fresh qubits for all targets of resets, up to one that is refused. -/
def freshened (c : Circuit) : Outcome Renaming :=
  Outcome.forEach Renaming.refresh c.resetTargets c.unrenamed

theorem HasRoom.next_unrenamed {c : Circuit} (h : c.HasRoom) : c.unrenamed.next = c.ceiling :=
  firstFree_eq_ceiling (Nat.lt_of_le_of_lt (Nat.le_add_right _ _) h)

theorem HasRoom.ready {c : Circuit} (h : c.HasRoom) :
    c.unrenamed.Ready c.resetTargets.length := by
  refine ⟨fun q hq => ?_, h.next_unrenamed.symm ▸ h⟩
  by_contra hsome
  have hlt := lt_ceiling_of_initial (c := c) (Option.isSome_iff_ne_none.2 hsome)
  rw [h.next_unrenamed] at hq
  omega

theorem HasRoom.freshened {c : Circuit} (h : c.HasRoom) :
    c.freshened = .done (c.unrenamed.renewAll c.resetTargets) :=
  Renaming.forEach_refresh h.ready

theorem ops_freshened (c : Circuit) : c.freshened.state.circuit.ops = [] := by
  rw [freshened]
  rcases c.unrenamed.forEach_refresh_cases c.resetTargets with
    hdone | ⟨front, _, _, -, -, hfailed⟩
  · rw [hdone]
    exact Renaming.ops_renewAll _ _
  · rw [hfailed]
    exact Renaming.ops_renewAll _ _

/-- With fresh qubits for all targets the elimination succeeds. -/
theorem eliminateResets_of_done {c : Circuit} {r : Renaming} (h : c.freshened = .done r) :
    ∃ ops, c.eliminateResets = .done { r.circuit with ops := ops } ∧
      Operation.leavesOfAll ops = c.unrenamed.relabelLeaves (Operation.leavesOfAll c.ops) ∧
      ((∀ op ∈ c.ops, op.isCompound = false) → ∀ op ∈ ops, op.isCompound = false) := by
  rw [freshened, resetTargets, ← Renaming.map_relabelAll] at h
  obtain ⟨⟨r', ops⟩, hrun, rfl⟩ := Outcome.map_eq_done.1 h
  refine ⟨ops, ?_, Renaming.leavesOfAll_relabelAll hrun, Renaming.isCompound_of_relabelAll hrun⟩
  rw [unrenamed] at hrun
  rw [eliminateResets, hrun]

/-- When a fresh qubit is refused, the operations are gone. -/
theorem eliminateResets_of_failed {c : Circuit} {cause : PassError} {r : Renaming}
    (h : c.freshened = .failed cause r) : c.eliminateResets = .failed cause r.circuit := by
  rw [freshened, resetTargets, ← Renaming.map_relabelAll] at h
  obtain ⟨⟨r', ops⟩, hrun, rfl⟩ := Outcome.map_eq_failed.1 h
  rw [unrenamed] at hrun
  rw [eliminateResets, hrun]

/-- Without compounds the operations that are left are leaves as well. -/
theorem eliminateResets_of_flat {c : Circuit} {r : Renaming} (hdone : c.freshened = .done r)
    (h : ∀ op ∈ c.ops, op.isCompound = false) :
    c.eliminateResets = .done { r.circuit with ops := c.unrenamed.relabelLeaves c.ops } := by
  obtain ⟨ops, hrun, hleaves, hflat⟩ := eliminateResets_of_done hdone
  rw [Operation.leavesOfAll_eq_self (hflat h), Operation.leavesOfAll_eq_self h] at hleaves
  rw [hrun, hleaves]

/-- The circuit `c'` is left when the elimination of resets stops on `c`: for one target the
next fresh qubit is taken. The targets in front of it have their fresh qubits, and the
operations are gone. -/
def RunsOut (e : PassError) (c c' : Circuit) : Prop :=
  ∃ front q back, c.resetTargets = front ++ q :: back ∧ ¬ (c.unrenamed.renewAll front).Free ∧
    e = .circuit (.duplicateQubit ⟨(c.unrenamed.renewAll front).next⟩ none) ∧
    c' = (c.unrenamed.renewAll front).circuit

theorem runsOut_of_eliminateResets {e : PassError} {c c' : Circuit}
    (h : c.eliminateResets = .failed e c') : RunsOut e c c' := by
  rcases c.unrenamed.forEach_refresh_cases c.resetTargets with
    hdone | ⟨front, q, back, htargets, htaken, hfailed⟩
  · obtain ⟨ops, hrun, -⟩ := eliminateResets_of_done hdone
    rw [hrun] at h
    cases h
  · rw [eliminateResets_of_failed hfailed] at h
    cases h
    exact ⟨front, q, back, htargets, htaken, rfl, rfl⟩

/-- When the last word is in use, the count is taken as the first free qubit; if that qubit
is in the initial layout, the first reset is refused. -/
theorem eliminateResets_of_last_word {c : Circuit}
    (hmax : c.maxPhysical? = some ⟨wordBound - 1⟩)
    (htaken : (c.initial.get? ⟨c.numQubits⟩).isSome) (hreset : c.resetTargets ≠ []) :
    c.eliminateResets =
      .failed (.circuit (.duplicateQubit ⟨c.numQubits⟩ none)) { c with ops := [] } := by
  have hnext : c.unrenamed.next = c.numQubits := by
    show c.firstFree = c.numQubits
    rw [firstFree, hmax]
    exact Nat.zero_max _
  have hnot : ¬ c.unrenamed.Free := by
    rw [Renaming.Free, hnext]
    exact Option.isSome_iff_ne_none.1 htaken
  obtain ⟨q, rest, htargets⟩ := List.exists_cons_of_ne_nil hreset
  refine eliminateResets_of_failed (r := c.unrenamed) ?_
  rw [freshened, htargets, Outcome.forEach, Renaming.refresh_of_not_free hnot, hnext]

/-- Two counted qubits and two that were added: one with the number of the count and one
with the last word for its number. -/
def outOfWords : Circuit :=
  { Circuit.withSize "outOfWords" 2 0 with
    numQubits := 4
    initial := .ofList [(⟨0⟩, ⟨0⟩), (⟨1⟩, ⟨1⟩), (⟨4⟩, ⟨4⟩), (⟨4294967295⟩, ⟨4294967295⟩)]
    output := .ofList [(⟨0⟩, ⟨0⟩), (⟨1⟩, ⟨1⟩), (⟨4⟩, ⟨4⟩), (⟨4294967295⟩, ⟨4294967295⟩)]
    ops := [.gate (.ofKind .x [⟨1⟩]), .effect ⟨.reset, [⟨1⟩], []⟩, .gate (.ofKind .x [⟨1⟩])] }

/-- Qubit 5 is free, but qubit 4 is tried and refused. -/
theorem eliminateResets_outOfWords :
    outOfWords.eliminateResets =
      .failed (.circuit (.duplicateQubit ⟨4⟩ none)) { outOfWords with ops := [] } :=
  eliminateResets_of_last_word (by decide) (by decide) (by decide)

end Circuit
end QuantumCircuit
