import QuantumCircuit.Proofs.Deferral.Run

/-! The moves of a deferral. While a scan goes on, the operations that the place for
rewired gates has fallen behind form a queue: an operation that uses the measured
qubit makes the queue longer, any other one goes in at its end and lets its head out.
A rewired gate is put in front of the queue. -/
namespace QuantumCircuit
namespace Deferral
open Operation

/-- A rewired gate, and the operations it was put in front of. -/
structure Move where
  gate : Gate
  passed : List Operation
deriving Repr

/-- The moves of a scan that has the queue `passed` and still has to see `rest`. After
a move the operations of the queue are seen again. -/
def scanMoves (q : Qubit) (b : Clbit) (passed : List Operation) :
    List Operation → List Move
  | [] => []
  | op :: rest =>
    match h : inspect q b op with
    | .error _ => []
    | .ok .stop => []
    | .ok (.skip true) => scanMoves q b (passed ++ [op]).tail rest
    | .ok (.skip false) => scanMoves q b (passed ++ [op]) rest
    | .ok (.replace g) =>
      have := readsFrom_of_replace h
      ⟨g, passed⟩ :: scanMoves q b [] (passed ++ rest)
termination_by rest => ((passed ++ rest).countP (readsFrom b), rest.length)
decreasing_by
  · have hsub : ((passed ++ [op]).tail ++ rest).Sublist (passed ++ op :: rest) := by
      have := (List.tail_sublist (passed ++ [op])).append_right rest
      simpa using this
    have hle := hsub.countP_le (p := readsFrom b)
    rcases Nat.lt_or_eq_of_le hle with hlt | heq
    · exact Prod.Lex.left _ _ hlt
    · rw [heq]
      exact Prod.Lex.right _ (Nat.lt_succ_self _)
  · have heq : passed ++ [op] ++ rest = passed ++ op :: rest := by simp
    rw [heq]
    exact Prod.Lex.right _ (Nat.lt_succ_self _)
  · refine Prod.Lex.left _ _ ?_
    simp [List.countP_append, this]

/-- The moves of a deferral from position `i` on. -/
def movesFrom (i : Nat) (ops : List Operation) : List Move :=
  if hlt : i < ops.length then
    match measurement? ops[i] with
    | .error _ => []
    | .ok none => movesFrom (i + 1) ops
    | .ok (some (q, b)) =>
      if i + 1 = ops.length then []
      else
        scanMoves q b [] (ops.drop (i + 1)) ++
          movesFrom i (scan q b (ops.take i ++ ops.drop (i + 1)) i i).state
  else []
termination_by ops.length - i
decreasing_by
  · omega
  · have hlen := length_scan q b (ops.take i ++ ops.drop (i + 1)) i i
    simp only [List.length_append, List.length_take, List.length_drop] at hlen
    omega

end Deferral

/-- The moves of the whole deferral, in order. -/
def Circuit.deferralMoves (c : Circuit) : List Deferral.Move := Deferral.movesFrom 0 c.ops

namespace Deferral
open Operation

/-! ## A scan as a queue -/

/-- A scan with the operations in front of the queue, the queue, the operations still
to be seen, the moves that it makes and the list that it leaves. -/
inductive Scans (q : Qubit) (b : Clbit) :
    List Operation → List Operation → List Operation → List Move → List Operation → Prop where
  | finish (front passed : List Operation) : Scans q b front passed [] [] (front ++ passed)
  | stop {front passed rest : List Operation} {op : Operation} :
    inspect q b op = .ok .stop →
    Scans q b front passed (op :: rest) [] (front ++ (passed ++ op :: rest))
  | keepUp {front passed later rest out : List Operation} {first op : Operation} {ms : List Move} :
    inspect q b op = .ok (.skip true) → passed ++ [op] = first :: later →
    Scans q b (front ++ [first]) later rest ms out → Scans q b front passed (op :: rest) ms out
  | fallBehind {front passed rest out : List Operation} {op : Operation} {ms : List Move} :
    inspect q b op = .ok (.skip false) → Scans q b front (passed ++ [op]) rest ms out →
    Scans q b front passed (op :: rest) ms out
  | replace {front passed rest out : List Operation} {op : Operation} {g : Gate} {ms : List Move} :
    inspect q b op = .ok (.replace g) →
    Scans q b (front ++ [.gate g]) [] (passed ++ rest) ms out →
    Scans q b front passed (op :: rest) (⟨g, passed⟩ :: ms) out

/-- What a successful scan does to the list, with the moves that it makes. -/
theorem scans_of_scan {q : Qubit} {b : Clbit} {front passed rest out : List Operation}
    (h : scan q b (front ++ passed ++ rest) (front ++ passed).length front.length = .done out) :
    Scans q b front passed rest (scanMoves q b passed rest) out := by
  fun_induction scanMoves q b passed rest generalizing front with
  | case1 passed =>
    rw [List.append_nil, scan_end] at h
    cases h
    exact .finish front passed
  | case2 passed op rest e hop =>
    rw [scan_error hop] at h
    cases h
  | case3 passed op rest hop =>
    rw [scan_stop hop] at h
    cases h
    rw [List.append_assoc]
    exact .stop hop
  | case4 passed op rest hop ih =>
    obtain ⟨first, later, hcut⟩ : ∃ first later, passed ++ [op] = first :: later :=
      List.exists_cons_of_ne_nil (by simp)
    have hops : front ++ passed ++ op :: rest = front ++ [first] ++ later ++ rest := by
      rw [List.append_cons, List.append_assoc front, hcut]
      simp
    have hlen : (front ++ passed).length + 1 = (front ++ [first] ++ later).length := by
      have := congrArg List.length hcut
      simp only [List.length_append, List.length_cons, List.length_nil] at this ⊢
      omega
    have hfirst : front.length + 1 = (front ++ [first]).length := by simp
    rw [scan_skip hop, if_pos rfl, hlen, hfirst, hops] at h
    rw [hcut, List.tail_cons] at ih ⊢
    exact .keepUp hop hcut (ih h)
  | case5 passed op rest hop ih =>
    have hlen : (front ++ passed).length + 1 = (front ++ (passed ++ [op])).length := by
      simp [Nat.add_assoc]
    have hops : front ++ passed ++ op :: rest = front ++ (passed ++ [op]) ++ rest := by simp
    rw [scan_skip hop, if_neg Bool.false_ne_true, hlen, hops] at h
    exact .fallBehind hop (ih h)
  | case6 passed op rest g hop _ ih =>
    have hle : front.length ≤ (front ++ passed).length := by simp
    have hops : relocate (front ++ passed ++ op :: rest) (front ++ passed).length front.length
        (.gate g) = front ++ [.gate g] ++ [] ++ (passed ++ rest) := by
      rw [relocate_eq hle length_lt_append_cons, List.take_left' rfl, List.append_assoc front,
        List.take_left' rfl, List.drop_left' rfl, ← List.append_assoc, drop_append_cons]
      simp
    have hlen : front.length + 1 = (front ++ [Operation.gate g] ++ []).length := by simp
    have hfirst : front.length + 1 = (front ++ [Operation.gate g]).length := by simp
    rw [scan_replace hop, hops] at h
    exact .replace hop (ih (by rw [← hlen, ← hfirst]; exact h))

section queue
variable {q : Qubit} {b : Clbit} {front passed rest out : List Operation} {ms : List Move}

/-- The head of the queue goes over to the front. -/
theorem keepUp_eq {later : List Operation} {first op : Operation}
    (hcut : passed ++ [op] = first :: later) :
    front ++ (passed ++ op :: rest) = front ++ [first] ++ (later ++ rest) := by
  rw [List.append_cons passed, hcut]
  simp

/-- A scan leaves the measurements as they are, and in order. -/
theorem Scans.filter_isMeasure (h : Scans q b front passed rest ms out) :
    out.filter (·.isMeasure) = (front ++ (passed ++ rest)).filter (·.isMeasure) := by
  induction h with
  | finish front passed => rw [List.append_nil]
  | stop => rfl
  | @keepUp front passed later rest out first op ms _ hcut _ ih => rw [ih, keepUp_eq hcut]
  | @fallBehind front passed rest out op ms _ _ ih => rw [ih, List.append_cons passed op rest]
  | @replace front passed rest out op g ms hop _ ih =>
    have hgate : (Operation.gate g).isMeasure = false := rfl
    have hgone : op.isMeasure = false := by
      obtain ⟨cond, body, rfl, -⟩ := inspect_eq_replace hop
      rfl
    rw [ih]
    simp [hgate, hgone]

end queue

/-! ## The moves of a run -/

section movesFrom
variable {before rest : List Operation} {op : Operation} {q : Qubit} {b : Clbit}

theorem movesFrom_nil (before : List Operation) :
    movesFrom before.length (before ++ []) = [] := by
  rw [List.append_nil, movesFrom, dif_neg (Nat.lt_irrefl _)]

theorem movesFrom_pass (h : measurement? op = .ok none) :
    movesFrom before.length (before ++ op :: rest) =
      movesFrom (before ++ [op]).length (before ++ [op] ++ rest) := by
  rw [movesFrom, dif_pos length_lt_append_cons]
  simp [h]

theorem movesFrom_last (h : measurement? op = .ok (some (q, b))) :
    movesFrom before.length (before ++ [op]) = [] := by
  rw [movesFrom, dif_pos length_lt_append_cons]
  simp [h]

theorem movesFrom_defer {rest' : List Operation} (h : measurement? op = .ok (some (q, b)))
    (hrest : rest ≠ [])
    (hscan : scan q b (before ++ rest) before.length before.length = .done (before ++ rest')) :
    movesFrom before.length (before ++ op :: rest) =
      scanMoves q b [] rest ++ movesFrom before.length (before ++ rest') := by
  have htake : (before ++ op :: rest).take before.length = before := List.take_left' rfl
  have hlast : ¬ before.length + 1 = (before ++ op :: rest).length := by
    have := List.length_pos_iff.2 hrest
    simp
    omega
  rw [movesFrom, dif_pos length_lt_append_cons]
  simp only [getElem_append_length, h, if_neg hlast, drop_append_cons, htake, hscan, Outcome.state]

theorem scans_of_defer {rest' : List Operation}
    (hscan : scan q b (before ++ rest) before.length before.length = .done (before ++ rest')) :
    Scans q b before [] rest (scanMoves q b [] rest) (before ++ rest') :=
  scans_of_scan (by rw [List.append_nil]; exact hscan)

end movesFrom
end Deferral
end QuantumCircuit
