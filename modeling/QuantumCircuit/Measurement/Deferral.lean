import QuantumCircuit.Circuit.Builder
import QuantumCircuit.Pass.Outcome

/-! Measurements moved to the end of a circuit. After a measurement is taken
out, the operations behind it are scanned: a gate that is conditional on its bit
becomes a gate that is controlled by its qubit. The scan keeps a second index
at which such gates are put; it falls behind with each operation that acts on
the measured qubit. -/
namespace QuantumCircuit
namespace Deferral

/-- The qubit and the bit of a measurement, which must have one of each. -/
def measurement? (op : Operation) : Except PassError (Option (Qubit × Clbit)) :=
  if op.isMeasure then
    match op.targets, op.clbits with
    | [q], [b] => .ok (some (q, b))
    | qs, bs => .error (.measureShape qs.length bs.length)
  else .ok none

/-- The gate with a control on the measured qubit in place of its condition. -/
def rewire (q : Qubit) (cond : Condition) : Operation → Except PassError Gate
  | .gate g =>
    if q ∈ g.targets then .error (.implicitReset q)
    else
      let control := if cond.value = 1 then Control.pos q else Control.neg q
      .ok { g with controls := g.controls.insert control }
  | op => .error (.conditionOn op.kind)

/-- What the scan does at an operation. -/
inductive Action where
  /-- Goes on; says whether the place for rewired gates moves along. -/
  | skip (moves : Bool)
  /-- Ends, at another measurement of the same qubit into the same bit. -/
  | stop
  /-- Puts a gate in place of the operation. -/
  | replace (g : Gate)
deriving Repr

/-- Whether an operation is conditional on a register that starts at a bit. -/
def readsFrom (b : Clbit) : Operation → Bool
  | .conditional cond _ => cond.register.start = b
  | _ => false

def inspect (q : Qubit) (b : Clbit) (op : Operation) : Except PassError Action :=
  if op.isUnitary then .ok (.skip (!op.actsOn q))
  else if op.isReset then .error .resetAfterMeasure
  else if op.isMeasure then
    if op.targets = [q] ∧ op.clbits = [b] then .ok .stop else .ok (.skip true)
  else
    match op with
    | .conditional cond body =>
      if cond.register.size ≠ 1 then .error (.wideRegister cond.register.size)
      else if cond.register.start = b then
        match rewire q cond body with
        | .ok g => .ok (.replace g)
        | .error e => .error e
      else .ok (.skip (!op.actsOn q))
    | _ => .ok (.skip (!op.actsOn q))

theorem inspect_conditional (q : Qubit) (b : Clbit) (cond : Condition) (body : Operation) :
    inspect q b (.conditional cond body) =
      if cond.register.size ≠ 1 then .error (.wideRegister cond.register.size)
      else if cond.register.start = b then
        match rewire q cond body with
        | .ok g => .ok (.replace g)
        | .error e => .error e
      else .ok (.skip (!(Operation.conditional cond body).actsOn q)) :=
  rfl

/-- Takes out the operation at `i` and puts another one in at `j`. -/
def relocate (ops : List Operation) (i j : Nat) (op : Operation) : List Operation :=
  let rest := ops.take i ++ ops.drop (i + 1)
  rest.take j ++ op :: rest.drop j

theorem readsFrom_of_replace {q : Qubit} {b : Clbit} {op : Operation} {g : Gate}
    (h : inspect q b op = .ok (.replace g)) : readsFrom b op = true := by
  unfold inspect at h
  split at h
  · simp at h
  · split at h
    · simp at h
    · split at h
      · split at h <;> simp at h
      · split at h
        · split at h
          · simp at h
          · split at h
            · next hstart => simpa [readsFrom] using hstart
            · simp at h
        · simp at h

theorem length_relocate {ops : List Operation} {i : Nat} (hi : i < ops.length) (j : Nat)
    (op : Operation) : (relocate ops i j op).length = ops.length := by
  have hrest : (ops.take i ++ ops.drop (i + 1)).length = ops.length - 1 := by
    simp only [List.length_append, List.length_take, List.length_drop]
    omega
  have hsplit := congrArg List.length (List.take_append_drop j (ops.take i ++ ops.drop (i + 1)))
  rw [List.length_append] at hsplit
  simp only [relocate, List.length_append, List.length_cons]
  rw [List.length_append] at hrest hsplit
  omega

theorem countP_relocate_lt {p : Operation → Bool} {ops : List Operation} {i : Nat}
    (hi : i < ops.length) (hold : p ops[i] = true) (j : Nat) {op : Operation}
    (hnew : p op = false) : (relocate ops i j op).countP p < ops.countP p := by
  have hrest := congrArg (List.countP p)
    (List.take_append_drop j (ops.take i ++ ops.drop (i + 1)))
  have hops := congrArg (List.countP p) (List.take_append_drop i ops)
  rw [List.countP_append] at hrest
  rw [List.countP_append, List.drop_eq_getElem_cons hi, List.countP_cons, if_pos hold] at hops
  rw [relocate, List.countP_append, List.countP_cons, hnew]
  simp only [Bool.false_eq_true, ↓reduceIte, Nat.add_zero, hrest, List.countP_append]
  omega

/-- Scans from `cursor` on, putting rewired gates in at `insertion`. After that
the scan goes back to the place behind the gate. There is one operation less
then that reads the bit, so the scan comes to an end. -/
def scan (q : Qubit) (b : Clbit) (ops : List Operation) (cursor insertion : Nat) :
    Outcome (List Operation) :=
  if hlt : cursor < ops.length then
    match h : inspect q b ops[cursor] with
    | .error e => .failed e ops
    | .ok .stop => .done ops
    | .ok (.skip moves) =>
      scan q b ops (cursor + 1) (if moves then insertion + 1 else insertion)
    | .ok (.replace g) =>
      have := countP_relocate_lt hlt (readsFrom_of_replace h) insertion
        (show readsFrom b (.gate g) = false from rfl)
      scan q b (relocate ops cursor insertion (.gate g)) (insertion + 1) (insertion + 1)
  else .done ops
termination_by (ops.countP (readsFrom b), ops.length - cursor)

theorem length_scan (q : Qubit) (b : Clbit) (ops : List Operation) (cursor insertion : Nat) :
    (scan q b ops cursor insertion).state.length = ops.length := by
  fun_induction scan q b ops cursor insertion with
  | case1 => rfl
  | case2 => rfl
  | case3 _ _ _ _ _ _ ih => exact ih
  | case4 ops cursor insertion hlt g _ _ ih => rw [ih, length_relocate hlt]
  | case5 => rfl

/-- The operations and, for each measured qubit, the bit that is to receive it. -/
structure State where
  ops : List Operation
  deferred : OrderedMap Qubit Clbit := ∅
deriving Repr

/-- Defers the measurements from position `i` on. A measurement that is the last
operation stays where it is. -/
def deferFrom (i : Nat) (s : State) : Outcome State :=
  if hlt : i < s.ops.length then
    match measurement? s.ops[i] with
    | .error e => .failed e s
    | .ok none => deferFrom (i + 1) s
    | .ok (some (q, b)) =>
      if i + 1 = s.ops.length then .done s
      else
        let deferred := s.deferred.insert q b
        let scanned := scan q b (s.ops.take i ++ s.ops.drop (i + 1)) i i
        match scanned.error? with
        | some e => .failed e { ops := scanned.state, deferred }
        | none => deferFrom i { ops := scanned.state, deferred }
  else .done s
termination_by s.ops.length - i
decreasing_by
  · omega
  · have hlen := length_scan q b (s.ops.take i ++ s.ops.drop (i + 1)) i i
    simp only [List.length_append, List.length_take, List.length_drop] at hlen
    show (scan q b (s.ops.take i ++ s.ops.drop (i + 1)) i i).state.length - i < s.ops.length - i
    omega

/-- Puts a deferred measurement at the end. -/
def append (m : Qubit × Clbit) (c : Circuit) : Except PassError Circuit :=
  match c.measure m.1 m.2 with
  | .ok c => .ok c
  | .error e => .error (.circuit e)

end Deferral

/-- Moves every measurement to the end, by ascending qubit, and derives the
output layout from them. -/
def Circuit.deferMeasurements (c : Circuit) : Outcome Circuit :=
  match Deferral.deferFrom 0 { ops := c.ops } with
  | .failed e s => .failed e { c with ops := s.ops }
  | .done s =>
    if s.deferred.isEmpty then .done { c with ops := s.ops }
    else
      (Outcome.forEach Deferral.append s.deferred.entries
        { c with ops := s.ops, output := ∅ }).andThen fun c => .done c.fillLayouts

end QuantumCircuit
