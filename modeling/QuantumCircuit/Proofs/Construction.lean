import QuantumCircuit.Proofs.Placement
import QuantumCircuit.Proofs.Valid.Basic

/-! Circuits that are built call by call. A call that fails leaves the circuit as it was,
and one that succeeds declares qubits or bits or appends an operation that is admitted.
What has been declared at one time stays declared, so it can be read off the finished
circuit which qubits and bits its operations use, as long as their counts are words. -/
namespace QuantumCircuit

/-! ## What is admitted -/

namespace Operation

/-- The bits that an operation itself writes or reads. A compound has none of its own. -/
def namedBits : Operation → List Clbit
  | .effect e => e.clbits
  | .conditional cond _ => cond.register.bits
  | .gate _ | .compound _ => []

/-- Outside of compounds an operation that passes the check names the bits it touches. -/
theorem mem_namedBits {op : Operation} (hvalid : op.validate = .ok ())
    (hflat : op.isCompound = false) {b : Clbit} (hb : b ∈ op.bitsTouched) : b ∈ op.namedBits := by
  cases op with
  | compound children => cases hflat
  | gate g => exact absurd hb OrderedSet.not_mem_empty
  | effect e => exact OrderedSet.mem_ofList.1 hb
  | conditional cond body =>
    obtain ⟨g, rfl, -⟩ := validate_conditional_iff.1 hvalid
    rw [bitsTouched, OrderedSet.mem_union, OrderedSet.mem_ofList] at hb
    exact hb.resolve_right OrderedSet.not_mem_empty

end Operation

namespace Circuit
variable {c c' : Circuit} {op : Operation}

theorem declares_iff {q : Qubit} :
    c.declares q = true ↔ q.index < c.numQubits ∨ (c.initial.get? q).isSome := by
  simp [declares, OrderedMap.contains]

theorem undeclaredClbit?_eq_none_iff :
    c.undeclaredClbit? op = none ↔ ∀ b ∈ op.namedBits, b.index < c.numClbits := by
  cases op with
  | gate g => simp [undeclaredClbit?, Operation.clbits, Operation.namedBits]
  | compound children => simp [undeclaredClbit?, Operation.clbits, Operation.namedBits]
  | conditional cond body => exact Register.firstFrom?_eq_none_iff
  | effect e =>
    unfold undeclaredClbit?
    split
    · next b hfind =>
      have hmem := List.mem_of_find?_eq_some hfind
      have hle := List.find?_some hfind
      simp only [decide_eq_true_eq] at hle
      simp only [reduceCtorEq, false_iff]
      intro h
      exact Nat.not_lt.2 hle (h b hmem)
    · next hop => cases hop
    · next hfind _ => simpa [Operation.clbits, Operation.namedBits] using hfind

/-- The operation passes the check, acts on declared qubits and names declared bits. -/
structure Admits (c : Circuit) (op : Operation) : Prop where
  shape : op.validate = .ok ()
  qubits : ∀ q, op.actsOn q = true → c.declares q = true
  bits : ∀ b ∈ op.namedBits, b.index < c.numClbits

theorem checkOperands_eq_ok_iff :
    c.checkOperands op = .ok () ↔
      (∀ q, op.actsOn q = true → c.declares q = true) ∧
        ∀ b ∈ op.namedBits, b.index < c.numClbits := by
  rw [← undeclaredClbit?_eq_none_iff]
  constructor
  · intro h
    refine ⟨fun q hq => declares_of_checkOperands h hq, ?_⟩
    rw [checkOperands] at h
    split at h
    · cases h
    · split at h
      · cases h
      · next hnone => exact hnone
  · rintro ⟨hqubits, hbits⟩
    have hnone : op.qubits.toList.find? (!c.declares ·) = none := by
      rw [List.find?_eq_none]
      intro q hq
      simpa using hqubits q (Operation.mem_qubits.1 hq)
    rw [checkOperands, hnone]
    dsimp only
    rw [hbits]

/-- Appending succeeds exactly for what is admitted. -/
theorem push_eq_ok_iff :
    c.push op = .ok c' ↔ c.Admits op ∧ c' = { c with ops := c.ops ++ [op] } := by
  constructor
  · intro h
    obtain ⟨hvalid, hcheck, rfl⟩ := push_eq_ok h
    obtain ⟨hqubits, hbits⟩ := checkOperands_eq_ok_iff.1 hcheck
    exact ⟨⟨hvalid, hqubits, hbits⟩, rfl⟩
  · rintro ⟨h, rfl⟩
    rw [push, h.shape]
    dsimp only
    rw [checkOperands_eq_ok_iff.2 ⟨h.qubits, h.bits⟩]

theorem measureMany_eq_push (qubits : List Qubit) (clbits : List Clbit) :
    c.measureMany qubits clbits =
      c.push (.effect { kind := .measure, targets := qubits, clbits }) := by
  rw [measureMany]
  split
  · next hlen => simp [push, Operation.validate, Effect.validate, Operation.isWellFormed,
      Kind.isNonUnitary, hlen]
  · rfl

end Circuit

/-! ## Calls -/

/-- What can be asked of a circuit that is being built. -/
inductive BuildCall where
  | addQubit (physical logical outputLogical : Qubit)
  | addClbits (count : Nat)
  | push (op : Operation)
  | apply (kind : Kind) (targets : List Qubit)
  | applyControlled (kind : Kind) (controls : List Control) (targets : List Qubit)
  | rotate (kind : Kind) (angle : Binary64) (targets : List Qubit)
  | measure (qubit : Qubit) (clbit : Clbit)
  | measureMany (qubits : List Qubit) (clbits : List Clbit)
  | reset (qubit : Qubit)
  | barrier (qubits : List Qubit)
  | applyIf (op : Operation) (register : Register) (value : UInt64)
  | applyIfBit (op : Operation) (clbit : Clbit) (value : UInt64)
  | group (ops : List Operation)
deriving Repr

namespace BuildCall

def run (c : Circuit) : BuildCall → Except CircuitError Circuit
  | .addQubit physical logical outputLogical => c.addQubit physical logical outputLogical
  | .addClbits count => .ok (c.addClbits count).2
  | .push op => c.push op
  | .apply kind targets => c.apply kind targets
  | .applyControlled kind controls targets => c.applyControlled kind controls targets
  | .rotate kind angle targets => c.rotate kind angle targets
  | .measure qubit clbit => c.measure qubit clbit
  | .measureMany qubits clbits => c.measureMany qubits clbits
  | .reset qubit => c.reset qubit
  | .barrier qubits => c.barrier qubits
  | .applyIf op register value => c.applyIf op register value
  | .applyIfBit op clbit value => c.applyIfBit op clbit value
  | .group ops => c.group ops

/-- The qubit that a call declares if it succeeds. -/
def qubit? : BuildCall → Option Qubit
  | .addQubit physical _ _ => some physical
  | _ => none

/-- How many bits a call declares. -/
def bits : BuildCall → Nat
  | .addClbits count => count
  | _ => 0

/-- A call that succeeds declares a qubit that is new, declares bits, or appends an
operation. -/
theorem run_eq_ok {call : BuildCall} {c c' : Circuit} (h : call.run c = .ok c') :
    (∃ p l o, call.qubit? = some p ∧ call.bits = 0 ∧ c.initial.get? p = none ∧
        c' = { c with
          initial := c.initial.insert p l
          output := c.output.insert p o
          numQubits := wordAdd c.numQubits 1 }) ∨
      call.qubit? = none ∧
        (c' = { c with numClbits := wordAdd c.numClbits call.bits } ∨
          call.bits = 0 ∧ ∃ op, c.push op = .ok c') := by
  cases call with
  | addQubit p l o =>
    rw [run, Circuit.addQubit] at h
    split at h
    · cases h
    · next hfree =>
      rw [Bool.not_eq_true, OrderedMap.contains_eq_false] at hfree
      exact .inl ⟨p, l, o, rfl, rfl, hfree, (Except.ok.inj h).symm⟩
  | addClbits count => exact .inr ⟨rfl, .inl (Except.ok.inj h).symm⟩
  | push op => exact .inr ⟨rfl, .inr ⟨rfl, op, h⟩⟩
  | apply kind targets => exact .inr ⟨rfl, .inr ⟨rfl, _, h⟩⟩
  | applyControlled kind controls targets => exact .inr ⟨rfl, .inr ⟨rfl, _, h⟩⟩
  | rotate kind angle targets => exact .inr ⟨rfl, .inr ⟨rfl, _, h⟩⟩
  | measure qubit clbit =>
    rw [run, Circuit.measure, Circuit.measureMany_eq_push] at h
    exact .inr ⟨rfl, .inr ⟨rfl, _, h⟩⟩
  | measureMany qubits clbits =>
    rw [run, Circuit.measureMany_eq_push] at h
    exact .inr ⟨rfl, .inr ⟨rfl, _, h⟩⟩
  | reset qubit =>
    exact .inr ⟨rfl, .inr ⟨rfl, .effect { kind := .reset, targets := [qubit] }, h⟩⟩
  | barrier qubits =>
    exact .inr ⟨rfl, .inr ⟨rfl, .effect { kind := .barrier, targets := qubits }, h⟩⟩
  | applyIf op register value => exact .inr ⟨rfl, .inr ⟨rfl, _, h⟩⟩
  | applyIfBit op clbit value => exact .inr ⟨rfl, .inr ⟨rfl, _, h⟩⟩
  | group ops => exact .inr ⟨rfl, .inr ⟨rfl, _, h⟩⟩

end BuildCall

/-- A circuit that is being built, the qubits that have been added to it, and how many bits
it has been given in all. -/
structure Construction where
  circuit : Circuit
  added : List Qubit := []
  bits : Nat := 0
deriving DecidableEq, Repr

namespace Construction

def start (name : String) (numQubits numClbits : Nat) : Construction where
  circuit := .withSize name numQubits numClbits
  bits := numClbits

/-- A call that fails changes nothing. -/
def step (s : Construction) (call : BuildCall) : Construction :=
  match call.run s.circuit with
  | .ok c => ⟨c, s.added ++ call.qubit?.toList, s.bits + call.bits⟩
  | .error _ => s

def after (s : Construction) (calls : List BuildCall) : Construction := calls.foldl step s

/-- The operation passes the check, acts on qubits below the number of those declared or on
added ones, and names bits below the number of those declared. -/
structure Covers (n : Nat) (s : Construction) (op : Operation) : Prop where
  shape : op.validate = .ok ()
  qubits : ∀ q, op.actsOn q = true → q.index < n + s.added.length ∨ q ∈ s.added
  bits : ∀ b ∈ op.namedBits, b.index < s.bits

/-- What holds at any time if there are `n` qubits at the start. -/
structure Sound (n : Nat) (s : Construction) : Prop where
  numQubits_le : s.circuit.numQubits ≤ n + s.added.length
  numQubits_eq : n + s.added.length < wordBound → s.circuit.numQubits = n + s.added.length
  numClbits_le : s.circuit.numClbits ≤ s.bits
  numClbits_eq : s.bits < wordBound → s.circuit.numClbits = s.bits
  initial : ∀ q, (s.circuit.initial.get? q).isSome ↔ q.index < n ∨ q ∈ s.added
  nodup : s.added.Nodup
  fresh : ∀ q ∈ s.added, n ≤ q.index
  covers : ∀ op ∈ s.circuit.ops, s.Covers n op

variable {n m : Nat} {s : Construction}

theorem sound_start (name : String) (n m : Nat) : (start name n m).Sound n where
  numQubits_le := Nat.le_refl _
  numQubits_eq _ := rfl
  numClbits_le := Nat.le_refl _
  numClbits_eq _ := rfl
  initial q := by simp [start, Circuit.withSize, Layout.isSome_get?_identity]
  nodup := .nil
  fresh := by simp [start]
  covers := by simp [start, Circuit.withSize]

/-- What is declared stays so when more is. -/
theorem Covers.mono {t : Construction} {op : Operation} (h : s.Covers n op)
    (hadded : s.added <+: t.added) (hbits : s.bits ≤ t.bits) : t.Covers n op := by
  refine ⟨h.shape, fun q hq => ?_, fun b hb => Nat.lt_of_lt_of_le (h.bits b hb) hbits⟩
  refine (h.qubits q hq).imp (fun hlt => ?_) fun hmem => hadded.subset hmem
  have hlength := hadded.length_le
  omega

theorem Sound.declare (h : s.Sound n) {p : Qubit} (hfree : s.circuit.initial.get? p = none)
    (l o : Qubit) :
    Sound n { s with
      circuit := { s.circuit with
        initial := s.circuit.initial.insert p l
        output := s.circuit.output.insert p o
        numQubits := wordAdd s.circuit.numQubits 1 }
      added := s.added ++ [p] } := by
  have hnew : ¬ (p.index < n ∨ p ∈ s.added) := by
    rw [← h.initial, hfree]
    simp
  rw [not_or, Nat.not_lt] at hnew
  have hlength : (s.added ++ [p]).length = s.added.length + 1 := List.length_append
  refine ⟨?_, fun hwords => ?_, h.numClbits_le, h.numClbits_eq, fun q => ?_, ?_, fun q hq => ?_,
    fun op hop => (h.covers op hop).mono (List.prefix_append _ _) (Nat.le_refl _)⟩
  · have hle := h.numQubits_le
    have hsum := wordAdd_le s.circuit.numQubits 1
    dsimp only
    omega
  · dsimp only at hwords ⊢
    have heq := h.numQubits_eq (by omega)
    rw [wordAdd_of_lt (by omega), hlength]
    omega
  · dsimp only
    rw [OrderedMap.get?_insert, List.mem_append, List.mem_singleton]
    by_cases hq : q = p
    · simp [hq]
    · simp [hq, h.initial]
  · refine List.nodup_append.2 ⟨h.nodup, List.nodup_singleton p, ?_⟩
    rintro q hq r hr rfl
    exact hnew.2 (List.mem_singleton.1 hr ▸ hq)
  · rcases List.mem_append.1 hq with hq | hq
    · exact h.fresh q hq
    · exact List.mem_singleton.1 hq ▸ hnew.1

theorem Sound.addClbits (h : s.Sound n) (count : Nat) :
    Sound n { s with
      circuit := { s.circuit with numClbits := wordAdd s.circuit.numClbits count }
      bits := s.bits + count } := by
  refine ⟨h.numQubits_le, h.numQubits_eq, ?_, fun hwords => ?_, h.initial, h.nodup, h.fresh,
    fun op hop => (h.covers op hop).mono (List.prefix_refl _) (Nat.le_add_right _ _)⟩
  · exact Nat.le_trans (wordAdd_le _ _) (Nat.add_le_add_right h.numClbits_le count)
  · dsimp only at hwords ⊢
    rw [h.numClbits_eq (by omega), wordAdd_of_lt hwords]

theorem Sound.covers_of_admits (h : s.Sound n) {op : Operation} (hop : s.circuit.Admits op) :
    s.Covers n op := by
  refine ⟨hop.shape, fun q hq => ?_, fun b hb =>
    Nat.lt_of_lt_of_le (hop.bits b hb) h.numClbits_le⟩
  rcases Circuit.declares_iff.1 (hop.qubits q hq) with hlt | hsome
  · exact .inl (Nat.lt_of_lt_of_le hlt h.numQubits_le)
  · exact ((h.initial q).1 hsome).imp_left fun hlt =>
      Nat.lt_of_lt_of_le hlt (Nat.le_add_right _ _)

theorem Sound.push (h : s.Sound n) {op : Operation} (hop : s.circuit.Admits op) :
    Sound n { s with circuit := { s.circuit with ops := s.circuit.ops ++ [op] } } := by
  refine ⟨h.numQubits_le, h.numQubits_eq, h.numClbits_le, h.numClbits_eq, h.initial, h.nodup,
    h.fresh, fun o ho => ?_⟩
  have hcovers : s.Covers n o := by
    rcases List.mem_append.1 ho with ho | ho
    · exact h.covers o ho
    · exact List.mem_singleton.1 ho ▸ h.covers_of_admits hop
  exact hcovers.mono (List.prefix_refl _) (Nat.le_refl _)

theorem Sound.step (h : s.Sound n) (call : BuildCall) : (s.step call).Sound n := by
  rw [Construction.step]
  split
  · next c hrun =>
    rcases call.run_eq_ok hrun with
      ⟨p, l, o, hp, hbits, hfree, rfl⟩ | ⟨hp, rfl | ⟨hbits, op, hpush⟩⟩
    · rw [hp, hbits]
      exact h.declare hfree l o
    · rw [hp, Option.toList_none, List.append_nil]
      exact h.addClbits call.bits
    · obtain ⟨hop, rfl⟩ := Circuit.push_eq_ok_iff.1 hpush
      rw [hp, hbits, Option.toList_none, List.append_nil]
      exact h.push hop
  · exact h

theorem Sound.after (h : s.Sound n) (calls : List BuildCall) : (s.after calls).Sound n := by
  induction calls generalizing s with
  | nil => exact h
  | cons call rest ih => exact ih (h.step call)

/-! ## Bits -/

variable {name : String} {calls : List BuildCall}

/-- Outside of compounds, the operations of a circuit that has been built use bits that have
been declared, provided that their registers fit into words; and the bits that have been
declared are those that the circuit counts, as long as their number is a word. Registers that
do not fit are not looked at, and neither are the bits inside of compounds: operations can be
grouped exactly when they pass the check and act on declared qubits, whatever bits they use. -/
theorem bits_declared_outside_compounds (h : (start name n m).after calls = s) :
    (∀ op ∈ s.circuit.ops, op.isCompound = false → op.RegistersFit →
        ∀ b ∈ op.bitsUsed, b.index < s.bits) ∧
      (s.bits < wordBound → s.circuit.numClbits = s.bits) ∧
      (∀ g (cond : Condition) c', cond.register.start.index < wordBound →
        cond.register.size < wordBound → ¬ cond.register.FitsWord →
        (s.circuit.applyIf (.gate g) cond.register cond.value = .ok c' ↔
          g.validate = .ok () ∧ (∀ q, g.actsOn q = true → s.circuit.declares q = true) ∧
          c' = { s.circuit with ops := s.circuit.ops ++ [.conditional cond (.gate g)] })) ∧
      ∀ children c', s.circuit.group children = .ok c' ↔
        (∀ op ∈ children, op.validate = .ok () ∧
          ∀ q, op.actsOn q = true → s.circuit.declares q = true) ∧
        c' = { s.circuit with ops := s.circuit.ops ++ [.compound children] } := by
  have hs : s.Sound n := h ▸ (sound_start name n m).after calls
  refine ⟨fun op hop hflat hfit b hb => ?_, hs.numClbits_eq, fun g cond c' hstart hsize hnot => ?_,
    fun children c' => ?_⟩
  · have hcovers := hs.covers op hop
    exact hcovers.bits b
      (Operation.mem_namedBits hcovers.shape hflat (hfit.mem_bitsTouched_iff.2 hb))
  · have hnone : (Operation.conditional cond (.gate g)).namedBits = [] :=
      Register.bits_of_not_fitsWord hstart hsize hnot
    rw [Circuit.applyIf, Circuit.push_eq_ok_iff, ← and_assoc]
    refine and_congr_left fun _ => ⟨fun h => ⟨?_, h.qubits⟩, fun h => ⟨?_, h.2, ?_⟩⟩
    · obtain ⟨g', heq, hvalid⟩ := Operation.validate_conditional_iff.1 h.shape
      cases heq
      exact hvalid
    · exact Operation.validate_conditional_iff.2 ⟨g, rfl, h.1⟩
    · rw [hnone]
      simp
  · rw [Circuit.group, Circuit.push_eq_ok_iff]
    refine and_congr_left fun _ => ⟨fun h op hop => ⟨?_, fun q hq => ?_⟩, fun h => ⟨?_, ?_, ?_⟩⟩
    · exact Operation.validate_compound_iff.1 h.shape op hop
    · exact h.qubits q (Operation.actsOn_compound.2 ⟨op, hop, hq⟩)
    · exact Operation.validate_compound_iff.2 fun op hop => (h op hop).1
    · intro q hq
      obtain ⟨op, hop, hacts⟩ := Operation.actsOn_compound.1 hq
      exact (h op hop).2 q hacts
    · simp [Operation.namedBits]

/-- With one qubit and one bit, a measurement into a second bit as a compound. -/
def nested : Construction :=
  (start "nested" 1 1).after [.group [.effect ⟨.measure, [⟨0⟩], [⟨1⟩]⟩]]

/-- On its own the measurement is refused, but as a compound it goes in. -/
theorem group_undeclared_bit :
    (Circuit.withSize "nested" 1 1).measure ⟨0⟩ ⟨1⟩ = .error (.unknownClbit ⟨1⟩ .measure) ∧
      nested.circuit = { Circuit.withSize "nested" 1 1 with
        ops := [.compound [.effect ⟨.measure, [⟨0⟩], [⟨1⟩]⟩]] } := by
  decide

theorem bits_declared_outside_compounds_nested :
    (∀ op ∈ nested.circuit.ops, op.isCompound = false → op.RegistersFit →
        ∀ b ∈ op.bitsUsed, b.index < 1) ∧
      (∃ c', nested.circuit.applyIf (.gate (.ofKind .x [⟨0⟩])) (.single ⟨4294967295⟩) 1 = .ok c') ∧
      ∃ c', nested.circuit.group [.effect ⟨.measure, [⟨0⟩], [⟨2⟩]⟩] = .ok c' := by
  have hnested : (start "nested" 1 1).after [.group [.effect ⟨.measure, [⟨0⟩], [⟨1⟩]⟩]] = nested :=
    rfl
  have hdeclared : ∀ q : Qubit, q ∈ [(⟨0⟩ : Qubit)] → nested.circuit.declares q = true := by
    decide
  obtain ⟨hflat, -, hlast, hgroup⟩ := bits_declared_outside_compounds hnested
  refine ⟨hflat, ⟨_, (hlast _ ⟨.single ⟨4294967295⟩, 1⟩ _ ?_ ?_ ?_).2 ⟨rfl, fun q hq => ?_, rfl⟩⟩,
    _, (hgroup _ _).2 ⟨?_, rfl⟩⟩
  · decide
  · decide
  · decide
  · exact hdeclared q (Gate.mem_operands.2 hq)
  · rw [List.forall_mem_singleton]
    exact ⟨rfl, fun q hq => hdeclared q (of_decide_eq_true hq)⟩

/-! ## Qubits -/

/-- Different qubits are all below their number just when they are all that are. -/
theorem forall_index_lt_iff {l : List Qubit} (hl : l.Nodup) :
    (∀ q ∈ l, q.index < l.length) ↔ ∀ q : Qubit, q.index < l.length → q ∈ l := by
  have hmem : ∀ q, q ∈ (Layout.identity l.length).keys ↔ q.index < l.length := fun q =>
    OrderedMap.mem_keys.trans Layout.isSome_get?_identity
  have hlen : (Layout.identity l.length).keys.length = l.length := by
    simp [OrderedMap.keys, Layout.identity]
  constructor
  · intro h q hq
    have hperm := (List.subperm_of_subset hl fun q hq => (hmem q).2 (h q hq)).perm_of_length_le
      (Nat.le_of_eq hlen)
    exact hperm.mem_iff.2 ((hmem q).2 hq)
  · intro h q hq
    have hperm := (List.subperm_of_subset (Layout.identity l.length).nodup_keys
      fun q hq => h q ((hmem q).1 hq)).perm_of_length_le (Nat.le_of_eq hlen.symm)
    exact (hmem q).1 (hperm.mem_iff.2 hq)

/-- The qubits at the start and those added since. -/
def declared (n : Nat) (s : Construction) : List Qubit := (Layout.identity n).keys ++ s.added

theorem mem_declared {q : Qubit} : q ∈ s.declared n ↔ q.index < n ∨ q ∈ s.added := by
  rw [declared, List.mem_append, OrderedMap.mem_keys, Layout.isSome_get?_identity]

theorem Sound.nodup_declared (h : s.Sound n) : (s.declared n).Nodup := by
  refine List.nodup_append.2 ⟨OrderedMap.nodup_keys _, h.nodup, ?_⟩
  rintro q hq r hr rfl
  rw [OrderedMap.mem_keys, Layout.isSome_get?_identity] at hq
  exact Nat.not_lt.2 (h.fresh q hr) hq

theorem length_declared : (s.declared n).length = n + s.added.length := by
  simp [declared, OrderedMap.keys, Layout.identity]

/-- The operations of a circuit that has been built act on qubits that are below the number
of those declared or have been added. As long as no number is left out, these are the qubits
at the start and those added; as soon as one is, a gate on a qubit that is neither goes in.
The circuit counts the declared qubits, as long as their number is a word. -/
theorem qubits_declared_or_counted (h : (start name n m).after calls = s) :
    (n + s.added.length < wordBound → s.circuit.numQubits = n + s.added.length) ∧
      (∀ op ∈ s.circuit.ops, ∀ q, op.actsOn q = true →
        q.index < n + s.added.length ∨ q ∈ s.added) ∧
      ((∀ q ∈ s.added, q.index < n + s.added.length) →
        ∀ op ∈ s.circuit.ops, ∀ q, op.actsOn q = true → q.index < n ∨ q ∈ s.added) ∧
      ∀ p ∈ s.added, p.index < wordBound → n + s.added.length ≤ p.index →
        ∃ q c', n ≤ q.index ∧ q ∉ s.added ∧ s.circuit.apply .x [q] = .ok c' := by
  have hs : s.Sound n := h ▸ (sound_start name n m).after calls
  have hdense := forall_index_lt_iff hs.nodup_declared
  rw [length_declared] at hdense
  refine ⟨hs.numQubits_eq, fun op hop => (hs.covers op hop).qubits, fun hadded op hop q hq => ?_,
    fun p hp hword hle => ?_⟩
  · have hall : ∀ r ∈ s.declared n, r.index < n + s.added.length := by
      intro r hr
      rcases mem_declared.1 hr with hr | hr
      · omega
      · exact hadded r hr
    rcases (hs.covers op hop).qubits q hq with hlt | hmem
    · exact mem_declared.1 (hdense.1 hall q hlt)
    · exact .inr hmem
  · have hgap : ¬ ∀ q : Qubit, q.index < n + s.added.length → q ∈ s.declared n := by
      intro hall
      exact Nat.not_lt.2 hle (hdense.2 hall p (mem_declared.2 (.inr hp)))
    push Not at hgap
    obtain ⟨q, hlt, hq⟩ := hgap
    rw [mem_declared, not_or, Nat.not_lt] at hq
    have hadmits : s.circuit.Admits (.gate (.ofKind .x [q])) := by
      refine ⟨rfl, fun r hr => ?_, by simp [Operation.namedBits]⟩
      rw [List.mem_singleton.1 (Gate.mem_operands.2 hr)]
      exact Circuit.declares_iff.2 (.inl (by rwa [hs.numQubits_eq (by omega)]))
    exact ⟨q, _, hq.1, hq.2, Circuit.push_eq_ok_iff.2 ⟨hadmits, rfl⟩⟩

/-- Without a size a circuit starts with no qubits and no bits. -/
theorem start_zero (name : String) : start name 0 0 = { circuit := { name := name } } := rfl

/-- With qubit 5 as the only one there is, a gate on qubit 0 goes in; qubit 0 can still be
added afterwards. -/
theorem apply_undeclared_qubit :
    (({ circuit := { name := "sparse" } } : Construction).after
        [.addQubit ⟨5⟩ ⟨5⟩ ⟨5⟩, .apply .x [⟨0⟩], .addQubit ⟨0⟩ ⟨0⟩ ⟨0⟩]) =
      { circuit := {
          name := "sparse"
          numQubits := 2
          ops := [.gate (.ofKind .x [⟨0⟩])]
          initial := .ofList [(⟨5⟩, ⟨5⟩), (⟨0⟩, ⟨0⟩)]
          output := .ofList [(⟨5⟩, ⟨5⟩), (⟨0⟩, ⟨0⟩)] }
        added := [⟨5⟩, ⟨0⟩] } := by
  decide

theorem qubits_declared_or_counted_sparse :
    ∃ q c', q ∉ [(⟨5⟩ : Qubit)] ∧
      (({ circuit := { name := "sparse" } } : Construction).after
        [.addQubit ⟨5⟩ ⟨5⟩ ⟨5⟩]).circuit.apply .x [q] = .ok c' := by
  rw [← start_zero]
  obtain ⟨-, -, -, hgap⟩ := qubits_declared_or_counted
    (rfl : (start "sparse" 0 0).after [.addQubit ⟨5⟩ ⟨5⟩ ⟨5⟩] = _)
  obtain ⟨q, c', -, hq, hrun⟩ := hgap ⟨5⟩ (by decide) (by decide) (by decide)
  exact ⟨q, c', hq, hrun⟩

end Construction
end QuantumCircuit
