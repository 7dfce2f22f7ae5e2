import QuantumCircuit.Measurement.Dynamic
import QuantumCircuit.Peephole.Identity

/-! The leaves of operations: the operations that are left when every compound is
opened. What acts on a qubit are leaves, and sweeping up identities only drops
leaves. -/
namespace QuantumCircuit
namespace Operation

@[simp] theorem leavesOfAll_nil : leavesOfAll [] = [] := rfl

@[simp] theorem leavesOfAll_cons (op : Operation) (ops : List Operation) :
    leavesOfAll (op :: ops) = op.leaves ++ leavesOfAll ops := rfl

@[simp] theorem leavesOfAll_append (as bs : List Operation) :
    leavesOfAll (as ++ bs) = leavesOfAll as ++ leavesOfAll bs := by
  simp only [leavesOfAll_eq, List.flatMap_append]

theorem leavesOfAll_perm {as bs : List Operation} (h : as.Perm bs) :
    (leavesOfAll as).Perm (leavesOfAll bs) := by
  rw [leavesOfAll_eq, leavesOfAll_eq]
  exact h.flatMap_right _

theorem mem_leavesOfAll {leaf : Operation} {ops : List Operation} :
    leaf ∈ leavesOfAll ops ↔ ∃ op ∈ ops, leaf ∈ op.leaves := by
  rw [leavesOfAll_eq, List.mem_flatMap]

@[simp] theorem leaves_compound (ops : List Operation) :
    (Operation.compound ops).leaves = leavesOfAll ops := rfl

@[simp] theorem leaves_ofChildren (ops : List Operation) :
    (ofChildren ops).leaves = leavesOfAll ops := by
  match ops with
  | [] => rfl
  | [op] => simp [ofChildren]
  | _ :: _ :: _ => rfl

/-- An operation acts on a qubit when one of its leaves does. -/
theorem actsOn_compound {q : Qubit} {children : List Operation} :
    (Operation.compound children).actsOn q = true ↔ ∃ op ∈ children, op.actsOn q = true := by
  simp [actsOn, anyActsOn_eq]

theorem actsOn_iff_leaf {q : Qubit} {op : Operation} :
    op.actsOn q = true ↔ ∃ leaf ∈ op.leaves, leaf.actsOn q = true := by
  induction op using inductionOn with
  | gate g => simp [leaves]
  | effect e => simp [leaves]
  | conditional cond body _ => simp [leaves]
  | compound children ih =>
    simp only [actsOn, anyActsOn_eq, List.any_eq_true, leaves_compound, mem_leavesOfAll]
    constructor
    · rintro ⟨c, hc, h⟩
      obtain ⟨leaf, hleaf, hacts⟩ := (ih c hc).1 h
      exact ⟨leaf, ⟨c, hc, hleaf⟩, hacts⟩
    · rintro ⟨leaf, ⟨c, hc, hleaf⟩, hacts⟩
      exact ⟨c, hc, (ih c hc).2 ⟨leaf, hleaf, hacts⟩⟩

theorem leaf_not_compound {leaf op : Operation} (h : leaf ∈ op.leaves) :
    leaf.isCompound = false := by
  induction op using inductionOn with
  | gate g => rw [List.mem_singleton.1 h]; rfl
  | effect e => rw [List.mem_singleton.1 h]; rfl
  | conditional cond body _ => rw [List.mem_singleton.1 h]; rfl
  | compound children ih =>
    obtain ⟨c, hc, hleaf⟩ := mem_leavesOfAll.1 h
    exact ih c hc hleaf

theorem leaves_eq_self {op : Operation} (h : op.isCompound = false) : op.leaves = [op] := by
  cases op with
  | compound children => cases h
  | gate g => rfl
  | effect e => rfl
  | conditional cond body => rfl

/-- Operations that are not compounds are their own leaves. -/
theorem leavesOfAll_eq_self {ops : List Operation} (h : ∀ op ∈ ops, op.isCompound = false) :
    leavesOfAll ops = ops := by
  induction ops with
  | nil => rfl
  | cons op rest ih =>
    rw [leavesOfAll_cons, leaves_eq_self (h op List.mem_cons_self),
      ih fun o ho => h o (List.mem_cons_of_mem _ ho)]
    rfl

theorem isCompound_of_mem_leavesOfAll {leaf : Operation} {ops : List Operation}
    (h : leaf ∈ leavesOfAll ops) : leaf.isCompound = false := by
  obtain ⟨op, -, hleaf⟩ := mem_leavesOfAll.1 h
  exact leaf_not_compound hleaf

theorem leaves_of_isUnitary {op : Operation} (h : op.isUnitary = true) :
    ∀ leaf ∈ op.leaves, ∃ g, leaf = .gate g := by
  induction op using inductionOn with
  | gate g =>
    intro leaf hleaf
    exact ⟨g, List.mem_singleton.1 hleaf⟩
  | effect e => cases h
  | conditional cond body _ => cases h
  | compound children ih =>
    rw [isUnitary, allUnitary_eq, List.all_eq_true] at h
    intro leaf hleaf
    obtain ⟨child, hchild, hmem⟩ := mem_leavesOfAll.1 hleaf
    exact ih child hchild (h child hchild) leaf hmem

/-- What stands in a list of which one place has been written. -/
theorem getElem?_set_cases {l : List Operation} {i j : Nat} {a o : Operation}
    (h : (l.set i a)[j]? = some o) : (i = j ∧ o = a) ∨ (i ≠ j ∧ l[j]? = some o) := by
  rw [List.getElem?_set] at h
  split at h
  · next hij =>
    split at h
    · exact .inl ⟨hij, (Option.some.inj h).symm⟩
    · cases h
  · next hij => exact .inr ⟨hij, h⟩

/-! ## Leaves without identities -/

-- Over a list the statement follows from that for each operation in it; both the
-- induction over an operation and its conclusion use this.
theorem leavesOfAll_stripAll_of {ops : List Operation}
    (h : ∀ op ∈ ops, leavesOfAll op.strip?.toList = op.leaves.filter (!·.isIdentity)) :
    leavesOfAll (stripAll ops) = (leavesOfAll ops).filter (!·.isIdentity) := by
  induction ops with
  | nil => rfl
  | cons op rest ih =>
    have hop := h op List.mem_cons_self
    have hrest := ih fun c hc => h c (List.mem_cons_of_mem _ hc)
    rw [stripAll, leavesOfAll_cons, List.filter_append, ← hop, ← hrest]
    cases op.strip? with
    | none => rfl
    | some kept => simp

theorem leaves_strip? (op : Operation) :
    leavesOfAll op.strip?.toList = op.leaves.filter (!·.isIdentity) := by
  induction op using inductionOn with
  | gate g => by_cases h : (Operation.gate g).isIdentity <;> simp [strip?, h, leaves]
  | effect e => by_cases h : (Operation.effect e).isIdentity <;> simp [strip?, h, leaves]
  | conditional cond body _ =>
    by_cases h : body.isIdentity <;> simp [strip?, h, leaves, isIdentity]
  | compound children ih =>
    rw [strip?, leaves_compound, ← leavesOfAll_stripAll_of ih]
    cases stripAll children with
    | nil => rfl
    | cons op rest => simp

/-- Sweeping up identities drops exactly the leaves that are identities. -/
theorem leavesOfAll_stripAll (ops : List Operation) :
    leavesOfAll (stripAll ops) = (leavesOfAll ops).filter (!·.isIdentity) :=
  leavesOfAll_stripAll_of fun op _ => leaves_strip? op

theorem mem_stripAll {op' : Operation} {ops : List Operation} :
    op' ∈ stripAll ops ↔ ∃ op ∈ ops, op.strip? = some op' := by
  have hfilter : stripAll ops = ops.filterMap strip? := by
    induction ops with
    | nil => rfl
    | cons op rest ih =>
      rw [stripAll, List.filterMap_cons, ih]
      cases op.strip? <;> rfl
  rw [hfilter, List.mem_filterMap]

theorem strip?_of_not_compound {op : Operation} (h : op.isCompound = false) :
    op.strip? = if op.isIdentity = true then none else some op := by
  cases op with
  | compound children => cases h
  | gate g => rfl
  | effect e => rfl
  | conditional cond body => rfl

/-- Without compounds sweeping up identities is a filter. -/
theorem stripAll_eq_filter {ops : List Operation} (h : ∀ op ∈ ops, op.isCompound = false) :
    stripAll ops = ops.filter (!·.isIdentity) := by
  induction ops with
  | nil => rfl
  | cons op rest ih =>
    rw [stripAll, strip?_of_not_compound (h op List.mem_cons_self),
      ih fun o ho => h o (List.mem_cons_of_mem _ ho)]
    by_cases hid : op.isIdentity = true <;> simp [hid]

end Operation

namespace Dynamic
open Operation

/-- Well-formed operations are searched to the end. -/
theorem findFeedback_of_check {ops : List Operation}
    (h : ∀ op ∈ ops, op.check passName = .ok ()) :
    findFeedback ops = .ok ((leavesOfAll ops).any isFeedback) := by
  induction ops with
  | nil => rfl
  | cons op rest ih =>
    rw [findFeedback, h op List.mem_cons_self, leavesOfAll_cons, List.any_append,
      ih fun o ho => h o (List.mem_cons_of_mem _ ho)]
    cases op.leaves.any isFeedback <;> rfl

@[simp] theorem leavesOn_nil (q : Qubit) : leavesOn q [] = [] := rfl

@[simp] theorem leavesOn_append (q : Qubit) (as bs : List Operation) :
    leavesOn q (as ++ bs) = leavesOn q as ++ leavesOn q bs := by
  simp [leavesOn]

/-- Operations that do not act on a qubit have no leaves on it. -/
theorem leavesOn_eq_nil {q : Qubit} {ops : List Operation}
    (h : ∀ op ∈ ops, ¬ op.actsOn q = true) : leavesOn q ops = [] := by
  rw [leavesOn, List.filter_eq_nil_iff]
  intro leaf hleaf hacts
  obtain ⟨op, hop, hmem⟩ := mem_leavesOfAll.1 hleaf
  exact h op hop (actsOn_iff_leaf.2 ⟨leaf, hmem, hacts⟩)

theorem leavesOn_ofChildren (q : Qubit) (ops : List Operation) :
    leavesOn q [ofChildren ops] = leavesOn q ops := by
  simp [leavesOn]

theorem leavesOn_stripAll (q : Qubit) (ops : List Operation) :
    leavesOn q (stripAll ops) = (leavesOn q ops).filter (!·.isIdentity) := by
  rw [leavesOn, leavesOn, leavesOfAll_stripAll, List.filter_filter, List.filter_filter]
  exact List.filter_congr fun _ _ => Bool.and_comm _ _

end Dynamic
end QuantumCircuit
