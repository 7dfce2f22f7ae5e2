import QuantumCircuit.Proofs.Lanes
import QuantumCircuit.Proofs.Nodes

/-! Well-formed circuits and their lanes. The check of an operation goes through its nodes, a
compound before its children, and reports the first one that is not well formed. Lanes are
built exactly for the circuits without such a node. -/
namespace QuantumCircuit
namespace Operation

/-- What is reported of a node that is not well formed. -/
def fault (pass : String) : Operation → PassError
  | .conditional _ body =>
    if body.isGate then .unexpectedKind .classicControlled pass else .conditionOn body.kind
  | op => .unexpectedKind op.kind pass

/-- What is reported of nodes that are looked at one after the other. -/
def verdict (pass : String) : List Operation → Except PassError Unit
  | [] => .ok ()
  | op :: rest => if op.isWellFormed then verdict pass rest else .error (op.fault pass)

section verdict
variable {pass : String} {as bs nodes : List Operation} {e : PassError}

theorem verdict_append_of_ok (h : verdict pass as = .ok ()) :
    verdict pass (as ++ bs) = verdict pass bs := by
  induction as with
  | nil => rfl
  | cons op rest ih =>
    rw [verdict] at h
    split at h
    · next hwell => rw [List.cons_append, verdict, if_pos hwell, ih h]
    · cases h

theorem verdict_append_of_error (h : verdict pass as = .error e) :
    verdict pass (as ++ bs) = .error e := by
  induction as with
  | nil => cases h
  | cons op rest ih =>
    rw [verdict] at h
    rw [List.cons_append, verdict]
    split at h
    · next hwell => rw [if_pos hwell, ih h]
    · next hill => rw [if_neg hill, h]

theorem verdict_eq_ok_iff :
    verdict pass nodes = .ok () ↔ ∀ op ∈ nodes, op.isWellFormed = true := by
  induction nodes with
  | nil => simp [verdict]
  | cons op rest ih =>
    rw [verdict]
    by_cases hwell : op.isWellFormed = true <;> simp [hwell, ih]

/-- What is reported is the fault of the first node that has one. -/
theorem verdict_eq_error_iff :
    verdict pass nodes = .error e ↔ ∃ before op after, nodes = before ++ op :: after ∧
      (∀ o ∈ before, o.isWellFormed = true) ∧ op.isWellFormed = false ∧ e = op.fault pass := by
  constructor
  · intro h
    induction nodes with
    | nil => cases h
    | cons op rest ih =>
      rw [verdict] at h
      split at h
      · next hwell =>
        obtain ⟨before, bad, after, rfl, hbefore, hbad, he⟩ := ih h
        refine ⟨op :: before, bad, after, rfl, ?_, hbad, he⟩
        intro o ho
        rcases List.mem_cons.1 ho with rfl | ho
        · exact hwell
        · exact hbefore o ho
      · next hill =>
        cases h
        exact ⟨[], op, rest, rfl, fun o ho => absurd ho List.not_mem_nil,
          Bool.eq_false_iff.2 hill, rfl⟩
  · rintro ⟨before, op, after, rfl, hbefore, hill, rfl⟩
    rw [verdict_append_of_ok (verdict_eq_ok_iff.2 hbefore), verdict, hill]
    rfl

end verdict

/-! ## The check as a walk over the nodes -/

theorem checkAll_eq_verdict_of {pass : String} {ops : List Operation}
    (h : ∀ op ∈ ops, op.check pass = verdict pass op.nodes) :
    checkAll pass ops = verdict pass (nodesOfAll ops) := by
  induction ops with
  | nil => rfl
  | cons op rest ih =>
    have hop := h op List.mem_cons_self
    have hrest := ih fun o ho => h o (List.mem_cons_of_mem _ ho)
    rw [checkAll, nodesOfAll_cons]
    split
    · next hok => rw [hrest, verdict_append_of_ok (hop ▸ hok)]
    · next herror => rw [verdict_append_of_error (hop ▸ herror)]

theorem check_eq_verdict (pass : String) (op : Operation) :
    op.check pass = verdict pass op.nodes := by
  induction op using inductionOn with
  | gate g => rfl
  | effect e => rfl
  | conditional cond body _ =>
    rw [check, nodes_eq_self rfl, verdict, isWellFormed, fault]
    cases body.isGate with
    | false => rfl
    | true => cases body.isWellFormed <;> rfl
  | compound children ih => exact checkAll_eq_verdict_of ih

/-- An operation passes the check if all its nodes are well formed. -/
theorem check_eq_ok_iff {pass : String} {op : Operation} :
    op.check pass = .ok () ↔ ∀ node ∈ op.nodes, node.isWellFormed = true := by
  rw [check_eq_verdict, verdict_eq_ok_iff]

end Operation

/-! ## Lanes -/

namespace Lanes
open Operation

theorem addFrom_eq_error_iff {pass : String} {ops : List Operation} {k : Nat} {l : Lanes}
    {e : PassError} :
    addFrom pass k ops l = .error e ↔ verdict pass (nodesOfAll ops) = .error e := by
  induction ops generalizing k l with
  | nil => simp [addFrom, verdict]
  | cons op rest ih =>
    rw [addFrom, add, nodesOfAll_cons]
    cases hcheck : op.check pass with
    | ok =>
      rw [check_eq_verdict] at hcheck
      rw [verdict_append_of_ok hcheck]
      exact ih
    | error cause =>
      rw [check_eq_verdict] at hcheck
      rw [verdict_append_of_error hcheck]
      simp

theorem exists_build_iff {c : Circuit} {pass : String} :
    (∃ l, build c pass = .ok l) ↔ ∀ op ∈ nodesOfAll c.ops, op.isWellFormed = true := by
  rw [← @verdict_eq_ok_iff pass]
  cases hbuild : build c pass with
  | ok l =>
    have hnone : ∀ e, verdict pass (nodesOfAll c.ops) ≠ .error e := by
      intro e he
      rw [build, addFrom_eq_error_iff.2 he] at hbuild
      cases hbuild
    cases hverdict : verdict pass (nodesOfAll c.ops) with
    | ok => simp
    | error e => exact absurd hverdict (hnone e)
  | error e =>
    rw [addFrom_eq_error_iff.1 hbuild]
    simp

/-- The lanes of a circuit can be built exactly if each of its nodes is well formed. If not,
the fault of the first such node is reported, a compound coming before its children. If so,
the lane of a qubit has, in ascending order, the slots of the operations that act on it. -/
theorem build_exact (c : Circuit) (pass : String) :
    ((∃ l, build c pass = .ok l) ↔ ∀ op ∈ nodesOfAll c.ops, op.isWellFormed = true) ∧
      (∀ e, build c pass = .error e ↔ ∃ before op after,
        nodesOfAll c.ops = before ++ op :: after ∧ (∀ o ∈ before, o.isWellFormed = true) ∧
          op.isWellFormed = false ∧ e = op.fault pass) ∧
      (∀ l, build c pass = .ok l → ∀ q, (l.lane q).Pairwise (· < ·) ∧
        ∀ i, i ∈ l.lane q ↔ ∃ op, c.ops[i]? = some op ∧ op.actsOn q = true) ∧
      ((∀ op ∈ c.ops, op.validate = .ok ()) → ∃ l, build c pass = .ok l) := by
  refine ⟨exists_build_iff, fun e => ?_, fun l hbuild q => ?_, exists_build pass⟩
  · rw [build, addFrom_eq_error_iff, verdict_eq_error_iff]
  · have hlane : l.lane q = slotsOn q 0 c.ops := by
      rw [lane, stack_build hbuild, List.reverse_reverse]
    rw [hlane]
    exact ⟨sorted_slotsOn q 0 c.ops, fun i => mem_slotsOn⟩

/-- Operations at three depths, among them a discarded effect and an empty compound. -/
def nested : Circuit :=
  { Circuit.withSize "nested" 3 1 with
    ops := [.gate (.cnot ⟨0⟩ ⟨1⟩),
      .compound [.compound [.gate (.ofKind .h [⟨2⟩])], .effect ⟨.measure, [⟨1⟩], [⟨0⟩]⟩],
      .conditional ⟨.single ⟨0⟩, 1⟩ (.gate (.cnot ⟨0⟩ ⟨2⟩)), .compound [],
      .effect ⟨.i, [⟨0⟩], []⟩] }

/-- A condition on a compound stands in front of a gate of the wrong kind, both inside a
compound. -/
def misplaced : Circuit :=
  { Circuit.withSize "misplaced" 1 1 with
    ops := [.gate (.ofKind .x [⟨0⟩]),
      .compound [.compound [.conditional ⟨.single ⟨0⟩, 1⟩ (.compound [])],
        .gate (.ofKind .measure [⟨0⟩])]] }

theorem build_exact_nested :
    (∀ op ∈ nested.ops, op.validate = .ok ()) ∧
      (∃ l, build nested "lanes" = .ok l ∧ l.lane ⟨0⟩ = [0, 2, 4] ∧
        (l.lane ⟨0⟩).Pairwise (· < ·) ∧
        ∀ i, i ∈ l.lane ⟨0⟩ ↔ ∃ op, nested.ops[i]? = some op ∧ op.actsOn ⟨0⟩ = true) ∧
      build misplaced "lanes" = .error (.conditionOn .compound) ∧
      ∃ before op after, nodesOfAll misplaced.ops = before ++ op :: after ∧
        (∀ o ∈ before, o.isWellFormed = true) ∧ op.isWellFormed = false ∧
          .conditionOn .compound = op.fault "lanes" := by
  have hvalid : ∀ op ∈ nested.ops, op.validate = .ok () := by decide
  have hrows : build nested "lanes" = .ok ⟨[[4, 2, 0], [1, 0], [2, 1]]⟩ := by decide
  have herror : build misplaced "lanes" = .error (.conditionOn .compound) := by decide
  obtain ⟨-, -, hlane, hsucceeds⟩ := build_exact nested "lanes"
  obtain ⟨l, hbuild⟩ := hsucceeds hvalid
  obtain rfl : _ = l := Except.ok.inj (hrows.symm.trans hbuild)
  exact ⟨hvalid, ⟨_, hbuild, by decide, hlane _ hbuild ⟨0⟩⟩, herror,
    ((build_exact misplaced "lanes").2.1 _).1 herror⟩

end Lanes
end QuantumCircuit
