import Mathlib.Data.Finset.Defs
import Mathlib.Data.List.Forall2
import QuantumCircuit.Proofs.Leaves

/-! Marks on leaves. A pass that turns leaves into identities and then sweeps up identities
removes the leaves that have become one and keeps the others as they are, in order. -/
namespace QuantumCircuit
namespace Operation

variable {as bs ops ops' : List Operation} {op op' : Operation}

/-- A leaf stays as it is or becomes an identity. -/
def Fades (a a' : Operation) : Prop := a' = a ∨ a'.isIdentity = true

/-- The leaves of an operation, each with whether it is an identity in the changed one. -/
def marks (op op' : Operation) : List (Operation × Bool) :=
  List.zipWith (fun a a' => (a, a'.isIdentity)) op.leaves op'.leaves

theorem map_fst_zipWith_fades (h : List.Forall₂ Fades as bs) :
    (List.zipWith (fun a a' => (a, a'.isIdentity)) as bs).map (·.1) = as := by
  induction h with
  | nil => rfl
  | cons _ _ ih => rw [List.zipWith_cons_cons, List.map_cons, ih]

/-- What stays is as it was. -/
theorem kept_zipWith_fades (h : List.Forall₂ Fades as bs) :
    ((List.zipWith (fun a a' => (a, a'.isIdentity)) as bs).filter (!·.2)).map (·.1) =
      bs.filter (!·.isIdentity) := by
  induction h with
  | nil => rfl
  | @cons a b as bs hfades _ ih =>
    rw [List.zipWith_cons_cons]
    by_cases hid : b.isIdentity = true
    · rw [List.filter_cons_of_neg (by simp [hid]), List.filter_cons_of_neg (by simp [hid]), ih]
    · obtain rfl := hfades.resolve_right hid
      rw [List.filter_cons_of_pos (by simp [hid]), List.filter_cons_of_pos (by simp [hid]),
        List.map_cons, ih]

theorem mem_marks {m : Operation × Bool} (h : m ∈ marks op op') :
    ∃ (i : Nat) (a' : Operation), op.leaves[i]? = some m.1 ∧ op'.leaves[i]? = some a' ∧
      m.2 = a'.isIdentity := by
  obtain ⟨i, hi⟩ := List.mem_iff_getElem?.1 h
  obtain ⟨a, a', ha, ha', rfl⟩ := List.getElem?_zipWith_eq_some.1 hi
  exact ⟨i, a', ha, ha', rfl⟩

/-! ## Lists of operations -/

/-- Every leaf of every operation stays as it is or becomes an identity. -/
def FadeAll (ops ops' : List Operation) : Prop :=
  List.Forall₂ (fun op op' => List.Forall₂ Fades op.leaves op'.leaves) ops ops'

theorem map_marks (h : FadeAll ops ops') :
    (List.zipWith marks ops ops').map (·.map (·.1)) = ops.map leaves := by
  induction h with
  | nil => rfl
  | cons hop _ ih =>
    rw [List.zipWith_cons_cons, List.map_cons, List.map_cons, ih, marks, map_fst_zipWith_fades hop]

theorem flatten_marks (h : FadeAll ops ops') :
    (List.zipWith marks ops ops').flatten.map (·.1) = leavesOfAll ops := by
  rw [List.map_flatten, map_marks h, leavesOfAll_eq, List.flatMap_def]

/-- Sweeping up identities keeps exactly the leaves without a mark. -/
theorem leavesOfAll_stripAll_marks (h : FadeAll ops ops') :
    leavesOfAll (stripAll ops') =
      ((List.zipWith marks ops ops').flatten.filter (!·.2)).map (·.1) := by
  rw [leavesOfAll_stripAll]
  induction h with
  | nil => rfl
  | cons hop _ ih =>
    rw [leavesOfAll_cons, List.filter_append, List.zipWith_cons_cons, List.flatten_cons,
      List.filter_append, List.map_append, ih, marks, kept_zipWith_fades hop]

/-- A list of marks belongs to one of the operations. -/
theorem exists_of_mem_zipWith_marks {ms : List (Operation × Bool)}
    (h : ms ∈ List.zipWith marks ops ops') :
    ∃ (i : Nat) (op op' : Operation), ops[i]? = some op ∧ ops'[i]? = some op' ∧
      ms = marks op op' := by
  obtain ⟨i, hi⟩ := List.mem_iff_getElem?.1 h
  obtain ⟨op, op', hop, hop', rfl⟩ := List.getElem?_zipWith_eq_some.1 hi
  exact ⟨i, op, op', hop, hop', rfl⟩

/-- An entry of the flattened lists stands in one of them, and the lists behind it follow. -/
theorem flatten_cut {α : Type} {xss : List (List α)} {before rest : List α} {a : α}
    (h : xss.flatten = before ++ a :: rest) :
    ∃ (k : Nat) (bs cs : List α), xss[k]? = some (bs ++ a :: cs) ∧
      rest = cs ++ (xss.drop (k + 1)).flatten := by
  induction xss generalizing before with
  | nil => simp at h
  | cons xs xss ih =>
    rw [List.flatten_cons] at h
    rcases List.append_eq_append_iff.1 h with ⟨as, -, hlater⟩ | ⟨as, hxs, hrest⟩
    · obtain ⟨k, bs, cs, hk, hcs⟩ := ih hlater
      exact ⟨k + 1, bs, cs, hk, hcs⟩
    · cases as with
      | nil =>
        have hlater : xss.flatten = [] ++ a :: rest := hrest.symm
        obtain ⟨k, bs, cs, hk, hcs⟩ := ih hlater
        exact ⟨k + 1, bs, cs, hk, hcs⟩
      | cons a' cs =>
        cases hrest
        exact ⟨0, before, cs, congrArg some hxs, rfl⟩

/-- Cutting a list at two places. -/
theorem drop_cut {α : Type} {xs : List α} {n m : Nat} {x : α} (h : xs[m]? = some x)
    (hnm : n ≤ m) : xs.drop n = (xs.take m).drop n ++ x :: xs.drop (m + 1) := by
  obtain ⟨hm, hx⟩ := List.getElem?_eq_some_iff.1 h
  rw [← hx, ← List.drop_eq_getElem_cons hm, ← List.drop_append_of_le_length,
    List.take_append_drop]
  rw [List.length_take]
  omega

theorem mem_flatten_drop {α : Type} {xss : List (List α)} {n : Nat} {a : α}
    (h : a ∈ (xss.drop n).flatten) : ∃ k xs, n ≤ k ∧ xss[k]? = some xs ∧ a ∈ xs := by
  obtain ⟨xs, hxs, ha⟩ := List.mem_flatten.1 h
  obtain ⟨k, hk⟩ := List.mem_iff_getElem?.1 hxs
  rw [List.getElem?_drop] at hk
  exact ⟨n + k, xs, Nat.le_add_right n k, hk, ha⟩

/-! ## Slots -/

/-- Sweeping up identities among operations that are as they were, or identities at the slots
of a set. -/
theorem filter_eq_of_same {R : Finset Nat} {k : Nat} (hlength : ops'.length = ops.length)
    (h : ∀ i op op', ops[i]? = some op → ops'[i]? = some op' →
      k + i ∈ R ∧ op'.isIdentity = true ∨ k + i ∉ R ∧ op' = op) :
    ops'.filter (!·.isIdentity) =
      ((ops.zipIdx k).filter fun p => p.2 ∉ R ∧ p.1.isIdentity = false).map (·.1) := by
  induction ops generalizing ops' k with
  | nil =>
    rw [List.eq_nil_of_length_eq_zero hlength]
    rfl
  | cons op rest ih =>
    cases ops' with
    | nil => cases hlength
    | cons op' rest' =>
      have hrest := ih (k := k + 1) (Nat.succ.inj hlength) fun i o o' ho ho' => by
        have hstep := h (i + 1) o o' ho ho'
        rwa [← Nat.add_assoc, Nat.add_right_comm] at hstep
      rw [List.zipIdx_cons]
      rcases h 0 op op' rfl rfl with ⟨hmem, hid⟩ | ⟨hmem, rfl⟩
      · rw [List.filter_cons_of_neg (by simp [hid]), hrest,
          List.filter_cons_of_neg (by simpa using fun hk => absurd hmem hk)]
      · by_cases hid : op'.isIdentity = true
        · rw [List.filter_cons_of_neg (by simp [hid]), hrest,
            List.filter_cons_of_neg (by simp [hid])]
        · rw [List.filter_cons_of_pos (by simp [hid]), hrest,
            List.filter_cons_of_pos (by simpa [hid] using hmem), List.map_cons]

end Operation
end QuantumCircuit
