import QuantumCircuit.Block.Tracker
import QuantumCircuit.Proofs.Ordered

/-! Pointers that form a forest. From every known qubit they lead to a root, the
number of known qubits bounds the way, and shortening the way changes no root. -/
namespace QuantumCircuit
namespace BlockTracker

/-- Following the pointers from one qubit ends at another, which is a root. -/
inductive LeadsTo (parent : OrderedMap Qubit Qubit) : Qubit → Qubit → Prop
  | root {q : Qubit} : parent.get? q = some q → LeadsTo parent q q
  | step {q p r : Qubit} : parent.get? q = some p → p ≠ q → LeadsTo parent p r → LeadsTo parent q r

/-- Pointers lead to known qubits and do not run in circles. -/
structure Forest (parent : OrderedMap Qubit Qubit) : Prop where
  closed : ∀ {q p : Qubit}, parent.get? q = some p → (parent.get? p).isSome
  ranked : ∃ height : Qubit → Nat, ∀ {q p : Qubit},
    parent.get? q = some p → p ≠ q → height p < height q

variable {parent : OrderedMap Qubit Qubit} {q p r s x : Qubit}

theorem LeadsTo.isRoot (h : LeadsTo parent q r) : parent.get? r = some r := by
  induction h with
  | root hq => exact hq
  | step _ _ _ ih => exact ih

theorem LeadsTo.isKnown (h : LeadsTo parent q r) : (parent.get? q).isSome := by
  cases h with
  | root hq => simp [hq]
  | step hq => simp [hq]

theorem LeadsTo.unique (h : LeadsTo parent q r) (h' : LeadsTo parent q s) : r = s := by
  induction h with
  | root hq =>
    cases h' with
    | root => rfl
    | step hq' hne =>
      rw [hq] at hq'
      exact absurd (Option.some.inj hq').symm hne
  | step hq hne _ ih =>
    cases h' with
    | root hq' =>
      rw [hq] at hq'
      exact absurd (Option.some.inj hq') hne
    | step hq' _ hrest =>
      rw [hq] at hq'
      cases Option.some.inj hq'
      exact ih hrest

/-- A qubit and its pointer lead to the same root. -/
theorem LeadsTo.of_pointer (h : LeadsTo parent q r) (hq : parent.get? q = some p) :
    LeadsTo parent p r := by
  cases h with
  | root hroot =>
    rw [hroot] at hq
    cases Option.some.inj hq
    exact .root hroot
  | step hstep _ hrest =>
    rw [hstep] at hq
    cases Option.some.inj hq
    exact hrest

/-! ## The root -/

-- `seen` holds the qubits behind us. They are higher than `q`, so the chase
-- meets none of them again, and it has no more steps left than there are others.
theorem leadsTo_chase {height : Qubit → Nat} (hclosed : ∀ {q p : Qubit},
      parent.get? q = some p → (parent.get? p).isSome)
    (hheight : ∀ {q p : Qubit}, parent.get? q = some p → p ≠ q → height p < height q) :
    ∀ (n : Nat) (q : Qubit) (seen : List Qubit), (parent.get? q).isSome → seen.Nodup →
      (∀ x ∈ seen, (parent.get? x).isSome ∧ height q < height x) →
      parent.size ≤ n + seen.length → LeadsTo parent q (chase parent n q) := by
  intro n
  induction n with
  | zero =>
    intro q seen hq hnodup hseen hsize
    have hmem : q ∉ seen := fun hmem => Nat.lt_irrefl _ (hseen q hmem).2
    have hlen : (q :: seen).length ≤ parent.size := by
      refine OrderedMap.length_le_size (List.nodup_cons.2 ⟨hmem, hnodup⟩) ?_
      intro x hx
      rcases List.mem_cons.1 hx with rfl | hx
      · exact hq
      · exact (hseen x hx).1
    simp only [List.length_cons] at hlen
    omega
  | succ n ih =>
    intro q seen hq hnodup hseen hsize
    obtain ⟨p, hp⟩ := Option.isSome_iff_exists.1 hq
    rw [chase, hp]
    by_cases hpq : p = q
    · subst hpq
      simpa using LeadsTo.root hp
    · have hmem : q ∉ seen := fun hmem => Nat.lt_irrefl _ (hseen q hmem).2
      simp only [hpq, ↓reduceIte]
      refine .step hp hpq (ih p (q :: seen) (hclosed hp) (List.nodup_cons.2 ⟨hmem, hnodup⟩) ?_ ?_)
      · intro x hx
        have hlow := hheight hp hpq
        rcases List.mem_cons.1 hx with rfl | hx
        · exact ⟨hq, hlow⟩
        · exact ⟨(hseen x hx).1, Nat.lt_trans hlow (hseen x hx).2⟩
      · simp only [List.length_cons]
        omega

theorem Forest.leadsTo (h : Forest parent) (hq : (parent.get? q).isSome) :
    LeadsTo parent q (chase parent parent.size q) := by
  obtain ⟨height, hheight⟩ := h.ranked
  exact leadsTo_chase h.closed hheight _ q [] hq .nil (by simp) (by simp)

theorem Forest.chase_eq (h : Forest parent) (hq : LeadsTo parent q r) :
    chase parent parent.size q = r :=
  (h.leadsTo hq.isKnown).unique hq

theorem chase_of_unknown (hq : parent.get? q = none) (n : Nat) : chase parent n q = q := by
  cases n with
  | zero => rfl
  | succ n => rw [chase, hq]

theorem LeadsTo.height_le {height : Qubit → Nat} (hheight : ∀ {q p : Qubit},
      parent.get? q = some p → p ≠ q → height p < height q) (h : LeadsTo parent q r) :
    height r ≤ height q := by
  induction h with
  | root => exact Nat.le_refl _
  | step hq hne _ ih => exact Nat.le_trans ih (Nat.le_of_lt (hheight hq hne))

/-! ## New pointers -/

/-- Pointing a qubit at its own root changes no root. -/
theorem LeadsTo.insert_root (hq : LeadsTo parent q r) (hne : q ≠ r) (hx : LeadsTo parent x s) :
    LeadsTo (parent.insert q r) x s := by
  have hr : LeadsTo (parent.insert q r) r r :=
    .root (by rw [OrderedMap.get?_insert, if_neg (Ne.symm hne), hq.isRoot])
  induction hx with
  | @root x hroot =>
    have hxq : x ≠ q := by
      rintro rfl
      exact hne ((LeadsTo.root hroot).unique hq)
    exact .root (by rw [OrderedMap.get?_insert, if_neg hxq, hroot])
  | @step x p s hstep hpx hrest ih =>
    by_cases hxq : x = q
    · subst hxq
      have hs : s = r := (LeadsTo.step hstep hpx hrest).unique hq
      subst hs
      exact .step (by rw [OrderedMap.get?_insert, if_pos rfl]) (Ne.symm hne) hr
    · exact .step (by rw [OrderedMap.get?_insert, if_neg hxq, hstep]) hpx ih

theorem Forest.insert_root (h : Forest parent) (hq : LeadsTo parent q r) (hne : q ≠ r) :
    Forest (parent.insert q r) := by
  obtain ⟨height, hheight⟩ := h.ranked
  have hlow : height r < height q := by
    cases hq with
    | root => exact absurd rfl hne
    | step hstep hp hrest =>
      exact Nat.lt_of_le_of_lt (hrest.height_le hheight) (hheight hstep hp)
  refine ⟨?_, height, ?_⟩
  · intro x p hx
    rw [OrderedMap.get?_insert] at hx ⊢
    split
    · rfl
    · split at hx
      · cases Option.some.inj hx
        simp [hq.isRoot]
      · exact h.closed hx
  · intro x p hx hp
    rw [OrderedMap.get?_insert] at hx
    split at hx
    · next hxq =>
      cases Option.some.inj hx
      rw [hxq]
      exact hlow
    · exact hheight hx hp

theorem Forest.insert_self (h : Forest parent) (q : Qubit) : Forest (parent.insert q q) := by
  obtain ⟨height, hheight⟩ := h.ranked
  refine ⟨?_, height, ?_⟩
  · intro x p hx
    rw [OrderedMap.get?_insert] at hx ⊢
    split
    · rfl
    · next hp =>
      split at hx
      · exact absurd (Option.some.inj hx).symm hp
      · exact h.closed hx
  · intro x p hx hne
    rw [OrderedMap.get?_insert] at hx
    split at hx
    · next hxq => exact absurd ((Option.some.inj hx).symm.trans hxq.symm) hne
    · exact hheight hx hne

/-- Shortening the way to the root keeps the forest and all its roots. -/
theorem compress_keeps (n : Nat) (h : Forest parent) (hq : LeadsTo parent q r) :
    Forest (compress r n q parent) ∧
      (∀ {x s : Qubit}, LeadsTo parent x s → LeadsTo (compress r n q parent) x s) ∧
      ∀ x, ((compress r n q parent).get? x).isSome = (parent.get? x).isSome := by
  induction n generalizing q parent with
  | zero => exact ⟨h, id, fun _ => rfl⟩
  | succ n ih =>
    rw [compress]
    split
    · exact ⟨h, id, fun _ => rfl⟩
    · next hne =>
      obtain ⟨p, hp⟩ := Option.isSome_iff_exists.1 hq.isKnown
      have hnext : LeadsTo (parent.insert q r) p r := hq.insert_root hne (hq.of_pointer hp)
      rw [hp, Option.getD_some]
      obtain ⟨hforest, hleads, hknown⟩ := ih (h.insert_root hq hne) hnext
      refine ⟨hforest, fun hx => hleads (hq.insert_root hne hx), fun x => ?_⟩
      rw [hknown, OrderedMap.get?_insert]
      split
      · next hx =>
        subst hx
        simp [hp]
      · rfl

end BlockTracker
end QuantumCircuit
