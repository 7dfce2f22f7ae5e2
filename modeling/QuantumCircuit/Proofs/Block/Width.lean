import Mathlib.Data.Finset.Card
import Mathlib.Data.Finset.Union
import QuantumCircuit.Proofs.Block.Release

/-! How many qubits the blocks have. A block is the set of qubits that share a root. Writing
blocks only splits them, and merging the blocks of some qubits makes one block of no more
qubits than these blocks had together. -/
namespace QuantumCircuit
namespace BlockTracker

variable {t t' u : BlockTracker} {q r x y a b : Qubit} {l : List Qubit} {limit : Nat}

/-! ## Blocks as sets -/

/-- The qubits of the block of a qubit. -/
def block (t : BlockTracker) (q : Qubit) : Finset Qubit :=
  insert (t.root q) (t.membersOf (t.root q)).toFinset

theorem Valid.membersOf_unknown (h : t.Valid) (hq : ¬ t.Knows q) : t.membersOf q = [] := by
  cases hm : t.members.get? q with
  | none => simp [membersOf, hm]
  | some ms => exact absurd (by rw [Knows, h.members_root hm]; rfl) hq

theorem Valid.mem_block (h : t.Valid) : x ∈ t.block q ↔ t.root x = t.root q := by
  rw [block, Finset.mem_insert, List.mem_toFinset]
  by_cases hq : t.Knows q
  · rw [(membersOf_iff h (h.leadsTo_root hq).isRoot).2]
    constructor
    · rintro (rfl | hx)
      · exact h.root_root q
      · exact h.root_eq hx
    · intro hx
      exact .inr (hx ▸ h.leadsTo_root (h.knows_of_root_eq hx hq))
  · -- nothing points at a qubit that is not known
    rw [root_of_unknown hq, h.membersOf_unknown hq]
    constructor
    · rintro (rfl | hx)
      · exact root_of_unknown hq
      · cases hx
    · intro hx
      by_cases hx' : t.Knows x
      · exact absurd (hx ▸ h.knows_root hx') hq
      · exact .inl ((root_of_unknown hx').symm.trans hx)

theorem Valid.block_root (h : t.Valid) (q : Qubit) : t.block (t.root q) = t.block q := by
  rw [block, block, h.root_root]

theorem Valid.size_eq_card (h : t.Valid) (hr : t.root r = r) : t.size r = (t.block r).card := by
  rw [size, block, hr]
  cases hm : t.members.get? r with
  | none => simp [membersOf, hm]
  | some ms =>
    obtain ⟨hnodup, hmem⟩ := h.members_iff hm
    have hin : r ∈ ms := (hmem r).2 (.root (h.members_root hm))
    simp [membersOf, hm, hin, List.toFinset_card_of_nodup hnodup]

/-- The blocks of some qubits, taken together. -/
def gathered (t : BlockTracker) (l : List Qubit) : Finset Qubit := l.toFinset.biUnion t.block

theorem Valid.mem_gathered (h : t.Valid) :
    x ∈ t.gathered l ↔ ∃ u ∈ l, t.root x = t.root u := by
  simp [gathered, h.mem_block]

@[simp] theorem gathered_cons (t : BlockTracker) (q : Qubit) (l : List Qubit) :
    t.gathered (q :: l) = t.block q ∪ t.gathered l := by
  simp [gathered, Finset.biUnion_insert]

theorem card_gathered_pair_le (t : BlockTracker) (a b : Qubit) :
    (t.gathered [a, b]).card ≤ (t.block a).card + (t.block b).card := by
  have hpair : t.gathered [a, b] = t.block a ∪ t.block b := by simp [gathered]
  rw [hpair]
  exact Finset.card_union_le _ _

@[simp] theorem gathered_snoc (t : BlockTracker) (l : List Qubit) (q : Qubit) :
    t.gathered (l ++ [q]) = t.gathered l ∪ t.block q := by
  simp [gathered, Finset.biUnion_insert, Finset.union_comm]

/-- The sizes of distinct blocks add up. -/
theorem Valid.foldl_size (h : t.Valid) (hnodup : l.Nodup) (hroot : ∀ r ∈ l, t.root r = r)
    (k : Nat) : l.foldl (fun n root => n + t.size root) k = k + (t.gathered l).card := by
  induction l generalizing k with
  | nil => rfl
  | cons r rest ih =>
    have hr := hroot r List.mem_cons_self
    have hrest : ∀ s ∈ rest, t.root s = s := fun s hs => hroot s (List.mem_cons_of_mem _ hs)
    obtain ⟨hnew, hnodup'⟩ := List.nodup_cons.1 hnodup
    have hdisjoint : Disjoint (t.block r) (t.gathered rest) := by
      rw [Finset.disjoint_left]
      intro x hx hx'
      obtain ⟨s, hs, hxs⟩ := h.mem_gathered.1 hx'
      have hrs : r = s := by rw [← hr, ← h.mem_block.1 hx, hxs, hrest s hs]
      exact hnew (hrs ▸ hs)
    rw [List.foldl_cons, ih hnodup' hrest, gathered_cons, Finset.card_union_of_disjoint hdisjoint,
      h.size_eq_card hr, Nat.add_assoc]

/-- The total size of the blocks of some qubits, as it is computed. -/
theorem Valid.combined_eq (h : t.Valid) (used : List Qubit) :
    (OrderedSet.ofList (t.findAll used).1).toList.foldl
      (fun n root => n + (t.findAll used).2.size root) 0 = (t.gathered used).card := by
  obtain ⟨hvalid, hsame, hroots, -⟩ := h.findAll used
  have hmem : ∀ r, r ∈ (OrderedSet.ofList (t.findAll used).1).toList ↔
      ∃ u ∈ used, t.root u = r := by
    intro r
    rw [OrderedSet.mem_toList, OrderedSet.mem_ofList, hroots, List.mem_map]
  have hroot : ∀ r ∈ (OrderedSet.ofList (t.findAll used).1).toList,
      (t.findAll used).2.root r = r := by
    intro r hr
    obtain ⟨u, -, rfl⟩ := (hmem r).1 hr
    rw [hsame.root, h.root_root]
  rw [hvalid.foldl_size (OrderedSet.nodup _) hroot, Nat.zero_add]
  congr 1
  ext x
  rw [hvalid.mem_gathered, h.mem_gathered]
  simp only [hmem, hsame.root]
  constructor
  · rintro ⟨_, ⟨u, hu, rfl⟩, hx⟩
    exact ⟨u, hu, hx.trans (h.root_root u)⟩
  · rintro ⟨u, hu, hx⟩
    exact ⟨t.root u, ⟨u, hu, rfl⟩, hx.trans (h.root_root u).symm⟩

/-- The blocks of some qubits have room for them all. -/
theorem Valid.length_le_gathered (h : t.Valid) (hnodup : l.Nodup) :
    l.length ≤ (t.gathered l).card := by
  rw [← List.toFinset_card_of_nodup hnodup]
  refine Finset.card_le_card fun u hu => h.mem_gathered.2 ⟨u, List.mem_toFinset.1 hu, rfl⟩

/-- No block has more qubits than allowed. -/
def Narrow (limit : Nat) (t : BlockTracker) : Prop := ∀ q, (t.block q).card ≤ limit

theorem narrow_empty (h : 0 < limit) : Narrow limit {} := fun _ => h

/-! ## Splitting and merging -/

/-- Qubits of one block shared a block before, or their blocks were among those that have
been merged. -/
def Joins (t t' : BlockTracker) (l : List Qubit) : Prop :=
  ∀ ⦃x y : Qubit⦄, t'.root x = t'.root y →
    t.root x = t.root y ∨ x ∈ t.gathered l ∧ y ∈ t.gathered l

/-- Qubits of one block shared a block before. -/
def Refines (t t' : BlockTracker) : Prop :=
  ∀ ⦃x y : Qubit⦄, t'.root x = t'.root y → t.root x = t.root y

theorem Refines.trans (h : Refines t t') (h' : Refines t' u) : Refines t u :=
  fun _ _ hxy => h (h' hxy)

theorem SameBlocks.refines (h : SameBlocks t t') : Refines t t' := by
  intro x y hxy
  rwa [h.root, h.root] at hxy

theorem SameBlocks.block (h : SameBlocks t t') (hv : t.Valid) (hv' : t'.Valid) (q : Qubit) :
    t'.block q = t.block q := by
  ext x
  rw [hv'.mem_block, hv.mem_block, h.root, h.root]

theorem SameBlocks.gathered (h : SameBlocks t t') (hv : t.Valid) (hv' : t'.Valid)
    (l : List Qubit) : t'.gathered l = t.gathered l := by
  ext x
  rw [hv'.mem_gathered, hv.mem_gathered]
  simp only [h.root]

theorem Refines.block_subset (h : Refines t t') (hv : t.Valid) (hv' : t'.Valid) (q : Qubit) :
    t'.block q ⊆ t.block q :=
  fun _ hx => hv.mem_block.2 (h (hv'.mem_block.1 hx))

theorem Refines.gathered_subset (h : Refines t t') (hv : t.Valid) (hv' : t'.Valid)
    (l : List Qubit) : t'.gathered l ⊆ t.gathered l := by
  intro x hx
  obtain ⟨u, hu, hxu⟩ := hv'.mem_gathered.1 hx
  exact hv.mem_gathered.2 ⟨u, hu, h hxu⟩

theorem Narrow.refines (hn : Narrow limit t) (h : Refines t t') (hv : t.Valid) (hv' : t'.Valid) :
    Narrow limit t' :=
  fun q => (Finset.card_le_card (h.block_subset hv hv' q)).trans (hn q)

theorem Joins.block_subset_gathered (h : Joins t t' l) (hv : t.Valid) (hv' : t'.Valid)
    (hq : q ∈ t.gathered l) : t'.block q ⊆ t.gathered l := by
  intro x hx
  rcases h (hv'.mem_block.1 hx) with hxq | hin
  · obtain ⟨u, hu, hqu⟩ := hv.mem_gathered.1 hq
    exact hv.mem_gathered.2 ⟨u, hu, hxq.trans hqu⟩
  · exact hin.1

theorem Joins.block_subset (h : Joins t t' l) (hv : t.Valid) (hv' : t'.Valid)
    (hq : q ∉ t.gathered l) : t'.block q ⊆ t.block q := by
  intro x hx
  rcases h (hv'.mem_block.1 hx) with hxq | hin
  · exact hv.mem_block.2 hxq
  · exact absurd hin.2 hq

/-- Blocks that fit together may be merged. -/
theorem Narrow.joins (hn : Narrow limit t) (h : Joins t t' l) (hv : t.Valid) (hv' : t'.Valid)
    (hl : (t.gathered l).card ≤ limit) : Narrow limit t' := by
  intro q
  by_cases hq : q ∈ t.gathered l
  · exact (Finset.card_le_card (h.block_subset_gathered hv hv' hq)).trans hl
  · exact (Finset.card_le_card (h.block_subset hv hv' hq)).trans (hn q)

theorem Valid.union (h : t.Valid) (a b : Qubit) :
    (t.union a b).Valid ∧ Joins t (t.union a b) [a, b] ∧
      (t.union a b).pending.Perm t.pending := by
  obtain ⟨u, hvalid, hsame, -, -, hcases⟩ := h.union_cases a b
  rcases hcases with ⟨-, hunion⟩ | ⟨keep, gone, hne, hkeep, hgone, hunion, hroots⟩
  · rw [hunion, hsame.pending]
    exact ⟨hvalid, fun _ _ hxy => .inl (hsame.refines hxy), .refl _⟩
  · have hperm := pending_link u hne
    rw [hsame.pending] at hperm
    rw [hunion]
    refine ⟨hvalid.link hkeep hgone hne, ?_, hperm⟩
    have hin : ∀ {x : Qubit}, t.root x = keep ∨ t.root x = gone → x ∈ t.gathered [a, b] := by
      intro x hx
      rw [h.mem_gathered]
      rcases hroots with ⟨rfl, rfl⟩ | ⟨rfl, rfl⟩
      · simpa using hx
      · simpa using hx.symm
    intro x y hxy
    have hroot := root_link hvalid hkeep hgone hne
    rw [hroot, hroot, hsame.root, hsame.root] at hxy
    split at hxy
    · next hx =>
      split at hxy
      · next hy => exact .inl (hx.trans hy.symm)
      · exact .inr ⟨hin (.inr hx), hin (.inl hxy.symm)⟩
    · split at hxy
      · next hy => exact .inr ⟨hin (.inl hxy), hin (.inr hy)⟩
      · exact .inl hxy

theorem Valid.unionAll (h : t.Valid) (l : List Qubit) :
    (BlockState.unionAll t l).Valid ∧ Joins t (BlockState.unionAll t l) l ∧
      (BlockState.unionAll t l).pending.Perm t.pending := by
  fun_induction BlockState.unionAll t l with
  | case1 t a b rest ih =>
    obtain ⟨hvalid, hjoins, hperm⟩ := h.union a b
    obtain ⟨hvalid', hjoins', hperm'⟩ := ih hvalid
    refine ⟨hvalid', ?_, hperm'.trans hperm⟩
    have hpair : ∀ {x : Qubit}, x ∈ t.gathered [a, b] → x ∈ t.gathered (a :: b :: rest) := by
      intro x hx
      obtain ⟨v, hv, hxv⟩ := h.mem_gathered.1 hx
      exact h.mem_gathered.2 ⟨v, List.mem_append_left rest hv, hxv⟩
    -- a block that the later merges use is one of the old ones or the first merge made it
    have hlater : ∀ {x : Qubit}, x ∈ (t.union a b).gathered (b :: rest) →
        x ∈ t.gathered (a :: b :: rest) := by
      intro x hx
      obtain ⟨v, hv, hxv⟩ := hvalid.mem_gathered.1 hx
      rcases hjoins hxv with hold | hnew
      · exact h.mem_gathered.2 ⟨v, List.mem_cons_of_mem _ hv, hold⟩
      · exact hpair hnew.1
    intro x y hxy
    rcases hjoins' hxy with hold | ⟨hx, hy⟩
    · exact (hjoins hold).imp_right fun hin => ⟨hpair hin.1, hpair hin.2⟩
    · exact .inr ⟨hlater hx, hlater hy⟩
  | case2 t l _ => exact ⟨h, fun _ _ hxy => .inl hxy, .refl _⟩

end BlockTracker

namespace BlockState
variable {ops : List Operation} {n m limit : Nat} {s s' : BlockState}
open BlockTracker

/-! ## Writing blocks -/

/-- Writing the block of a qubit leaves its members alone; a block that has taken up nothing has
one member only. -/
theorem Steady.root_finalize (h : Steady ops n m s) (q x : Qubit) :
    (s.finalize q).tracker.root x =
      if s.tracker.root x = s.tracker.root q then x else s.tracker.root x := by
  rw [h.inv.root_finalize]
  by_cases hx : s.tracker.root x = s.tracker.root q
  · rw [if_pos hx]
    split
    · rfl
    · next hno =>
      refine h.settled x ?_
      rw [anchorOf, hx]
      by_contra hopen
      exact hno ⟨hx, hopen⟩
  · rw [if_neg hx, if_neg fun hboth => hx hboth.1]

theorem Steady.block_finalize (h : Steady ops n m s) (q x : Qubit) :
    (s.finalize q).tracker.block x =
      if s.tracker.root x = s.tracker.root q then {x} else s.tracker.block x := by
  have hvalid := h.inv.valid
  have hroot := h.root_finalize q
  ext y
  rw [(h.finalize q).inv.valid.mem_block, hroot, hroot]
  by_cases hx : s.tracker.root x = s.tracker.root q
  · rw [if_pos hx, if_pos hx, Finset.mem_singleton]
    split
    · rfl
    · next hy =>
      -- `x` is in the block that is written, and `y` is not
      have hne : s.tracker.root y ≠ x := by
        rintro rfl
        exact hy ((hvalid.root_root y).symm.trans hx)
      exact iff_of_false hne fun heq => hy (heq ▸ hx)
  · rw [if_neg hx, if_neg hx, hvalid.mem_block]
    split
    · next hy =>
      have hne : y ≠ s.tracker.root x := by
        rintro rfl
        exact hx ((hvalid.root_root x).symm.trans hy)
      exact iff_of_false hne fun heq => hx (heq.symm.trans hy)
    · rfl

theorem Steady.refines_finalize (h : Steady ops n m s) (q : Qubit) :
    Refines s.tracker (s.finalize q).tracker := by
  intro x y hxy
  have hvalid := h.inv.valid
  have hx : x ∈ (s.finalize q).tracker.block y := (h.finalize q).inv.valid.mem_block.2 hxy
  rw [h.block_finalize] at hx
  split at hx
  · rw [Finset.mem_singleton.1 hx]
  · exact hvalid.mem_block.1 hx

/-- A state that arises by looking up and writing blocks. -/
inductive Writes : BlockState → BlockState → Prop
  | none (s : BlockState) : Writes s s
  | look {s s' : BlockState} {t : BlockTracker} : t.Valid → SameBlocks s.tracker t →
      Writes { s with tracker := t } s' → Writes s s'
  | write {s s' : BlockState} (q : Qubit) : Writes (s.finalize q) s' → Writes s s'

theorem Writes.steady (hw : Writes s s') (h : Steady ops n m s) :
    Steady ops n m s' ∧ Refines s.tracker s'.tracker := by
  induction hw with
  | none => exact ⟨h, fun _ _ hxy => hxy⟩
  | look hvalid hsame _ ih =>
    obtain ⟨hs, href⟩ := ih (h.sameBlocks hvalid hsame)
    exact ⟨hs, hsame.refines.trans href⟩
  | write q _ ih =>
    obtain ⟨hs, href⟩ := ih (h.finalize q)
    exact ⟨hs, (h.refines_finalize q).trans href⟩

theorem writes_finalizeUntil (s : BlockState) (need : Nat) (r : Ranking) :
    Writes s (s.finalizeUntil need r) := by
  fun_induction BlockState.finalizeUntil s need r with
  | case1 s => exact .none s
  | case2 s => exact .none s
  | case3 s need root saving rest _ ih => exact .write root ih

theorem writes_finalize_all (s : BlockState) (qs : List Qubit) :
    Writes s (qs.foldl finalize s) := by
  induction qs generalizing s with
  | nil => exact .none s
  | cons q rest ih => exact .write q (ih _)

theorem finalizeBefore_cases (slot : Nat) (s : BlockState) (r : Qubit) :
    finalizeBefore slot s r = s.finalize r ∨ finalizeBefore slot s r = s := by
  unfold finalizeBefore
  split
  · split
    · exact .inl rfl
    · exact .inr rfl
  · exact .inr rfl

theorem writes_finalizeBefore_all (s : BlockState) (slot : Nat) (rs : List Qubit) :
    Writes s (rs.foldl (finalizeBefore slot) s) := by
  induction rs generalizing s with
  | nil => exact .none s
  | cons r rest ih =>
    have hrest := ih (finalizeBefore slot s r)
    rw [List.foldl_cons]
    rcases finalizeBefore_cases slot s r with hwrite | hskip
    · rw [hwrite] at hrest ⊢
      exact .write r hrest
    · rw [hskip] at hrest ⊢
      exact hrest

theorem Steady.writes_releaseStale (h : Steady ops n m s) (used : List Qubit) :
    Writes s (s.releaseStale used) := by
  obtain ⟨t, ht, hvalid, hsame, -⟩ := latestFixed_spec h.inv used none
  rw [BlockState.releaseStale]
  rcases hres : s.latestFixed used none with ⟨_ | slot, s'⟩ <;> rw [hres] at ht <;> cases ht
  · exact .look hvalid hsame (.none _)
  · obtain ⟨hvalid', hsame', -, -⟩ := hvalid.findAll used
    exact .look hvalid hsame (.look hvalid' hsame' (writes_finalizeBefore_all _ slot _))

end BlockState
end QuantumCircuit
