import QuantumCircuit.Proofs.Block.Width

/-! Room for an operation. Writing a block frees its qubits on which the operation does not act.
The computed savings are the numbers of these qubits, and blocks are written until the blocks of
the operation fit together. -/
namespace QuantumCircuit
namespace BlockState
open BlockTracker

variable {ops : List Operation} {n m limit : Nat} {s : BlockState} {t t' : BlockTracker}
  {q r : Qubit} {used : List Qubit} {acc : Ranking}

/-! ## Savings -/

/-- The entries of a ranking are the roots of blocks of some qubits, each with the number of other
qubits in the block. A qubit whose block is not ranked shares it with these qubits only. -/
structure Freeing (t : BlockTracker) (used : List Qubit) (r : Ranking) : Prop where
  nodup : (r.map Prod.fst).Nodup
  root : ∀ e ∈ r, ∃ u ∈ used, t.root u = e.1
  saving : ∀ e ∈ r, e.2 = (t.block e.1 \ used.toFinset).card
  covers : ∀ u ∈ used, t.block u ⊆ used.toFinset ∨ ∃ e ∈ r, t.root u = e.1

theorem freeing_nil (t : BlockTracker) : Freeing t [] [] where
  nodup := List.nodup_nil
  root := by simp
  saving := by simp
  covers := by simp

theorem Freeing.congr (h : Freeing t used acc) (hroot : ∀ x, t'.root x = t.root x)
    (hblock : ∀ x, t'.block x = t.block x) : Freeing t' used acc where
  nodup := h.nodup
  root := by simpa only [hroot] using h.root
  saving := by simpa only [hblock] using h.saving
  covers := by simpa only [hroot, hblock] using h.covers

theorem Freeing.perm {acc' : Ranking} (h : Freeing t used acc) (hperm : acc'.Perm acc) :
    Freeing t used acc' where
  nodup := (hperm.map _).nodup_iff.2 h.nodup
  root e he := h.root e (hperm.mem_iff.1 he)
  saving e he := h.saving e (hperm.mem_iff.1 he)
  covers u hu := (h.covers u hu).imp_right fun ⟨e, he, hroot⟩ => ⟨e, hperm.mem_iff.2 he, hroot⟩

theorem Freeing.isRoot (h : Freeing t used acc) (hv : t.Valid) {e : Qubit × Nat} (he : e ∈ acc) :
    t.root e.1 = e.1 := by
  obtain ⟨u, -, hu⟩ := h.root e he
  rw [← hu, hv.root_root]

theorem toFinset_snoc (used : List Qubit) (q : Qubit) :
    (used ++ [q]).toFinset = insert q used.toFinset := by
  ext x
  simp

/-- One more qubit of the operation is one less to free in its block. -/
theorem card_sdiff_snoc (hv : t.Valid) (hr : t.root r = r) (hq : q ∉ used) :
    (t.block r \ (used ++ [q]).toFinset).card =
      if r = t.root q then (t.block r \ used.toFinset).card - 1
      else (t.block r \ used.toFinset).card := by
  rw [toFinset_snoc, Finset.sdiff_insert]
  split
  · next heq =>
    refine Finset.card_erase_of_mem (Finset.mem_sdiff.2 ⟨hv.mem_block.2 ?_, ?_⟩)
    · rw [hr, heq]
    · rwa [List.mem_toFinset]
  · next hne =>
    rw [Finset.erase_eq_of_notMem]
    intro hin
    have hroot := hv.mem_block.1 (Finset.mem_sdiff.1 hin).1
    exact hne (hr.symm.trans hroot.symm)

/-- The block of the next qubit is ranked. -/
theorem Freeing.spend (h : Freeing t used acc) (hv : t.Valid) (hq : q ∉ used)
    (hany : ∃ e ∈ acc, e.1 = t.root q) :
    Freeing t (used ++ [q])
      (acc.map fun e => if e.1 = t.root q then (e.1, e.2 - 1) else e) := by
  have hfst : ∀ e : Qubit × Nat,
      (if e.1 = t.root q then (e.1, e.2 - 1) else e).1 = e.1 := by
    intro e
    split <;> rfl
  have hranked : ∀ {x : Qubit}, (∃ e ∈ acc, t.root x = e.1) →
      ∃ e ∈ acc.map fun e => if e.1 = t.root q then (e.1, e.2 - 1) else e, t.root x = e.1 := by
    rintro x ⟨e, he, hx⟩
    exact ⟨_, List.mem_map_of_mem he, hx.trans (hfst e).symm⟩
  constructor
  · have hkeys : (acc.map fun e => if e.1 = t.root q then (e.1, e.2 - 1) else e).map Prod.fst =
        acc.map Prod.fst := by
      rw [List.map_map]
      exact List.map_congr_left fun e _ => hfst e
    rw [hkeys]
    exact h.nodup
  · intro e' he'
    obtain ⟨e, he, rfl⟩ := List.mem_map.1 he'
    obtain ⟨u, hu, hroot⟩ := h.root e he
    exact ⟨u, List.mem_append_left _ hu, hroot.trans (hfst e).symm⟩
  · intro e' he'
    obtain ⟨e, he, rfl⟩ := List.mem_map.1 he'
    rw [hfst, card_sdiff_snoc hv (h.isRoot hv he) hq, ← h.saving e he]
    split <;> rfl
  · intro u hu
    rcases List.mem_append.1 hu with hu | hu
    · rw [toFinset_snoc]
      exact (h.covers u hu).imp (fun hsub => hsub.trans (Finset.subset_insert _ _)) hranked
    · obtain ⟨e, he, heq⟩ := hany
      rw [List.mem_singleton.1 hu]
      exact .inr (hranked ⟨e, he, heq.symm⟩)

/-- If the block of the next qubit is not ranked, no earlier qubit is in it. -/
theorem Freeing.ne_root (h : Freeing t used acc) (hv : t.Valid) (hq : q ∉ used)
    (hnew : ∀ e ∈ acc, e.1 ≠ t.root q) {u : Qubit} (hu : u ∈ used) : t.root u ≠ t.root q := by
  intro hroot
  rcases h.covers u hu with hsub | ⟨e, he, hue⟩
  · exact hq (List.mem_toFinset.1 (hsub (hv.mem_block.2 hroot.symm)))
  · exact hnew e he (hue.symm.trans hroot)

theorem Freeing.add (h : Freeing t used acc) (hv : t.Valid) (hq : q ∉ used)
    (hnew : ∀ e ∈ acc, e.1 ≠ t.root q) :
    Freeing t (used ++ [q]) (acc ++ [(t.root q, t.size (t.root q) - 1)]) := by
  have hroot := hv.root_root q
  constructor
  · rw [List.map_append, List.nodup_append]
    refine ⟨h.nodup, List.nodup_singleton _, ?_⟩
    intro x hx y hy
    obtain ⟨e, he, rfl⟩ := List.mem_map.1 hx
    rw [List.map_singleton, List.mem_singleton] at hy
    exact hy ▸ hnew e he
  · intro e he
    rcases List.mem_append.1 he with he | he
    · obtain ⟨u, hu, hue⟩ := h.root e he
      exact ⟨u, List.mem_append_left _ hu, hue⟩
    · rw [List.mem_singleton.1 he]
      exact ⟨q, by simp, rfl⟩
  · intro e he
    rcases List.mem_append.1 he with he | he
    · rw [card_sdiff_snoc hv (h.isRoot hv he) hq, if_neg (hnew e he), h.saving e he]
    · rw [List.mem_singleton.1 he]
      have hdisjoint : Disjoint (t.block (t.root q)) used.toFinset := by
        rw [Finset.disjoint_right]
        intro u hu hin
        rw [hv.mem_block, hroot] at hin
        exact h.ne_root hv hq hnew (List.mem_toFinset.1 hu) hin
      rw [card_sdiff_snoc hv hroot hq, if_pos rfl, Finset.sdiff_eq_self_of_disjoint hdisjoint,
        hv.size_eq_card hroot]
  · intro u hu
    rcases List.mem_append.1 hu with hu | hu
    · rcases h.covers u hu with hsub | ⟨e, he, hue⟩
      · rw [toFinset_snoc]
        exact .inl (hsub.trans (Finset.subset_insert _ _))
      · exact .inr ⟨e, List.mem_append_left _ he, hue⟩
    · rw [List.mem_singleton.1 hu]
      exact .inr ⟨_, List.mem_append_right _ (List.mem_singleton_self _), rfl⟩

theorem Freeing.gathered_snoc (h : Freeing t used acc) (hv : t.Valid)
    (hany : ∃ e ∈ acc, e.1 = t.root q) : t.gathered (used ++ [q]) = t.gathered used := by
  obtain ⟨e, he, heq⟩ := hany
  obtain ⟨u, hu, hue⟩ := h.root e he
  rw [BlockTracker.gathered_snoc, Finset.union_eq_left]
  intro x hx
  exact hv.mem_gathered.2 ⟨u, hu, (hv.mem_block.1 hx).trans (hue.trans heq).symm⟩

theorem Freeing.card_gathered_snoc (h : Freeing t used acc) (hv : t.Valid) (hq : q ∉ used)
    (hnew : ∀ e ∈ acc, e.1 ≠ t.root q) :
    (t.gathered (used ++ [q])).card = (t.gathered used).card + t.size (t.root q) := by
  have hdisjoint : Disjoint (t.gathered used) (t.block q) := by
    rw [Finset.disjoint_left]
    intro x hx hx'
    obtain ⟨u, hu, hxu⟩ := hv.mem_gathered.1 hx
    exact h.ne_root hv hq hnew hu (hxu.symm.trans (hv.mem_block.1 hx'))
  rw [BlockTracker.gathered_snoc, Finset.card_union_of_disjoint hdisjoint,
    hv.size_eq_card (hv.root_root q), hv.block_root]

/-- The computed savings and the computed total. -/
theorem savings_spec (hv : t.Valid) {rest : List Qubit} (hnodup : (used ++ rest).Nodup)
    (hacc : Freeing t used acc) {total : Nat} (htotal : total = (t.gathered used).card) :
    Freeing t (used ++ rest) (savings t rest acc total).1.1 ∧
      (savings t rest acc total).1.2 = (t.gathered (used ++ rest)).card := by
  induction rest generalizing t used acc total with
  | nil =>
    rw [List.append_nil]
    exact ⟨hacc, htotal⟩
  | cons q rest ih =>
    obtain ⟨hvalid, hsame⟩ := hv.touch q
    have hblock := hsame.block hv hvalid
    have hgathered := hsame.gathered hv hvalid
    have htouched := hacc.congr hsame.root hblock
    rw [List.append_cons] at hnodup ⊢
    have hq : q ∉ used := by
      intro hq
      have hnodup' := (List.nodup_append.1 hnodup).1
      exact (List.nodup_append.1 hnodup').2.2 q hq q (List.mem_singleton_self q) rfl
    -- the rest works on the same blocks
    have hgo : ∀ {acc' : Ranking} {total' : Nat}, Freeing (t.touch q) (used ++ [q]) acc' →
        total' = ((t.touch q).gathered (used ++ [q])).card →
        Freeing t (used ++ [q] ++ rest) (savings (t.touch q) rest acc' total').1.1 ∧
          (savings (t.touch q) rest acc' total').1.2 =
            (t.gathered (used ++ [q] ++ rest)).card := by
      intro acc' total' hacc' htotal'
      obtain ⟨hfree, hsum⟩ := ih hvalid hnodup hacc' htotal'
      rw [hgathered] at hsum
      exact ⟨hfree.congr (fun x => (hsame.root x).symm) fun x => (hblock x).symm, hsum⟩
    rw [← hgathered] at htotal
    rcases savings_cons t q rest acc total with ⟨hany, heq⟩ | ⟨hnew, heq⟩
    · rw [← hsame.root q] at hany
      have hspend := htouched.spend hvalid hq hany
      rw [hsame.root] at hspend
      rw [heq]
      refine hgo hspend ?_
      rw [htouched.gathered_snoc hvalid hany, htotal]
    · rw [← hsame.root q] at hnew
      have hadd := htouched.add hvalid hq hnew
      have hcard := htouched.card_gathered_snoc hvalid hq hnew
      rw [hsame.root] at hadd hcard
      rw [heq]
      refine hgo hadd ?_
      rw [hcard, htotal]

/-! ## Writing until there is room -/

/-- Writing a ranked block leaves those of its qubits on which the operation acts. -/
theorem Freeing.finalize (h : Steady ops n m s) {root : Qubit} {saving : Nat} {rest : Ranking}
    (hr : Freeing s.tracker used ((root, saving) :: rest)) :
    Freeing (s.finalize root).tracker used rest := by
  have hv := h.inv.valid
  have hroot : s.tracker.root root = root := hr.isRoot hv List.mem_cons_self
  have hnodup := List.nodup_cons.1 hr.nodup
  have hother : ∀ e ∈ rest, e.1 ≠ root := by
    rintro e he rfl
    exact hnodup.1 (List.mem_map.2 ⟨e, he, rfl⟩)
  constructor
  · exact hnodup.2
  · intro e he
    obtain ⟨u, hu, hue⟩ := hr.root e (List.mem_cons_of_mem _ he)
    refine ⟨u, hu, ?_⟩
    rw [h.root_finalize, hroot, hue, if_neg (hother e he)]
  · intro e he
    have he' := List.mem_cons_of_mem (root, saving) he
    rw [h.block_finalize, hroot, hr.isRoot hv he', if_neg (hother e he), hr.saving e he']
  · intro u hu
    rw [h.block_finalize, h.root_finalize, hroot]
    by_cases hin : s.tracker.root u = root
    · rw [if_pos hin, Finset.singleton_subset_iff, List.mem_toFinset]
      exact .inl hu
    · rw [if_neg hin, if_neg hin]
      rcases hr.covers u hu with hsub | ⟨e, he, hue⟩
      · exact .inl hsub
      · rcases List.mem_cons.1 he with rfl | he
        · exact absurd hue hin
        · exact .inr ⟨e, he, hue⟩

theorem Freeing.card_gathered_finalize (h : Steady ops n m s) {root : Qubit} {saving : Nat}
    {rest : Ranking} (hr : Freeing s.tracker used ((root, saving) :: rest)) :
    ((s.finalize root).tracker.gathered used).card + saving ≤
      (s.tracker.gathered used).card := by
  have hv := h.inv.valid
  have hroot : s.tracker.root root = root := hr.isRoot hv List.mem_cons_self
  have hfreed : s.tracker.block root \ used.toFinset ⊆ s.tracker.gathered used := by
    intro x hx
    obtain ⟨u, hu, hue⟩ := hr.root _ List.mem_cons_self
    have hxr := hv.mem_block.1 (Finset.mem_sdiff.1 hx).1
    exact hv.mem_gathered.2 ⟨u, hu, (hxr.trans hroot).trans hue.symm⟩
  have hkept : (s.finalize root).tracker.gathered used ⊆
      s.tracker.gathered used \ (s.tracker.block root \ used.toFinset) := by
    intro x hx
    obtain ⟨u, hu, hxu⟩ := (h.finalize root).inv.valid.mem_gathered.1 hx
    have hin := (h.finalize root).inv.valid.mem_block.2 hxu
    refine Finset.mem_sdiff.2 ⟨hv.mem_gathered.2 ⟨u, hu, h.refines_finalize root hxu⟩, ?_⟩
    rw [Finset.mem_sdiff, not_and, not_not]
    intro hxr
    -- the block of `u` has been written, or it has nothing to do with that of `root`
    rw [h.block_finalize] at hin
    split at hin
    · rw [Finset.mem_singleton.1 hin, List.mem_toFinset]
      exact hu
    · next hne => exact absurd ((hv.mem_block.1 hin).symm.trans (hv.mem_block.1 hxr)) hne
  have hcard := Finset.card_le_card hkept
  rw [Finset.card_sdiff_of_subset hfreed, ← hr.saving _ List.mem_cons_self] at hcard
  have hle := Finset.card_le_card hfreed
  rw [← hr.saving _ List.mem_cons_self] at hle
  dsimp only at hcard hle
  omega

/-- Blocks are written until what is needed has been freed; once all are written, only the qubits
of the operation are left. -/
theorem Steady.card_gathered_finalizeUntil {need : Nat} (h : Steady ops n m s)
    (hr : Freeing s.tracker used acc) (hused : used.length ≤ limit)
    (hneed : (s.tracker.gathered used).card ≤ limit + need) :
    ((s.finalizeUntil need acc).tracker.gathered used).card ≤ limit := by
  fun_induction BlockState.finalizeUntil s need acc with
  | case1 s need =>
    have hsub : s.tracker.gathered used ⊆ used.toFinset := by
      intro x hx
      obtain ⟨u, hu, hxu⟩ := h.inv.valid.mem_gathered.1 hx
      rcases hr.covers u hu with hsub | ⟨e, he, -⟩
      · exact hsub (h.inv.valid.mem_block.2 hxu)
      · cases he
    exact (Finset.card_le_card hsub).trans ((List.toFinset_card_le used).trans hused)
  | case2 => exact hneed
  | case3 s need root saving rest _ ih =>
    refine ih (h.finalize root) (hr.finalize h) ?_
    have hfreed := hr.card_gathered_finalize h
    omega

theorem Steady.card_gathered_finalizeBySavings (h : Steady ops n m s) (hnodup : used.Nodup)
    (hused : used.length ≤ limit) :
    ((s.finalizeBySavings limit used).tracker.gathered used).card ≤ limit := by
  have hv := h.inv.valid
  have hnodup' : ([] ++ used).Nodup := hnodup
  have hzero : 0 = (s.tracker.gathered []).card := rfl
  obtain ⟨hfree, htotal⟩ := savings_spec hv hnodup' (freeing_nil s.tracker) hzero
  obtain ⟨hvalid, hsame⟩ := savings_sameBlocks hv used [] 0
  have hranking := (hfree.perm (descending_perm _)).congr hsame.root (hsame.block hv hvalid)
  refine (h.sameBlocks hvalid hsame).card_gathered_finalizeUntil hranking hused ?_
  rw [List.nil_append] at htotal
  rw [htotal, hsame.gathered hv hvalid]
  omega

/-- The blocks of an operation that is not too wide fit together once room has been made. -/
theorem Steady.card_gathered_makeRoom (h : Steady ops n m s) (hnodup : used.Nodup)
    (hused : used.length ≤ limit) :
    ((BlockState.makeRoom limit s used).tracker.gathered used).card ≤ limit := by
  have hv := h.inv.valid
  obtain ⟨hvalid, hsame, -, -⟩ := hv.findAll used
  rw [BlockState.makeRoom]
  dsimp only
  rw [hv.combined_eq]
  split
  · rw [if_neg (Nat.not_lt.2 hused)]
    exact (h.sameBlocks hvalid hsame).card_gathered_finalizeBySavings hnodup hused
  · next hfits =>
    rw [hsame.gathered hv hvalid]
    exact Nat.not_lt.1 hfits

end BlockState
end QuantumCircuit
