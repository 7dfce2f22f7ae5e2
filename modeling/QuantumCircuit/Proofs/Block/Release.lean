import QuantumCircuit.Proofs.Block.Join

/-! Blocks written to make room. Before an operation joins, the blocks that lie
too early for it are written; before one that is too wide, all the blocks of its
qubits are, packed together first. -/
namespace QuantumCircuit
namespace BlockState
open Operation QuantumCircuit.Dynamic

variable {ops : List Operation} {n m : Nat} {s : BlockState}

/-- The state between two operations: qubits are alone unless a block holds
them. -/
structure Steady (ops : List Operation) (n m : Nat) (s : BlockState) : Prop where
  inv : Inv ops n m s
  settled : s.tracker.Settled

theorem Steady.sameBlocks {t : BlockTracker} (h : Steady ops n m s) (hvalid : t.Valid)
    (hsame : BlockTracker.SameBlocks s.tracker t) : Steady ops n m { s with tracker := t } :=
  ⟨h.inv.sameBlocks hvalid hsame, hsame.settled h.settled⟩

theorem Steady.finalize (h : Steady ops n m s) (q : Qubit) : Steady ops n m (s.finalize q) :=
  ⟨h.inv.finalize q, h.inv.settled_finalize h.settled q⟩

/-- Qubits without an open block share a root only if they are one. -/
theorem Steady.eq_of_root_eq (h : Steady ops n m s) {x y : Qubit}
    (hroot : s.tracker.root x = s.tracker.root y) (hx : s.tracker.anchorOf x = none) : x = y := by
  have hy : s.tracker.anchorOf y = none := by
    rw [BlockTracker.anchorOf, ← hroot]
    exact hx
  rw [← h.settled x hx, hroot, h.settled y hy]

/-! ## Blocks that lie too early -/

theorem isFresh_fst (h : Inv ops n m s) (q : Qubit) :
    (s.isFresh q).1 = true ↔ s.tracker.anchorOf q = none := by
  have hsame := (h.valid.touch q).2
  simp [isFresh, BlockTracker.find, OrderedMap.contains_eq_false, BlockTracker.anchorOf,
    hsame.anchors]

theorem latestFixed_spec (h : Inv ops n m s) (used : List Qubit) (acc : Option Nat) :
    ∃ t : BlockTracker, (s.latestFixed used acc).2 = { s with tracker := t } ∧ t.Valid ∧
      BlockTracker.SameBlocks s.tracker t ∧
      ∀ f, (acc = some f ∨ ∃ u ∈ used, s.tracker.anchorOf u = none ∧
        s.tracker.lastFixed.get? u = some f) →
        ∃ slot, (s.latestFixed used acc).1 = some slot ∧ f ≤ slot := by
  induction used generalizing s acc with
  | nil =>
    exact ⟨s.tracker, rfl, h.valid, .refl _,
      fun f hf => ⟨f, by simpa [latestFixed] using hf, Nat.le_refl f⟩⟩
  | cons q rest ih =>
    obtain ⟨hvalid, hsame⟩ := h.valid.touch q
    have hnext : (s.isFresh q).2 = { s with tracker := s.tracker.touch q } := rfl
    have hinv := h.sameBlocks hvalid hsame
    rw [← hnext] at hinv
    obtain ⟨t, ht, hvalid', hsame', hlatest⟩ := ih hinv
      (if (s.isFresh q).1 then
        BlockTracker.laterSlot? acc ((s.isFresh q).2.tracker.lastFixed.get? q) else acc)
    refine ⟨t, ht, hvalid', hsame.trans hsame', ?_⟩
    intro f hf
    -- a slot that goes into the new bound is below the final one
    have hbelow : ∀ g, (if (s.isFresh q).1 then
        BlockTracker.laterSlot? acc (s.tracker.lastFixed.get? q) else acc) = some g → f ≤ g →
        ∃ slot, (s.latestFixed (q :: rest) acc).1 = some slot ∧ f ≤ slot := by
      intro g hg hfg
      rw [← hsame.lastFixed] at hg
      obtain ⟨slot, hslot, hle⟩ := hlatest g (.inl hg)
      exact ⟨slot, hslot, Nat.le_trans hfg hle⟩
    rcases hf with hacc | ⟨u, hu, hfresh, hfixed⟩
    · by_cases hq : (s.isFresh q).1 = true
      · cases hlater : BlockTracker.laterSlot? acc (s.tracker.lastFixed.get? q) with
        | none => simp [(BlockTracker.laterSlot?_eq_none.1 hlater).1] at hacc
        | some g =>
          exact hbelow g (by rw [if_pos hq, hlater])
            ((BlockTracker.laterSlot?_eq_some hlater).2.1 hacc)
      · exact hbelow f (by rw [if_neg hq, hacc]) (Nat.le_refl f)
    · rcases List.mem_cons.1 hu with rfl | hu
      · have hq := (isFresh_fst h u).2 hfresh
        cases hlater : BlockTracker.laterSlot? acc (s.tracker.lastFixed.get? u) with
        | none => simp [(BlockTracker.laterSlot?_eq_none.1 hlater).2] at hfixed
        | some g =>
          exact hbelow g (by rw [if_pos hq, hlater])
            ((BlockTracker.laterSlot?_eq_some hlater).2.2 hfixed)
      · refine hlatest f (.inr ⟨u, hu, ?_, ?_⟩)
        · exact (hsame.anchorOf u).trans hfresh
        · rw [hnext, hsame.lastFixed, hfixed]

/-- Writing a block that is anchored before a slot: blocks that stay open are as
before, and what becomes fixed lies before the slot. -/
theorem Steady.finalizeBefore (h : Steady ops n m s) (slot : Nat) (r : Qubit) :
    Steady ops n m (finalizeBefore slot s r) ∧
      (∀ {x : Qubit} {a : Nat}, (BlockState.finalizeBefore slot s r).tracker.anchorOf x = some a →
        s.tracker.anchorOf x = some a ∧
          (BlockState.finalizeBefore slot s r).tracker.root x = s.tracker.root x ∧
          (s.tracker.root x = r → slot ≤ a)) ∧
      ∀ {x : Qubit} {f : Nat}, (BlockState.finalizeBefore slot s r).tracker.anchorOf x = none →
        (BlockState.finalizeBefore slot s r).tracker.lastFixed.get? x = some f →
        (s.tracker.anchorOf x = none ∧ s.tracker.lastFixed.get? x = some f) ∨ f < slot := by
  rw [BlockState.finalizeBefore]
  cases hr : s.tracker.anchors.get? r with
  | none =>
    refine ⟨h, ?_, fun hx hf => .inl ⟨hx, hf⟩⟩
    intro x a ha
    refine ⟨ha, rfl, fun hx => ?_⟩
    rw [BlockTracker.anchorOf, hx, hr] at ha
    cases ha
  | some b =>
    have hroot : s.tracker.root r = r := h.inv.valid.root_of_root (h.inv.valid.anchor_root hr)
    have hanchor : s.tracker.anchorOf r = some b := h.inv.valid.anchorOf_of_anchor hr
    dsimp only
    split
    · next hlt =>
      refine ⟨h.finalize r, ?_, ?_⟩
      · intro x a ha
        rw [h.inv.anchorOf_finalize, hroot] at ha
        split at ha
        · cases ha
        · next hx =>
          refine ⟨ha, ?_, fun hxr => absurd hxr hx⟩
          rw [h.inv.root_finalize, hroot, if_neg fun hboth => hx hboth.1]
      · intro x f hx hf
        rw [h.inv.anchorOf_finalize, hroot] at hx
        rw [h.inv.lastFixed_finalize, hroot, hanchor] at hf
        split at hf
        · cases Option.some.inj hf
          exact .inr hlt
        · next hxr =>
          rw [if_neg hxr] at hx
          exact .inl ⟨hx, hf⟩
    · next hge =>
      refine ⟨h, ?_, fun hx hf => .inl ⟨hx, hf⟩⟩
      intro x a ha
      refine ⟨ha, rfl, fun hx => ?_⟩
      rw [BlockTracker.anchorOf, hx, hr] at ha
      cases Option.some.inj ha
      omega

theorem Steady.finalizeBefore_all (h : Steady ops n m s) (slot : Nat) (rs : List Qubit) :
    Steady ops n m (rs.foldl (BlockState.finalizeBefore slot) s) ∧
      (∀ {x : Qubit} {a : Nat},
        (rs.foldl (BlockState.finalizeBefore slot) s).tracker.anchorOf x = some a →
        s.tracker.anchorOf x = some a ∧ (s.tracker.root x ∈ rs → slot ≤ a)) ∧
      ∀ {x : Qubit} {f : Nat},
        (rs.foldl (BlockState.finalizeBefore slot) s).tracker.anchorOf x = none →
        (rs.foldl (BlockState.finalizeBefore slot) s).tracker.lastFixed.get? x = some f →
        (s.tracker.anchorOf x = none ∧ s.tracker.lastFixed.get? x = some f) ∨ f < slot := by
  induction rs generalizing s with
  | nil => exact ⟨h, fun ha => ⟨ha, by simp⟩, fun hx hf => .inl ⟨hx, hf⟩⟩
  | cons r rest ih =>
    obtain ⟨hone, hkept, hnew⟩ := h.finalizeBefore slot r
    obtain ⟨hall, hkept', hnew'⟩ := ih hone
    refine ⟨hall, ?_, ?_⟩
    · intro x a ha
      obtain ⟨ha₁, hrest⟩ := hkept' ha
      obtain ⟨ha₀, hroot, hr⟩ := hkept ha₁
      refine ⟨ha₀, fun hx => ?_⟩
      rcases List.mem_cons.1 hx with hx | hx
      · exact hr hx
      · exact hrest (hroot ▸ hx)
    · intro x f hx hf
      rcases hnew' hx hf with ⟨hx₁, hf₁⟩ | hlt
      · exact hnew hx₁ hf₁
      · exact .inr hlt

/-- After the release the blocks of the qubits can become one. -/
theorem Steady.releaseStale (h : Steady ops n m s) (used : List Qubit) :
    Steady ops n m (s.releaseStale used) ∧ Compatible (s.releaseStale used).tracker used := by
  obtain ⟨t, ht, hvalid, hsame, hlatest⟩ := latestFixed_spec h.inv used none
  have hs := h.sameBlocks hvalid hsame
  -- one qubit is new to the blocks: then it is one of the given ones
  have hsuffices : ∀ {s' : BlockState}, Steady ops n m s' →
      (∀ {u v : Qubit} {f a : Nat}, u ∈ used → v ∈ used → s'.tracker.anchorOf u = none →
        s'.tracker.lastFixed.get? u = some f → s'.tracker.anchorOf v = some a → f ≤ a) →
      Compatible s'.tracker used := by
    intro s' hs' hle x u v f a hu hv hroot hnone hf ha
    cases hs'.eq_of_root_eq hroot hnone
    obtain ⟨-, op, hfilled⟩ := hs'.inv.fixed hf
    have hempty := (hs'.inv.anchor ha).2
    -- the fixed slot is filled and the anchor is empty, so they differ
    refine Nat.lt_of_le_of_ne (hle hu hv hnone hf ha) ?_
    rintro rfl
    rw [hfilled] at hempty
    cases hempty
  rw [BlockState.releaseStale]
  rcases hres : s.latestFixed used none with ⟨_ | slot, s'⟩ <;> rw [hres] at ht hlatest <;>
    cases ht
  · refine ⟨hs, hsuffices hs ?_⟩
    intro u v f a hu hv hnone hf ha
    rw [hsame.lastFixed] at hf
    obtain ⟨slot, hslot, -⟩ := hlatest f (.inr ⟨u, hu, (hsame.anchorOf u).symm.trans hnone, hf⟩)
    cases hslot
  · obtain ⟨hvalid', hsame', hroots, -⟩ := hvalid.findAll used
    obtain ⟨hall, hkept, hnew⟩ := (hs.sameBlocks hvalid' hsame').finalizeBefore_all slot
      (OrderedSet.ofList (t.findAll used).1).toList
    refine ⟨hall, hsuffices hall ?_⟩
    intro u v f a hu hv hnone hf ha
    have hslot : f ≤ slot := by
      rcases hnew hnone hf with ⟨hnone', hf'⟩ | hlt
      · have hsame'' := hsame.trans hsame'
        rw [hsame''.anchorOf] at hnone'
        rw [hsame''.lastFixed] at hf'
        obtain ⟨slot', hslot', hle⟩ := hlatest f (.inr ⟨u, hu, hnone', hf'⟩)
        cases hslot'
        exact hle
      · exact Nat.le_of_lt hlt
    have hmem : (t.findAll used).2.root v ∈ (OrderedSet.ofList (t.findAll used).1).toList := by
      rw [OrderedSet.mem_toList, OrderedSet.mem_ofList, hroots, hsame'.root]
      exact List.mem_map_of_mem hv
    exact Nat.le_trans hslot ((hkept ha).2 hmem)

/-! ## Blocks packed together -/

/-- Two open blocks become one; other blocks stay as they are. -/
theorem Steady.union (h : Steady ops n m s) {a b : Qubit} (ha : s.tracker.anchorOf a ≠ none)
    (hb : s.tracker.anchorOf b ≠ none) :
    Steady ops n m { s with tracker := s.tracker.union a b } ∧
      (s.tracker.union a b).anchorOf a ≠ none ∧
      (∀ x, s.tracker.root x = s.tracker.root a ∨ s.tracker.root x = s.tracker.root b →
        (s.tracker.union a b).root x = (s.tracker.union a b).root a) ∧
      ((s.tracker.union a b).root a = s.tracker.root a ∨
        (s.tracker.union a b).root a = s.tracker.root b) ∧
      ∀ x, s.tracker.root x ≠ s.tracker.root a → s.tracker.root x ≠ s.tracker.root b →
        (s.tracker.union a b).root x = s.tracker.root x ∧
          (s.tracker.union a b).anchorOf x = s.tracker.anchorOf x := by
  have hmem : ∀ {u : Qubit}, u ∈ [a, b] → s.tracker.anchorOf u ≠ none := by
    intro u hu
    rcases List.mem_pair.1 hu with rfl | rfl
    · exact ha
    · exact hb
  have hstart : Merging ops n m [a, b] s := by
    refine ⟨h.inv, ?_, fun x hx => .inl (h.settled x hx)⟩
    intro x u v f c hu hv hroot hnone
    rw [BlockTracker.anchorOf, hroot] at hnone
    exact absurd hnone (hmem hu)
  obtain ⟨hmerged, hab, hkeeps⟩ := hstart.union (a := a) (b := b) (by simp) (by simp)
  have hsame : ∀ x, s.tracker.root x = s.tracker.root a ∨ s.tracker.root x = s.tracker.root b →
      (s.tracker.union a b).root x = (s.tracker.union a b).root a := by
    rintro x (hx | hx)
    · exact hkeeps hx
    · exact (hkeeps hx).trans hab.symm
  obtain ⟨u, hvalid, hsameu, -, -, hcases⟩ := h.inv.valid.union_cases a b
  obtain ⟨hopen, hone, hother⟩ : (s.tracker.union a b).anchorOf a ≠ none ∧
      ((s.tracker.union a b).root a = s.tracker.root a ∨
        (s.tracker.union a b).root a = s.tracker.root b) ∧
      ∀ x, s.tracker.root x ≠ s.tracker.root a → s.tracker.root x ≠ s.tracker.root b →
        (s.tracker.union a b).root x = s.tracker.root x ∧
          (s.tracker.union a b).anchorOf x = s.tracker.anchorOf x := by
    rcases hcases with ⟨-, hunion⟩ | ⟨keep, gone, hne, hkeep, hgone, hunion, hroots⟩
    · rw [hunion]
      simp only [hsameu.anchorOf, hsameu.root]
      exact ⟨ha, .inl trivial, fun x _ _ => ⟨trivial, trivial⟩⟩
    · have hanchor := anchorOf_link hvalid hne hkeep hgone
      have hroot := BlockTracker.root_link hvalid hkeep hgone hne
      have hopen : u.anchors.get? keep ≠ none := by
        rw [hsameu.anchors]
        rcases hroots with ⟨rfl, -⟩ | ⟨rfl, -⟩
        · exact ha
        · exact hb
      rw [hunion]
      simp only [hanchor, hroot, hsameu.root, hsameu.anchorOf]
      refine ⟨?_, ?_, ?_⟩
      · rw [if_pos (by rcases hroots with ⟨rfl, -⟩ | ⟨-, rfl⟩ <;> simp)]
        exact fun hnone => hopen (BlockTracker.laterSlot?_eq_none.1 hnone).1
      · rcases hroots with ⟨rfl, rfl⟩ | ⟨rfl, rfl⟩
        · exact .inl (if_neg hne)
        · exact .inr (if_pos rfl)
      · intro x hxa hxb
        rcases hroots with ⟨rfl, rfl⟩ | ⟨rfl, rfl⟩
        · exact ⟨if_neg hxb, if_neg (not_or.2 ⟨hxa, hxb⟩)⟩
        · exact ⟨if_neg hxa, if_neg (not_or.2 ⟨hxb, hxa⟩)⟩
  refine ⟨⟨hmerged.inv, ?_⟩, hopen, hsame, hone, hother⟩
  intro x hx
  -- a qubit of the merged block would have its anchor
  have hnot : ∀ u ∈ [a, b], s.tracker.root x ≠ s.tracker.root u := by
    intro u hu hxu
    refine hopen ?_
    rw [BlockTracker.anchorOf, ← hsame x (by
      rcases List.mem_pair.1 hu with rfl | rfl
      · exact .inl hxu
      · exact .inr hxu)]
    exact hx
  obtain ⟨hroot, hanchor⟩ := hother x (hnot a (by simp)) (hnot b (by simp))
  have hx' : (s.tracker.union a b).anchorOf x = none := hx
  rw [hanchor] at hx'
  exact hroot.trans (h.settled x hx')

/-- The entries of a ranking are the roots of distinct open blocks. -/
structure OpenRanking (t : BlockTracker) (r : Ranking) : Prop where
  isOpen : ∀ e ∈ r, t.root e.1 = e.1 ∧ t.anchorOf e.1 ≠ none
  nodup : (r.map Prod.fst).Nodup

/-- The given qubits that have an open block have it in the ranking. -/
def Covers (t : BlockTracker) (r : Ranking) (used : List Qubit) : Prop :=
  ∀ u ∈ used, t.anchorOf u = none ∨ ∃ e ∈ r, t.root u = e.1

theorem OpenRanking.perm {t : BlockTracker} {r r' : Ranking} (h : OpenRanking t r)
    (hperm : r'.Perm r) : OpenRanking t r' :=
  ⟨fun e he => h.isOpen e (hperm.mem_iff.1 he), (hperm.map _).nodup_iff.2 h.nodup⟩

theorem OpenRanking.sameBlocks {t t' : BlockTracker} {r : Ranking} (h : OpenRanking t r)
    (hsame : BlockTracker.SameBlocks t t') : OpenRanking t' r := by
  refine ⟨fun e he => ?_, h.nodup⟩
  rw [hsame.root, hsame.anchorOf]
  exact h.isOpen e he

theorem OpenRanking.of_sameBlocks {t t' : BlockTracker} {r : Ranking} (h : OpenRanking t' r)
    (hsame : BlockTracker.SameBlocks t t') : OpenRanking t r := by
  refine ⟨fun e he => ?_, h.nodup⟩
  rw [← hsame.root, ← hsame.anchorOf]
  exact h.isOpen e he

theorem OpenRanking.ne_of_mem {t : BlockTracker} {next : Qubit} {k : Nat} {l₁ l₂ : Ranking}
    (h : OpenRanking t (l₁ ++ (next, k) :: l₂)) {e : Qubit × Nat} (he : e ∈ l₁ ++ l₂) :
    e.1 ≠ next := by
  have hnodup := h.nodup
  rw [List.map_append, List.map_cons, List.nodup_middle, List.nodup_cons,
    ← List.map_append] at hnodup
  rintro rfl
  exact hnodup.1 (List.mem_map.2 ⟨e, he, rfl⟩)

theorem Covers.perm {t : BlockTracker} {r r' : Ranking} {used : List Qubit} (h : Covers t r used)
    (hperm : r'.Perm r) : Covers t r' used := by
  intro u hu
  rcases h u hu with hnone | ⟨e, he, hroot⟩
  · exact .inl hnone
  · exact .inr ⟨e, hperm.mem_iff.2 he, hroot⟩

theorem Covers.sameBlocks {t t' : BlockTracker} {r : Ranking} {used : List Qubit}
    (h : Covers t r used) (hsame : BlockTracker.SameBlocks t t') : Covers t' r used := by
  intro u hu
  rw [hsame.root, hsame.anchorOf]
  exact h u hu

theorem descending_perm (r : Ranking) : (descending r).Perm r := List.mergeSort_perm r _

/-- What is kept while blocks are packed into one. -/
structure Packing (ops : List Operation) (n m : Nat) (used : List Qubit) (block : Qubit)
    (r : Ranking) (s : BlockState) : Prop where
  steady : Steady ops n m s
  isOpen : s.tracker.anchorOf block ≠ none
  ranking : OpenRanking s.tracker r
  apart : ∀ e ∈ r, e.1 ≠ s.tracker.root block
  covers : ∀ u ∈ used, s.tracker.anchorOf u = none ∨ s.tracker.root u = s.tracker.root block ∨
    ∃ e ∈ r, s.tracker.root u = e.1

/-- The first block of a ranking takes up the others. -/
theorem Steady.packing {used : List Qubit} {block : Qubit} {size : Nat} {rest : Ranking}
    (h : Steady ops n m s) (hr : OpenRanking s.tracker ((block, size) :: rest))
    (hc : Covers s.tracker ((block, size) :: rest) used) : Packing ops n m used block rest s := by
  obtain ⟨hroot, hopen⟩ := hr.isOpen _ List.mem_cons_self
  have hnodup := List.nodup_cons.1 hr.nodup
  refine ⟨h, hopen, ⟨fun e he => hr.isOpen e (List.mem_cons_of_mem _ he), hnodup.2⟩, ?_, ?_⟩
  · rintro e he heq
    exact hnodup.1 (hroot ▸ heq ▸ List.mem_map_of_mem he)
  · intro u hu
    rcases hc u hu with hnone | ⟨e, he, hue⟩
    · exact .inl hnone
    · rcases List.mem_cons.1 he with rfl | he
      · exact .inr (.inl (hue.trans hroot.symm))
      · exact .inr (.inr ⟨e, he, hue⟩)

theorem Packing.union {used : List Qubit} {block next : Qubit} {k : Nat} {l₁ l₂ : Ranking}
    (h : Packing ops n m used block (l₁ ++ (next, k) :: l₂) s) :
    Packing ops n m used block (l₁ ++ l₂) { s with tracker := s.tracker.union block next } := by
  have hin : (next, k) ∈ l₁ ++ (next, k) :: l₂ := by simp
  have hsub : ∀ e ∈ l₁ ++ l₂, e ∈ l₁ ++ (next, k) :: l₂ := by
    intro e he
    rcases List.mem_append.1 he with he | he <;> simp [he]
  obtain ⟨hnext, hnextOpen⟩ := h.ranking.isOpen _ hin
  have hnodup := h.ranking.nodup
  rw [List.map_append, List.map_cons, List.nodup_middle, List.nodup_cons,
    ← List.map_append] at hnodup
  have hdiff : ∀ e ∈ l₁ ++ l₂, e.1 ≠ next := fun e he => h.ranking.ne_of_mem he
  obtain ⟨hsteady, hopen, hsame, hone, hother⟩ := h.steady.union h.isOpen hnextOpen
  -- the other entries are neither of the two blocks
  have hkept : ∀ e ∈ l₁ ++ l₂, (s.tracker.union block next).root e.1 = e.1 ∧
      (s.tracker.union block next).anchorOf e.1 ≠ none := by
    intro e he
    obtain ⟨hroot, hanchor⟩ := h.ranking.isOpen e (hsub e he)
    obtain ⟨hroot', hanchor'⟩ := hother e.1 (by rw [hroot]; exact h.apart e (hsub e he))
      (by rw [hroot, hnext]; exact hdiff e he)
    exact ⟨hroot'.trans hroot, hanchor' ▸ hanchor⟩
  refine ⟨hsteady, hopen, ⟨hkept, hnodup.2⟩, ?_, ?_⟩
  · intro e he
    show e.1 ≠ (s.tracker.union block next).root block
    rcases hone with hblock | hblock
    · rw [hblock]
      exact h.apart e (hsub e he)
    · rw [hblock, hnext]
      exact hdiff e he
  · intro u hu
    show (s.tracker.union block next).anchorOf u = none ∨
      (s.tracker.union block next).root u = (s.tracker.union block next).root block ∨
      ∃ e ∈ l₁ ++ l₂, (s.tracker.union block next).root u = e.1
    by_cases hblock : s.tracker.root u = s.tracker.root block
    · exact .inr (.inl (hsame u (.inl hblock)))
    by_cases hother' : s.tracker.root u = s.tracker.root next
    · exact .inr (.inl (hsame u (.inr hother')))
    obtain ⟨hroot, hanchor⟩ := hother u hblock hother'
    rw [hroot, hanchor]
    rcases h.covers u hu with hnone | hu' | ⟨e, he, hue⟩
    · exact .inl hnone
    · exact absurd hu' hblock
    · refine .inr (.inr ⟨e, ?_, hue⟩)
      rcases List.mem_append.1 he with he | he
      · exact List.mem_append_left _ he
      · rcases List.mem_cons.1 he with rfl | he
        · exact absurd (hue.trans hnext.symm) hother'
        · exact List.mem_append_right _ he

theorem Packing.packInto {used : List Qubit} {block : Qubit} (limit size : Nat) (kept : Ranking)
    {r : Ranking} (h : Packing ops n m used block (kept ++ r) s) :
    Packing ops n m used block (kept ++ (packInto limit block size r s.tracker).1)
      { s with tracker := (BlockState.packInto limit block size r s.tracker).2 } := by
  induction r generalizing size kept s with
  | nil => exact h
  | cons e rest ih =>
    obtain ⟨next, k⟩ := e
    rw [BlockState.packInto]
    split
    · split
      · exact ih (size + k) kept h.union
      · have hnext := ih size (kept ++ [(next, k)]) (by simpa using h)
        simpa using hnext
    · exact h

theorem Packing.finalize {used : List Qubit} {block : Qubit} {r : Ranking}
    (h : Packing ops n m used block r s) :
    Steady ops n m (s.finalize block) ∧ OpenRanking (s.finalize block).tracker r ∧
      Covers (s.finalize block).tracker r used := by
  have hanchor := h.steady.inv.anchorOf_finalize block
  have hroot := h.steady.inv.root_finalize block
  refine ⟨h.steady.finalize block, ⟨?_, h.ranking.nodup⟩, ?_⟩
  · intro e he
    obtain ⟨heroot, heopen⟩ := h.ranking.isOpen e he
    have hne : s.tracker.root e.1 ≠ s.tracker.root block := by
      rw [heroot]
      exact h.apart e he
    rw [hroot, hanchor, if_neg hne, if_neg fun hboth => hne hboth.1]
    exact ⟨heroot, heopen⟩
  · intro u hu
    rw [hanchor, hroot]
    by_cases hblock : s.tracker.root u = s.tracker.root block
    · exact .inl (if_pos hblock)
    · rw [if_neg hblock, if_neg fun hboth => hblock hboth.1]
      rcases h.covers u hu with hnone | hu' | hin
      · exact .inl hnone
      · exact absurd hu' hblock
      · exact .inr hin

/-- Packing and writing the ranked blocks leaves none of the qubits in one. -/
theorem Steady.packAndFinalize {used : List Qubit} {r : Ranking} (limit : Nat)
    (h : Steady ops n m s) (hr : OpenRanking s.tracker r) (hc : Covers s.tracker r used) :
    Steady ops n m (packAndFinalize limit s r) ∧
      ∀ u ∈ used, (BlockState.packAndFinalize limit s r).tracker.anchorOf u = none := by
  fun_induction BlockState.packAndFinalize limit s r with
  | case1 s => exact ⟨h, fun u hu => (hc u hu).elim id fun ⟨e, he, _⟩ => by cases he⟩
  | case2 s block size rest _ packed ih =>
    have hstart : Packing ops n m used block ([] ++ rest) s := h.packing hr hc
    obtain ⟨hsteady, hranking, hcovers⟩ := (hstart.packInto limit size []).finalize
    exact ih hsteady hranking hcovers

/-- The block of the next qubit is not open or ranked already, or it is ranked now. -/
theorem openBlocks_cons (h : Inv ops n m s) (q : Qubit) (rest : List Qubit) (acc : Ranking) :
    ∃ t : BlockTracker, t.Valid ∧ BlockTracker.SameBlocks s.tracker t ∧
      ((s.tracker.anchorOf q = none ∨ ∃ e ∈ acc, s.tracker.root q = e.1) ∧
          s.openBlocks (q :: rest) acc = openBlocks { s with tracker := t } rest acc ∨
        (s.tracker.anchorOf q ≠ none ∧ ∀ e ∈ acc, e.1 ≠ s.tracker.root q) ∧
          s.openBlocks (q :: rest) acc = openBlocks { s with tracker := t } rest
            (acc ++ [(s.tracker.root q, t.size (s.tracker.root q))])) := by
  obtain ⟨hvalid, hsame⟩ := h.valid.touch q
  obtain ⟨hvalid', hsame'⟩ := hvalid.touch (s.tracker.root q)
  refine ⟨_, hvalid', hsame.trans hsame', ?_⟩
  have hfresh : (({ s with tracker := s.tracker.touch q } : BlockState).isFresh
      (s.tracker.root q)).1 = true ↔ s.tracker.anchorOf q = none := by
    rw [isFresh_fst (h.sameBlocks hvalid hsame), hsame.anchorOf, BlockTracker.anchorOf,
      h.valid.root_root]
    rfl
  by_cases hskip : ((({ s with tracker := s.tracker.touch q } : BlockState).isFresh
      (s.tracker.root q)).1 || acc.any (·.1 = s.tracker.root q)) = true
  · refine .inl ⟨?_, if_pos hskip⟩
    rcases Bool.or_eq_true_iff.1 hskip with hf | hany
    · exact .inl (hfresh.1 hf)
    · obtain ⟨e, he, heq⟩ := List.any_eq_true.1 hany
      exact .inr ⟨e, he, (of_decide_eq_true heq).symm⟩
  · obtain ⟨hf, hany⟩ := not_or.1 fun hor => hskip (Bool.or_eq_true_iff.2 hor)
    refine .inr ⟨⟨fun hnone => hf (hfresh.2 hnone), fun e he heq => hany ?_⟩, if_neg hskip⟩
    exact List.any_eq_true.2 ⟨e, he, decide_eq_true heq⟩

/-- The ranking of the open blocks of some qubits. -/
theorem openBlocks_spec (h : Inv ops n m s) (used : List Qubit) {acc : Ranking}
    (hacc : OpenRanking s.tracker acc) :
    ∃ t : BlockTracker, (s.openBlocks used acc).2 = { s with tracker := t } ∧ t.Valid ∧
      BlockTracker.SameBlocks s.tracker t ∧ OpenRanking s.tracker (s.openBlocks used acc).1 ∧
      (∀ e ∈ acc, e ∈ (s.openBlocks used acc).1) ∧
      Covers s.tracker (s.openBlocks used acc).1 used := by
  induction used generalizing s acc with
  | nil => exact ⟨s.tracker, rfl, h.valid, .refl _, hacc, fun _ => id, fun u hu => by cases hu⟩
  | cons q rest ih =>
    obtain ⟨t₁, hvalid, hsame, hnext⟩ := openBlocks_cons h q rest acc
    -- the rest works on the same blocks, with a ranking that covers the first qubit
    have hgo : ∀ acc', OpenRanking s.tracker acc' → (∀ e ∈ acc, e ∈ acc') →
        (s.tracker.anchorOf q = none ∨ ∃ e ∈ acc', s.tracker.root q = e.1) →
        s.openBlocks (q :: rest) acc = openBlocks { s with tracker := t₁ } rest acc' →
        ∃ t : BlockTracker, (s.openBlocks (q :: rest) acc).2 = { s with tracker := t } ∧ t.Valid ∧
          BlockTracker.SameBlocks s.tracker t ∧
          OpenRanking s.tracker (s.openBlocks (q :: rest) acc).1 ∧
          (∀ e ∈ acc, e ∈ (s.openBlocks (q :: rest) acc).1) ∧
          Covers s.tracker (s.openBlocks (q :: rest) acc).1 (q :: rest) := by
      intro acc' hacc' hsub hq heq
      obtain ⟨t, ht, hvalidt, hsamet, hopen, hsub', hcovers⟩ :=
        ih (h.sameBlocks hvalid hsame) (hacc'.sameBlocks hsame)
      rw [heq]
      refine ⟨t, ht, hvalidt, hsame.trans hsamet, hopen.of_sameBlocks hsame,
        fun e he => hsub' e (hsub e he), ?_⟩
      intro u hu
      rcases List.mem_cons.1 hu with rfl | hu
      · rcases hq with hnone | ⟨e, he, hue⟩
        · exact .inl hnone
        · exact .inr ⟨e, hsub' e he, hue⟩
      · have := hcovers u hu
        rwa [hsame.anchorOf, hsame.root] at this
    rcases hnext with ⟨hcovered, heq⟩ | ⟨⟨hopen, hnew⟩, heq⟩
    · exact hgo acc hacc (fun _ => id) hcovered heq
    · refine hgo _ ⟨?_, ?_⟩ (fun e he => List.mem_append_left _ he)
        (.inr ⟨_, List.mem_append_right _ (List.mem_singleton_self _), rfl⟩) heq
      · intro e he
        rcases List.mem_append.1 he with he | he
        · exact hacc.isOpen e he
        · rw [List.mem_singleton.1 he]
          refine ⟨h.valid.root_root q, ?_⟩
          rw [BlockTracker.anchorOf, h.valid.root_root]
          exact hopen
      · rw [List.map_append, List.nodup_append]
        refine ⟨hacc.nodup, by simp, ?_⟩
        intro a ha b hb
        rintro rfl
        obtain ⟨e, he, rfl⟩ := List.mem_map.1 ha
        refine hnew e he ?_
        simpa using hb

/-! ## Blocks that free room -/

/-- The block of the next qubit is ranked already, and frees one qubit less, or it is ranked
now. -/
theorem savings_cons (t : BlockTracker) (q : Qubit) (rest : List Qubit) (acc : Ranking)
    (total : Nat) :
    (∃ e ∈ acc, e.1 = t.root q) ∧ savings t (q :: rest) acc total = savings (t.touch q) rest
        (acc.map fun e => if e.1 = t.root q then (e.1, e.2 - 1) else e) total ∨
      (∀ e ∈ acc, e.1 ≠ t.root q) ∧ savings t (q :: rest) acc total = savings (t.touch q) rest
        (acc ++ [(t.root q, (t.touch q).size (t.root q) - 1)])
        (total + (t.touch q).size (t.root q)) := by
  by_cases hany : acc.any (·.1 = t.root q) = true
  · obtain ⟨e, he, heq⟩ := List.any_eq_true.1 hany
    exact .inl ⟨⟨e, he, of_decide_eq_true heq⟩, if_pos hany⟩
  · refine .inr ⟨fun e he heq => hany ?_, if_neg hany⟩
    exact List.any_eq_true.2 ⟨e, he, decide_eq_true heq⟩

theorem savings_sameBlocks {t : BlockTracker} (h : t.Valid) (used : List Qubit) (acc : Ranking)
    (total : Nat) :
    (savings t used acc total).2.Valid ∧
      BlockTracker.SameBlocks t (savings t used acc total).2 := by
  induction used generalizing t acc total with
  | nil => exact ⟨h, .refl _⟩
  | cons q rest ih =>
    obtain ⟨hvalid, hsame⟩ := h.touch q
    rcases savings_cons t q rest acc total with ⟨-, hnext⟩ | ⟨-, hnext⟩
    · rw [hnext]
      exact (ih hvalid _ _).imp_right hsame.trans
    · rw [hnext]
      exact (ih hvalid _ _).imp_right hsame.trans

theorem Steady.finalizeUntil (h : Steady ops n m s) (need : Nat) (r : Ranking) :
    Steady ops n m (s.finalizeUntil need r) := by
  fun_induction BlockState.finalizeUntil s need r with
  | case1 => exact h
  | case2 => exact h
  | case3 s need root saving rest _ ih => exact ih (h.finalize root)

theorem Steady.finalizeBySavings (h : Steady ops n m s) (limit : Nat) (used : List Qubit) :
    Steady ops n m (s.finalizeBySavings limit used) := by
  obtain ⟨hvalid, hsame⟩ := savings_sameBlocks h.inv.valid used [] 0
  exact (h.sameBlocks hvalid hsame).finalizeUntil _ _

end BlockState
end QuantumCircuit
