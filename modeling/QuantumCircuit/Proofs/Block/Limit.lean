import QuantumCircuit.Proofs.Block.Gather
import QuantumCircuit.Proofs.Block.Room

/-! Blocks keep to the size limit. No open block ever has more qubits than allowed, so a block
that is written is a compound of gates on few qubits. -/
namespace QuantumCircuit
namespace BlockState
open Operation BlockTracker

variable {ops : List Operation} {n m limit : Nat} {s s' : BlockState} {op : Operation}

/-- A block as it is written: whole unitary operations that act on few qubits. -/
def IsBlock (ops : List Operation) (limit : Nat) (op : Operation) : Prop :=
  ∃ body : List Operation, op = .ofChildren body ∧
    (∀ child ∈ body, child ∈ ops ∧ child.isUnitary = true) ∧
    ∃ qs : Finset Qubit, qs.card ≤ limit ∧ ∀ child ∈ body, ∀ x, child.actsOn x = true → x ∈ qs

/-- The open blocks and the written ones keep to the limit. -/
structure Bounded (ops : List Operation) (limit : Nat) (s : BlockState) : Prop where
  narrow : Narrow limit s.tracker
  pending : ∀ op ∈ s.tracker.pending, op ∈ ops ∧ op.isUnitary = true
  slots : ∀ op, some op ∈ s.slots → op ∈ ops ∨ IsBlock ops limit op

theorem bounded_ofOps (ops : List Operation) (h : 0 < limit) : Bounded ops limit (ofOps ops) where
  narrow := narrow_empty h
  pending op hop := by cases hop
  slots op hop := by
    obtain ⟨op', hop', heq⟩ := List.mem_map.1 hop
    exact .inl (Option.some.inj heq ▸ hop')

theorem Bounded.withTracker {t : BlockTracker} (h : Bounded ops limit s) (hn : Narrow limit t)
    (hp : t.pending.Perm s.tracker.pending) : Bounded ops limit { s with tracker := t } where
  narrow := hn
  pending op hop := h.pending op (hp.mem_iff.1 hop)
  slots := h.slots

theorem Bounded.sameBlocks {t : BlockTracker} (h : Bounded ops limit s) (hv : s.tracker.Valid)
    (hv' : t.Valid) (hsame : SameBlocks s.tracker t) : Bounded ops limit { s with tracker := t } :=
  h.withTracker (h.narrow.refines hsame.refines hv hv') (hsame.pending ▸ .refl _)

/-! ## Writing blocks -/

/-- The body of a block consists of pending operations that act on its members. -/
theorem Bounded.isBlock (h : Bounded ops limit s) (hs : Steady ops n m s) (q : Qubit) :
    IsBlock ops limit (.ofChildren (s.tracker.body (s.tracker.root q))) := by
  refine ⟨_, rfl, fun child hchild => ?_, s.tracker.block q, h.narrow q,
    fun child hchild x hx => ?_⟩
  · have hperm := pending_dissolve s.tracker (s.tracker.root q) 0
    exact h.pending child (hperm.mem_iff.2 (List.mem_append_left _ hchild))
  · exact hs.inv.valid.mem_block.2 (hs.inv.body hchild hx).2

theorem Bounded.finalize (h : Bounded ops limit s) (hs : Steady ops n m s) (q : Qubit) :
    Bounded ops limit (s.finalize q) := by
  obtain ⟨hvalid, hsame⟩ := hs.inv.valid.touch q
  have hnarrow := h.narrow.refines (hs.refines_finalize q) hs.inv.valid (hs.finalize q).inv.valid
  have htouched := h.sameBlocks hs.inv.valid hvalid hsame
  rw [finalize_eq hs.inv] at hnarrow ⊢
  cases ha : s.tracker.anchorOf q with
  | none => exact htouched
  | some a =>
    rw [ha] at hnarrow
    refine ⟨hnarrow, fun op hop => ?_, fun op hop => ?_⟩
    · have hperm := pending_dissolve (s.tracker.touch q) (s.tracker.root q) a
      exact htouched.pending op (hperm.mem_iff.2 (List.mem_append_right _ hop))
    · rcases List.mem_or_eq_of_mem_set hop with hold | hnew
      · exact h.slots op hold
      · have hblock := h.isBlock hs q
        rw [← hsame.body] at hblock
        rw [Option.some.inj hnew]
        exact .inr hblock

theorem Writes.bounded (hw : Writes s s') (hs : Steady ops n m s) (h : Bounded ops limit s) :
    Bounded ops limit s' := by
  induction hw with
  | none => exact h
  | look hvalid hsame _ ih =>
    exact ih (hs.sameBlocks hvalid hsame) (h.sameBlocks hs.inv.valid hvalid hsame)
  | write q _ ih => exact ih (hs.finalize q) (h.finalize hs q)

/-! ## Packing -/

/-- The blocks of a ranking are no larger than it says. -/
def Sized (t : BlockTracker) (r : Ranking) : Prop := ∀ e ∈ r, (t.block e.1).card ≤ e.2

theorem openBlocks_sized (h : Inv ops n m s) (used : List Qubit) {acc : Ranking}
    (hacc : Sized s.tracker acc) : Sized s.tracker (s.openBlocks used acc).1 := by
  induction used generalizing s acc with
  | nil => exact hacc
  | cons q rest ih =>
    obtain ⟨t, hvalid, hsame, hnext⟩ := openBlocks_cons h q rest acc
    have hblock := hsame.block h.valid hvalid
    have hgo : ∀ acc', Sized s.tracker acc' →
        Sized s.tracker (openBlocks { s with tracker := t } rest acc').1 := by
      intro acc' hacc' e he
      rw [← hblock]
      refine ih (h.sameBlocks hvalid hsame) (fun e he => ?_) e he
      rw [hblock]
      exact hacc' e he
    rcases hnext with ⟨-, heq⟩ | ⟨-, heq⟩
    · rw [heq]
      exact hgo acc hacc
    · rw [heq]
      refine hgo _ fun e he => ?_
      rcases List.mem_append.1 he with he | he
      · exact hacc e he
      · have hroot : t.root (s.tracker.root q) = s.tracker.root q :=
          (hsame.root _).trans (h.valid.root_root q)
        rw [List.mem_singleton.1 he, hvalid.size_eq_card hroot, hblock]

/-- A block takes up only what fits. -/
theorem Packing.bounded_packInto {used : List Qubit} {block : Qubit} {size : Nat}
    {kept r : Ranking} (h : Packing ops n m used block (kept ++ r) s) (hb : Bounded ops limit s)
    (hsize : (s.tracker.block block).card ≤ size) (hr : Sized s.tracker (kept ++ r)) :
    Bounded ops limit
        { s with tracker := (BlockState.packInto limit block size r s.tracker).2 } ∧
      Sized (BlockState.packInto limit block size r s.tracker).2
        (kept ++ (BlockState.packInto limit block size r s.tracker).1) := by
  induction r generalizing size kept s with
  | nil => exact ⟨hb, hr⟩
  | cons e rest ih =>
    obtain ⟨next, k⟩ := e
    rw [BlockState.packInto]
    split
    · split
      · next hfits =>
        have hv := h.steady.inv.valid
        obtain ⟨hv', hjoins, hperm⟩ := hv.union block next
        have hcard : (s.tracker.gathered [block, next]).card ≤ size + k := by
          have hnext : (s.tracker.block next).card ≤ k := hr (next, k) (by simp)
          have hpair := card_gathered_pair_le s.tracker block next
          omega
        have hblock : block ∈ s.tracker.gathered [block, next] :=
          hv.mem_gathered.2 ⟨block, List.mem_cons_self, rfl⟩
        refine ih h.union (hb.withTracker ?_ hperm) ?_ fun e he => ?_
        · exact hb.narrow.joins hjoins hv hv' (hcard.trans hfits)
        · exact (Finset.card_le_card (hjoins.block_subset_gathered hv hv' hblock)).trans hcard
        · -- the other entries are neither of the two blocks
          have hin : e ∈ kept ++ (next, k) :: rest := by
            rcases List.mem_append.1 he with he | he <;> simp [he]
          have hout : e.1 ∉ s.tracker.gathered [block, next] := by
            rw [hv.mem_gathered, (h.ranking.isOpen e hin).1]
            rintro ⟨u, hu, heu⟩
            rcases List.mem_pair.1 hu with rfl | rfl
            · exact h.apart e hin heu
            · rw [(h.ranking.isOpen (u, k) (by simp)).1] at heu
              exact h.ranking.ne_of_mem he heu
          exact (Finset.card_le_card (hjoins.block_subset hv hv' hout)).trans (hr e hin)
      · have hshift : Packing ops n m used block (kept ++ [(next, k)] ++ rest) s := by
          simpa using h
        have hrest := ih hshift hb hsize (by simpa using hr)
        simpa using hrest
    · exact ⟨hb, hr⟩

theorem Bounded.packAndFinalize {r : Ranking} (h : Bounded ops limit s) (hs : Steady ops n m s)
    (hr : OpenRanking s.tracker r) (hsized : Sized s.tracker r) :
    Bounded ops limit (packAndFinalize limit s r) := by
  fun_induction BlockState.packAndFinalize limit s r with
  | case1 s => exact h
  | case2 s block size rest _ packed ih =>
    have hstart : Packing ops n m [] block ([] ++ rest) s := hs.packing hr (by simp [Covers])
    have hpacked := hstart.packInto limit size []
    obtain ⟨hb, hsized'⟩ := hstart.bounded_packInto h (hsized _ List.mem_cons_self)
      fun e he => hsized e (List.mem_cons_of_mem _ he)
    obtain ⟨hsteady, hranking, -⟩ := hpacked.finalize
    refine ih (hb.finalize hpacked.steady block) hsteady hranking fun e he => ?_
    have hsub := (hpacked.steady.refines_finalize block).block_subset
      hpacked.steady.inv.valid hsteady.inv.valid e.1
    exact (Finset.card_le_card hsub).trans (hsized' e he)

/-! ## One operation after another -/

theorem Bounded.makeRoom (h : Bounded ops limit s) (hs : Steady ops n m s) (used : List Qubit) :
    Bounded ops limit (makeRoom limit s used) := by
  obtain ⟨hvalid, hsame, -, -⟩ := hs.inv.valid.findAll used
  have hfound := hs.sameBlocks hvalid hsame
  have hb := h.sameBlocks hs.inv.valid hvalid hsame
  rw [BlockState.makeRoom]
  dsimp only
  split
  · split
    · have hnil : OpenRanking (s.tracker.findAll used).2 [] :=
        ⟨fun _ he => (List.not_mem_nil he).elim, List.nodup_nil⟩
      have hempty : Sized (s.tracker.findAll used).2 [] :=
        fun _ he => (List.not_mem_nil he).elim
      have hsized := openBlocks_sized hfound.inv used hempty
      obtain ⟨t, ht, hvalid', hsame', hopen, -, -⟩ := openBlocks_spec hfound.inv used hnil
      have hperm := descending_perm
        (({ s with tracker := (s.tracker.findAll used).2 } : BlockState).openBlocks used []).1
      rw [ht]
      refine (hb.sameBlocks hvalid hvalid' hsame').packAndFinalize
        (hfound.sameBlocks hvalid' hsame') ((hopen.sameBlocks hsame').perm hperm) fun e he => ?_
      rw [hsame'.block hvalid hvalid']
      exact hsized e (hperm.mem_iff.1 he)
    · obtain ⟨hvalid', hsame'⟩ := savings_sameBlocks hvalid used [] 0
      have hwrites : Writes { s with tracker := (s.tracker.findAll used).2 }
          (finalizeBySavings limit { s with tracker := (s.tracker.findAll used).2 } used) :=
        .look hvalid' hsame' (writes_finalizeUntil _ _ _)
      exact hwrites.bounded hfound hb
  · exact hb

theorem Bounded.fix_all (h : Bounded ops limit s) (slot : Nat) (used : List Qubit) :
    Bounded ops limit (used.foldl (fix slot) s) := by
  induction used generalizing s with
  | nil => exact h
  | cons q rest ih =>
    have hfix : Bounded ops limit (fix slot s q) := ⟨h.narrow, h.pending, h.slots⟩
    exact ih hfix

theorem Bounded.close_all (h : Bounded ops limit s) (hs : Steady ops n (n + 1) s)
    (hop : ops[n]? = some op) (used : List Qubit) :
    Bounded ops limit (used.foldl (close n) s) := by
  induction used generalizing s with
  | nil => exact h
  | cons q rest ih =>
    have hfinal := h.finalize hs q
    have hclose : Bounded ops limit (close n s q) := ⟨hfinal.narrow, hfinal.pending, hfinal.slots⟩
    exact ih hclose (hs.close hop q).1

/-- An operation joins blocks that fit together. -/
theorem Bounded.absorb (h : Bounded ops limit s) (hs : Steady ops n n s)
    (hop : ops[n]? = some op) (hunitary : op.isUnitary = true) {used : List Qubit}
    (hne : used ≠ []) (hused : (s.tracker.gathered used).card ≤ limit) :
    Bounded ops limit (s.absorb used n) := by
  obtain ⟨first, rest, rfl⟩ := List.exists_cons_of_ne_nil hne
  have hv := hs.inv.valid
  obtain ⟨hvalid, hjoins, hperm⟩ := hv.unionAll (first :: rest)
  obtain ⟨hvalid', hsame⟩ := hvalid.touch first
  have hnarrow := (h.narrow.joins hjoins hv hvalid hused).refines hsame.refines hvalid hvalid'
  rw [absorb_eq s (hs.inv.slot_eq hop)]
  refine ⟨hnarrow, fun op' hop' => ?_, fun op' hop' => ?_⟩
  · rcases List.mem_cons.1 ((pending_joined _ _ op n).mem_iff.1 hop') with rfl | hold
    · exact ⟨List.mem_of_getElem? hop, hunitary⟩
    · rw [hsame.pending] at hold
      exact h.pending op' (hperm.mem_iff.1 hold)
  · rcases List.mem_or_eq_of_mem_set hop' with hold | hnew
    · exact h.slots op' hold
    · cases hnew

theorem Bounded.takeIn (h : Bounded ops limit s) (hs : Steady ops n n s)
    (hop : ops[n]? = some op) (hunitary : op.isUnitary = true) (hne : op.qubits.toList ≠ []) :
    Bounded ops limit (s.takeIn limit op.qubits.toList n) := by
  have hroom := (hs.makeRoom limit op.qubits.nodup).1
  have hb := h.makeRoom hs op.qubits.toList
  rw [BlockState.takeIn]
  split
  · exact hb.fix_all n _
  · next hfits =>
    have hwrites := hroom.writes_releaseStale op.qubits.toList
    obtain ⟨hreleased, hrefines⟩ := hwrites.steady hroom
    refine (hwrites.bounded hroom hb).absorb hreleased hop hunitary hne ?_
    refine (Finset.card_le_card (hrefines.gathered_subset hroom.inv.valid hreleased.inv.valid
      op.qubits.toList)).trans ?_
    exact hs.card_gathered_makeRoom op.qubits.nodup (Nat.not_lt.1 hfits)

theorem Bounded.step (h : Bounded ops limit s) (hs : Steady ops n n s) (hn : n < ops.length) :
    Bounded ops limit (step limit s n) := by
  have hop : ops[n]? = some ops[n] := List.getElem?_eq_getElem hn
  rw [BlockState.step, hs.inv.slot_eq hop]
  dsimp only
  split
  · exact h
  · next hne =>
    split
    · next hunitary => exact h.takeIn hs hop hunitary fun hnil => hne (List.isEmpty_iff.2 hnil)
    · exact h.close_all (hs.mono (Nat.le_succ n)) hop _

theorem bounded_after (hlimit : 0 < limit) (ops : List Operation) :
    ∀ n ≤ ops.length, Bounded ops limit (after limit ops n) := by
  intro n
  induction n with
  | zero => exact fun _ => bounded_ofOps ops hlimit
  | succ n ih =>
    intro hn
    rw [after, List.range_succ, List.foldl_append]
    exact (ih (Nat.le_of_succ_le hn)).step (steady_after limit ops n (Nat.le_of_succ_le hn)) hn

/-- Gathering leaves an operation as it is or puts it into a block. -/
theorem mem_gather (hlimit : 0 < limit) (h : op ∈ gather limit ops) :
    op ∈ ops ∨ IsBlock ops limit op := by
  have hsteady := steady_after limit ops ops.length (Nat.le_refl _)
  have hwrites : Writes (after limit ops ops.length) (after limit ops ops.length).finalizeAll :=
    writes_finalize_all _ _
  have hend := hwrites.bounded hsteady (bounded_after hlimit ops ops.length (Nat.le_refl _))
  obtain ⟨slot, hslot, heq⟩ := List.mem_filterMap.1 h
  exact hend.slots op (heq ▸ hslot)

end BlockState

/-! ## Circuits -/

namespace Operation
variable {body : List Operation} {limit : Nat} {op' : Operation}

/-- Without its identities a compound is what is left of one child, or a compound again. -/
theorem strip?_compound (h : (Operation.compound body).strip? = some op') :
    (∃ child ∈ body, child.strip? = some op') ∨ op' = .compound (stripAll body) := by
  rw [strip?] at h
  rcases hstrip : stripAll body with _ | ⟨first, _ | ⟨second, others⟩⟩
  · rw [hstrip] at h
    cases h
  · rw [hstrip] at h
    have hmem : op' ∈ stripAll body := by
      rw [hstrip, ← Option.some.inj h]
      exact List.mem_singleton_self first
    exact .inl (mem_stripAll.1 hmem)
  · rw [hstrip] at h
    exact .inr (Option.some.inj h).symm

theorem strip?_ofChildren (h : (ofChildren body).strip? = some op') :
    (∃ child ∈ body, child.strip? = some op') ∨ op' = .compound (stripAll body) := by
  rcases body with _ | ⟨first, _ | ⟨second, rest⟩⟩
  · exact strip?_compound h
  · exact .inl ⟨first, List.mem_singleton_self first, h⟩
  · exact strip?_compound h

/-- What is left of a block on few qubits acts on few qubits. -/
theorem qubits_stripAll_le {qs : Finset Qubit} (hcard : qs.card ≤ limit)
    (h : ∀ child ∈ body, ∀ x, child.actsOn x = true → x ∈ qs) :
    (Operation.compound (stripAll body)).qubits.size ≤ limit := by
  have hsub : (Operation.compound (stripAll body)).qubits.toList.toFinset ⊆ qs := by
    intro x hx
    have hacts := mem_qubits.1 (List.mem_toFinset.1 hx)
    obtain ⟨leaf, hleaf, hx'⟩ := actsOn_iff_leaf.1 hacts
    rw [leaves_compound, leavesOfAll_stripAll] at hleaf
    obtain ⟨child, hchild, hmem⟩ := mem_leavesOfAll.1 (List.mem_of_mem_filter hleaf)
    exact h child hchild x (actsOn_iff_leaf.2 ⟨leaf, hmem, hx'⟩)
  have hle := Finset.card_le_card hsub
  rw [List.toFinset_card_of_nodup (OrderedSet.nodup _)] at hle
  exact hle.trans hcard

end Operation

namespace Circuit
open Operation

/-- Every operation of the result is a whole operation of the circuit in canonical order with its
measurements deferred, or a compound of several of them that are unitary and act on no more
qubits than allowed, in each case without identities. -/
theorem collectBlocks_bounded {c out : Circuit} {limit : Nat} (hops : 1 < c.ops.length)
    (hlimit : 0 < limit) (h : c.collectBlocks limit = .done out) :
    ∃ deferred, c.reorder.andThen deferMeasurements = .done deferred ∧
      ∀ op ∈ out.ops, (∃ source ∈ deferred.ops, source.strip? = some op) ∨
        ((∃ body, (∀ child ∈ body, child ∈ deferred.ops) ∧ op = .compound (stripAll body)) ∧
          (∀ leaf ∈ op.leaves, leaf.isGate = true) ∧ op.qubits.size ≤ limit) := by
  obtain ⟨deferred, hdeferred, hout⟩ := collectBlocks_eq_done hops h
  refine ⟨deferred, hdeferred, fun op hop => ?_⟩
  rw [hout] at hop
  obtain ⟨source, hsource, hstrip⟩ := mem_stripAll.1 hop
  rcases BlockState.mem_gather hlimit hsource with hwhole | ⟨body, rfl, hbody, qs, hcard, hqs⟩
  · exact .inl ⟨source, hwhole, hstrip⟩
  · rcases strip?_ofChildren hstrip with ⟨child, hchild, hleft⟩ | rfl
    · exact .inl ⟨child, (hbody child hchild).1, hleft⟩
    · refine .inr ⟨⟨body, fun child hchild => (hbody child hchild).1, rfl⟩, fun leaf hleaf => ?_,
        qubits_stripAll_le hcard hqs⟩
      rw [leaves_compound, leavesOfAll_stripAll] at hleaf
      obtain ⟨child, hchild, hmem⟩ := mem_leavesOfAll.1 (List.mem_of_mem_filter hleaf)
      obtain ⟨g, rfl⟩ := leaves_of_isUnitary (hbody child hchild).2 leaf hmem
      rfl

/-- Pairs that meet in one gate, and then a gate that is too wide for any block. -/
def crowded : Circuit :=
  { withSize "crowded" 6 0 with
    ops := [.gate (.cnot ⟨0⟩ ⟨1⟩), .gate (.cnot ⟨2⟩ ⟨3⟩), .gate (.cnot ⟨4⟩ ⟨5⟩),
      .gate (.cnot ⟨1⟩ ⟨2⟩), .gate (.cnot ⟨3⟩ ⟨4⟩), .gate (.ofKind .h [⟨0⟩]),
      .gate (.controlled .x [.pos ⟨0⟩, .pos ⟨1⟩, .neg ⟨3⟩] [⟨5⟩])] }

theorem collectBlocks_bounded_crowded :
    1 < crowded.ops.length ∧ 0 < 3 ∧ ∃ out, crowded.collectBlocks 3 = .done out ∧
      ∃ deferred, crowded.reorder.andThen deferMeasurements = .done deferred ∧
        ∀ op ∈ out.ops, (∃ source ∈ deferred.ops, source.strip? = some op) ∨
          ((∃ body, (∀ child ∈ body, child ∈ deferred.ops) ∧ op = .compound (stripAll body)) ∧
            (∀ leaf ∈ op.leaves, leaf.isGate = true) ∧ op.qubits.size ≤ 3) := by
  obtain ⟨out, hout⟩ : ∃ out, crowded.collectBlocks 3 = .done out := ⟨_, by cbv⟩
  exact ⟨by decide, by decide, out, hout,
    collectBlocks_bounded (by decide) (by decide) hout⟩

end Circuit
end QuantumCircuit
