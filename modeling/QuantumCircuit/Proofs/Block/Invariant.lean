import QuantumCircuit.Block.Collect
import QuantumCircuit.Proofs.Block.Merge
import QuantumCircuit.Proofs.Leaves

/-! What holds while operations are gathered. On every qubit the operations passed
so far are those that stand in the slots, followed by those of the open block of
the qubit; the anchor of the block lies behind all slots that are fixed on its
qubits, so the block can be written there at any time. -/
namespace QuantumCircuit

/-! ## Slots -/

/-- The operations that stand in slots. -/
def filled (slots : List (Option Operation)) : List Operation := slots.filterMap id

theorem filled_split {slots : List (Option Operation)} {i : Nat} {v : Option Operation}
    (h : slots[i]? = some v) :
    filled slots = filled (slots.take i) ++ v.toList ++ filled (slots.drop (i + 1)) := by
  obtain ⟨hlt, hv⟩ := List.getElem?_eq_some_iff.1 h
  have hsplit : slots = slots.take i ++ v :: slots.drop (i + 1) := by
    rw [← hv, ← List.drop_eq_getElem_cons hlt, List.take_append_drop]
  have hfilled := congrArg filled hsplit
  rw [hfilled, filled, filled, filled, List.filterMap_append]
  cases v <;> simp

theorem filled_set {slots : List (Option Operation)} {i : Nat} (h : i < slots.length)
    (v : Option Operation) :
    filled (slots.set i v) = filled (slots.take i) ++ v.toList ++ filled (slots.drop (i + 1)) := by
  have hget : (slots.set i v)[i]? = some v := by simp [h]
  rw [filled_split hget, List.take_set_of_le (Nat.le_refl i),
    List.drop_set_of_lt (Nat.lt_succ_self i)]

theorem mem_filled_drop {slots : List (Option Operation)} {i : Nat} {op : Operation}
    (h : op ∈ filled (slots.drop i)) : ∃ j, i ≤ j ∧ slots[j]? = some (some op) := by
  obtain ⟨v, hv, rfl⟩ := List.mem_filterMap.1 h
  obtain ⟨k, hk⟩ := List.getElem?_of_mem hv
  rw [List.getElem?_drop] at hk
  exact ⟨i + k, Nat.le_add_right i k, hk⟩

theorem take_succ_filled {slots : List (Option Operation)} {n : Nat} {v : Option Operation}
    (h : slots[n]? = some v) :
    filled (slots.take (n + 1)) = filled (slots.take n) ++ v.toList := by
  rw [List.take_add_one, h]
  cases v <;> simp [filled]

namespace BlockState
open Operation QuantumCircuit.Dynamic

/-- The first `n` operations have been passed, and fixed slots lie below `m`. -/
structure Inv (ops : List Operation) (n m : Nat) (s : BlockState) : Prop where
  valid : s.tracker.Valid
  le : n ≤ m
  /-- The operations that come next are still in their slots. -/
  rest : ∀ i, n ≤ i → s.slots[i]? = ops[i]?.map some
  /-- An anchor is an empty slot that has been passed. -/
  anchor : ∀ {r : Qubit} {a : Nat}, s.tracker.anchors.get? r = some a →
    a < n ∧ s.slots[a]? = some none
  anchor_inj : ∀ {r r' : Qubit} {a : Nat}, s.tracker.anchors.get? r = some a →
    s.tracker.anchors.get? r' = some a → r = r'
  /-- The operations of a block act on its members only. -/
  body : ∀ {r x : Qubit} {op : Operation}, op ∈ s.tracker.body r → op.actsOn x = true →
    s.tracker.Knows x ∧ s.tracker.root x = r
  fixed : ∀ {x : Qubit} {f : Nat}, s.tracker.lastFixed.get? x = some f →
    f < m ∧ ∃ op, s.slots[f]? = some (some op)
  /-- A block is anchored behind what is fixed on its qubits. -/
  fixed_lt : ∀ {x : Qubit} {f a : Nat}, s.tracker.lastFixed.get? x = some f →
    s.tracker.anchorOf x = some a → f < a
  /-- What stands in a slot is fixed on its qubits. -/
  covered : ∀ {i : Nat} {x : Qubit} {op : Operation}, i < n → s.slots[i]? = some (some op) →
    op.actsOn x = true → ∃ f, s.tracker.lastFixed.get? x = some f ∧ i ≤ f
  program : ∀ x, leavesOn x (filled (s.slots.take n)) ++ leavesOn x (s.tracker.bodyOf x) =
    leavesOn x (ops.take n)
  content : (leavesOfAll (filled s.slots) ++ leavesOfAll s.tracker.pending).Perm
    (leavesOfAll ops)

variable {ops : List Operation} {n m : Nat} {s : BlockState}

theorem inv_ofOps (ops : List Operation) : Inv ops 0 0 (ofOps ops) := by
  have hfilled : filled (ops.map some) = ops := by simp [filled, List.filterMap_map]
  refine ⟨BlockTracker.valid_empty, Nat.le_refl 0, fun i _ => by simp [ofOps], nofun, nofun, ?_,
    nofun, nofun, nofun, fun x => rfl, ?_⟩
  · intro r x op hop
    cases hop
  · show (leavesOfAll (filled (ops.map some)) ++ []).Perm _
    rw [hfilled, List.append_nil]

theorem Inv.mono {m' : Nat} (h : Inv ops n m s) (hm : m ≤ m') : Inv ops n m' s :=
  { h with
    le := Nat.le_trans h.le hm
    fixed := fun hf => ⟨Nat.lt_of_lt_of_le (h.fixed hf).1 hm, (h.fixed hf).2⟩ }

theorem Inv.sameBlocks {t : BlockTracker} (h : Inv ops n m s) (hvalid : t.Valid)
    (hsame : BlockTracker.SameBlocks s.tracker t) : Inv ops n m { s with tracker := t } := by
  refine ⟨hvalid, h.le, h.rest, ?_, ?_, ?_, ?_, ?_, ?_, ?_, ?_⟩
  · intro r a hr
    exact h.anchor (hsame.anchors ▸ hr)
  · intro r r' a hr hr'
    exact h.anchor_inj (hsame.anchors ▸ hr) (hsame.anchors ▸ hr')
  · intro r x op hop hx
    rw [hsame.body] at hop
    obtain ⟨hknown, hroot⟩ := h.body hop hx
    exact ⟨hsame.knows x hknown, (hsame.root x).trans hroot⟩
  · intro x f hf
    exact h.fixed (hsame.lastFixed ▸ hf)
  · intro x f a hf ha
    rw [hsame.anchorOf] at ha
    exact h.fixed_lt (hsame.lastFixed ▸ hf) ha
  · intro i x op hi hop hx
    rw [hsame.lastFixed]
    exact h.covered hi hop hx
  · intro x
    rw [hsame.bodyOf]
    exact h.program x
  · rw [hsame.pending]
    exact h.content

/-- The body of a block has no leaves on other qubits. -/
theorem Inv.leavesOn_body (h : Inv ops n m s) {r x : Qubit} (hx : s.tracker.root x ≠ r) :
    leavesOn x (s.tracker.body r) = [] :=
  leavesOn_eq_nil fun _ hop hacts => hx (h.body hop hacts).2

/-! ## Merging -/

/-- Linking two roots moves the earlier block to the later anchor; a block that
has taken up nothing yet must have nothing fixed behind that anchor. -/
theorem Inv.link (h : Inv ops n m s) {keep gone : Qubit} (hne : keep ≠ gone)
    (hkeep : s.tracker.parent.get? keep = some keep)
    (hgone : s.tracker.parent.get? gone = some gone)
    (hfresh : ∀ {x : Qubit} {f a : Nat}, s.tracker.root x = keep ∨ s.tracker.root x = gone →
      s.tracker.anchorOf x = none → s.tracker.lastFixed.get? x = some f →
      s.tracker.anchors.get? keep = some a ∨ s.tracker.anchors.get? gone = some a → f < a) :
    Inv ops n m { s with tracker := s.tracker.link keep gone } := by
  have hvalid := h.valid.link hkeep hgone hne
  have hroot := BlockTracker.root_link h.valid hkeep hgone hne
  have hanchors := BlockTracker.get?_anchors_link s.tracker hne
  have hbody := BlockTracker.body_link s.tracker keep gone
  refine ⟨hvalid, h.le, h.rest, ?_, ?_, ?_, h.fixed, ?_, h.covered, ?_, ?_⟩
  · intro r a hr
    rw [hanchors] at hr
    split at hr
    · rcases (BlockTracker.laterSlot?_eq_some hr).1 with ha | ha
      · exact h.anchor ha
      · exact h.anchor ha
    · split at hr
      · cases hr
      · exact h.anchor hr
  · -- the merged block takes over an anchor of one of the two, and no one else has it
    have hother : ∀ {r : Qubit} {a : Nat}, r ≠ keep → r ≠ gone →
        s.tracker.anchors.get? r = some a →
        BlockTracker.laterSlot? (s.tracker.anchors.get? keep) (s.tracker.anchors.get? gone) ≠
          some a := by
      intro r a hrk hrg hr hlater
      rcases (BlockTracker.laterSlot?_eq_some hlater).1 with ha | ha
      · exact hrk (h.anchor_inj hr ha)
      · exact hrg (h.anchor_inj hr ha)
    intro r r' a hr hr'
    rw [hanchors] at hr hr'
    split at hr
    · next hrk =>
      split at hr'
      · next hrk' => rw [hrk, hrk']
      · next hrk' =>
        split at hr'
        · cases hr'
        · next hrg' => exact absurd hr (hother hrk' hrg' hr')
    · next hrk =>
      split at hr
      · cases hr
      · next hrg =>
        split at hr'
        · exact absurd hr' (hother hrk hrg hr)
        · split at hr'
          · cases hr'
          · exact h.anchor_inj hr hr'
  · intro r x op hop hx
    rw [hbody] at hop
    show (s.tracker.link keep gone).Knows x ∧ _
    rw [hroot]
    split at hop
    · next hrk =>
      rcases List.mem_append.1 hop with hop | hop
      · obtain ⟨hknown, hold⟩ := h.body hop hx
        exact ⟨BlockTracker.knows_link hknown, by rw [hold, if_neg hne, hrk]⟩
      · obtain ⟨hknown, hold⟩ := h.body hop hx
        exact ⟨BlockTracker.knows_link hknown, by rw [hold, if_pos rfl, hrk]⟩
    · split at hop
      · cases hop
      · next hrg =>
        obtain ⟨hknown, hold⟩ := h.body hop hx
        exact ⟨BlockTracker.knows_link hknown, by rw [hold, if_neg hrg]⟩
  · intro x f a hf ha
    have ha' : (s.tracker.link keep gone).anchors.get? ((s.tracker.link keep gone).root x) =
        some a := ha
    rw [hanchors, hroot] at ha'
    by_cases hmerged : s.tracker.root x = keep ∨ s.tracker.root x = gone
    · have hnew : (if s.tracker.root x = gone then keep else s.tracker.root x) = keep := by
        rcases hmerged with hx | hx
        · rw [hx, if_neg hne]
        · rw [if_pos hx]
      rw [if_pos hnew] at ha'
      obtain ⟨hone, hk, hg⟩ := BlockTracker.laterSlot?_eq_some ha'
      cases hold : s.tracker.anchorOf x with
      | none => exact hfresh hmerged hold hf hone
      | some b =>
        refine Nat.lt_of_lt_of_le (h.fixed_lt hf hold) ?_
        rcases hmerged with hx | hx
        · rw [BlockTracker.anchorOf, hx] at hold
          exact hk hold
        · rw [BlockTracker.anchorOf, hx] at hold
          exact hg hold
    · have hxk : s.tracker.root x ≠ keep := fun hx => hmerged (.inl hx)
      have hxg : s.tracker.root x ≠ gone := fun hx => hmerged (.inr hx)
      rw [if_neg hxg, if_neg hxk, if_neg hxg] at ha'
      exact h.fixed_lt hf ha'
  · intro x
    rw [← h.program x]
    congr 1
    show leavesOn x ((s.tracker.link keep gone).body ((s.tracker.link keep gone).root x)) =
      leavesOn x (s.tracker.body (s.tracker.root x))
    rw [hbody, hroot]
    by_cases hxg : s.tracker.root x = gone
    · rw [if_pos hxg, if_pos rfl, leavesOn_append, h.leavesOn_body (r := keep), hxg,
        List.nil_append]
      rw [hxg]
      exact Ne.symm hne
    · rw [if_neg hxg]
      split
      · next hxk =>
        rw [leavesOn_append, h.leavesOn_body hxg, List.append_nil, hxk]
      · rfl
  · exact (List.Perm.append_left _ (leavesOfAll_perm
      (BlockTracker.pending_link s.tracker hne))).trans h.content

/-! ## Writing a block -/

/-- The state after the block of a root has been written to its anchor. -/
def written (s : BlockState) (r : Qubit) (a : Nat) : BlockState where
  tracker := s.tracker.dissolve r a
  slots := s.slots.set a (some (.ofChildren (s.tracker.body r)))

-- Nothing stands behind the anchor on a qubit of the block, so the body comes
-- last there; on other qubits it adds nothing.
theorem Inv.leavesOn_written (h : Inv ops n m s) {r : Qubit} {a : Nat}
    (hr : s.tracker.anchors.get? r = some a) (x : Qubit) :
    leavesOn x (filled ((s.written r a).slots.take n)) =
      leavesOn x (filled (s.slots.take n)) ++ leavesOn x (s.tracker.body r) := by
  obtain ⟨hlt, hempty⟩ := h.anchor hr
  have htake : (s.slots.take n)[a]? = some none := by
    rw [List.getElem?_take_of_lt hlt, hempty]
  have hlen : a < (s.slots.take n).length := (List.getElem?_eq_some_iff.1 htake).1
  have hold := filled_split htake
  have hnew := filled_set hlen (some (ofChildren (s.tracker.body r)))
  rw [← List.take_set] at hnew
  show leavesOn x (filled ((s.slots.set a _).take n)) = _
  rw [hnew, hold]
  simp only [Option.toList_some, Option.toList_none, List.append_nil, leavesOn_append,
    leavesOn_ofChildren, List.append_assoc]
  congr 1
  by_cases hx : s.tracker.root x = r
  · have hbehind : leavesOn x (filled ((s.slots.take n).drop (a + 1))) = [] := by
      refine leavesOn_eq_nil fun op hop hacts => ?_
      obtain ⟨j, haj, hj⟩ := mem_filled_drop hop
      have hjn : j < n := by
        have := (List.getElem?_eq_some_iff.1 hj).1
        rw [List.length_take] at this
        omega
      rw [List.getElem?_take_of_lt hjn] at hj
      obtain ⟨f, hf, hjf⟩ := h.covered hjn hj hacts
      have hfa := h.fixed_lt hf (show s.tracker.anchorOf x = some a by
        rw [BlockTracker.anchorOf, hx, hr])
      omega
    rw [hbehind, List.append_nil, List.nil_append]
  · rw [h.leavesOn_body hx, List.nil_append, List.append_nil]

section written
variable {r : Qubit} {a : Nat}

theorem get?_anchors_written (s : BlockState) (r r' : Qubit) (a : Nat) :
    (s.written r a).tracker.anchors.get? r' =
      if r' = r then none else s.tracker.anchors.get? r' := by
  rw [written, BlockTracker.anchors_dissolve, OrderedMap.get?_erase]

theorem Inv.root_written (h : Inv ops n m s) (hr : s.tracker.anchors.get? r = some a)
    (x : Qubit) :
    (s.written r a).tracker.root x = if s.tracker.root x = r then x else s.tracker.root x :=
  BlockTracker.root_dissolve h.valid (h.valid.anchor_root hr) a x

theorem Inv.anchorOf_written (h : Inv ops n m s) (hr : s.tracker.anchors.get? r = some a)
    (x : Qubit) :
    (s.written r a).tracker.anchorOf x =
      if s.tracker.root x = r then none else s.tracker.anchorOf x := by
  rw [BlockTracker.anchorOf, h.root_written hr, get?_anchors_written]
  by_cases hx : s.tracker.root x = r
  · -- a member of the block is alone now, and no other root is a member
    rw [if_pos hx, if_pos hx]
    by_cases hxr : x = r
    · rw [if_pos hxr]
    · rw [if_neg hxr]
      cases hx' : s.tracker.anchors.get? x with
      | none => rfl
      | some b =>
        have hself := h.valid.root_of_root (h.valid.anchor_root hx')
        exact absurd (hself.symm.trans hx) hxr
  · rw [if_neg hx, if_neg hx, if_neg hx]
    rfl

/-- On the qubits of the block its anchor is now the latest fixed slot. -/
theorem Inv.lastFixed_written (h : Inv ops n m s) (hr : s.tracker.anchors.get? r = some a)
    (x : Qubit) :
    (s.written r a).tracker.lastFixed.get? x =
      if s.tracker.root x = r then some a else s.tracker.lastFixed.get? x := by
  rw [BlockState.written,
    BlockTracker.get?_lastFixed_dissolve h.valid (h.valid.anchor_root hr)]
  split
  · next hx =>
    cases hf : s.tracker.lastFixed.get? x with
    | none => simp
    | some f =>
      have := h.fixed_lt hf (show s.tracker.anchorOf x = some a by
        rw [BlockTracker.anchorOf, hx, hr])
      rw [Option.getD_some, Nat.max_eq_right (Nat.le_of_lt this)]
  · rfl

theorem Inv.getElem?_written (h : Inv ops n m s) (hr : s.tracker.anchors.get? r = some a)
    (i : Nat) :
    (s.written r a).slots[i]? =
      if a = i then some (some (.ofChildren (s.tracker.body r))) else s.slots[i]? := by
  have hlen : a < s.slots.length := (List.getElem?_eq_some_iff.1 (h.anchor hr).2).1
  show (s.slots.set a _)[i]? = _
  rw [List.getElem?_set, if_pos hlen]

theorem Inv.content_written (h : Inv ops n m s) (hr : s.tracker.anchors.get? r = some a) :
    (leavesOfAll (filled (s.written r a).slots) ++
      leavesOfAll (s.written r a).tracker.pending).Perm (leavesOfAll ops) := by
  obtain ⟨-, hempty⟩ := h.anchor hr
  have hlen : a < s.slots.length := (List.getElem?_eq_some_iff.1 hempty).1
  have hold := filled_split hempty
  have hnew : filled (s.written r a).slots = _ :=
    filled_set hlen (some (.ofChildren (s.tracker.body r)))
  have hpending := leavesOfAll_perm (BlockTracker.pending_dissolve s.tracker r a)
  rw [leavesOfAll_append] at hpending
  refine .trans ?_ ((hpending.append_left _).symm.trans h.content)
  rw [hnew, hold]
  simp only [Option.toList_some, Option.toList_none, List.append_nil, leavesOfAll_append,
    leavesOfAll_cons, leavesOfAll_nil, leaves_ofChildren, List.append_assoc]
  refine List.Perm.append_left _ ?_
  rw [← List.append_assoc, ← List.append_assoc]
  exact List.perm_append_comm.append_right _

theorem Inv.program_written (h : Inv ops n m s) (hr : s.tracker.anchors.get? r = some a)
    (x : Qubit) :
    leavesOn x (filled ((s.written r a).slots.take n)) ++
      leavesOn x ((s.written r a).tracker.bodyOf x) = leavesOn x (ops.take n) := by
  rw [h.leavesOn_written hr x, ← h.program x, List.append_assoc]
  congr 1
  rw [BlockTracker.bodyOf, h.root_written hr, BlockState.written, BlockTracker.body_dissolve]
  by_cases hx : s.tracker.root x = r
  · rw [if_pos hx, BlockTracker.bodyOf, hx]
    split
    · rw [leavesOn_nil, List.append_nil]
    · next hne =>
      -- a member that is not the root never had a body of its own
      rw [h.leavesOn_body (r := x), List.append_nil]
      rw [hx]
      exact Ne.symm hne
  · rw [if_neg hx, if_neg hx, h.leavesOn_body hx, List.nil_append]
    rfl

theorem Inv.written (h : Inv ops n m s) (hr : s.tracker.anchors.get? r = some a) :
    Inv ops n m (s.written r a) := by
  have hlt := (h.anchor hr).1
  have hfixed := h.lastFixed_written hr
  have hget := h.getElem?_written hr
  refine ⟨h.valid.dissolve (h.valid.anchor_root hr) a, h.le, ?_, ?_, ?_, ?_, ?_, ?_, ?_,
    h.program_written hr, h.content_written hr⟩
  · intro i hi
    rw [hget, if_neg (by omega)]
    exact h.rest i hi
  · intro r' b hb
    rw [get?_anchors_written] at hb
    split at hb
    · cases hb
    · next hne =>
      obtain ⟨hbn, hslot⟩ := h.anchor hb
      have hab : a ≠ b := by
        rintro rfl
        exact hne (h.anchor_inj hb hr)
      exact ⟨hbn, by rw [hget, if_neg hab, hslot]⟩
  · intro r₁ r₂ b h₁ h₂
    rw [get?_anchors_written] at h₁ h₂
    split at h₁
    · cases h₁
    · split at h₂
      · cases h₂
      · exact h.anchor_inj h₁ h₂
  · intro r' x op hop hx
    rw [BlockState.written, BlockTracker.body_dissolve] at hop
    split at hop
    · cases hop
    · next hne =>
      obtain ⟨hknown, hold⟩ := h.body hop hx
      exact ⟨BlockTracker.knows_dissolve a hknown, by rw [h.root_written hr, hold, if_neg hne]⟩
  · intro x f hf
    rw [hfixed] at hf
    rw [hget]
    split at hf
    · cases Option.some.inj hf
      exact ⟨Nat.lt_of_lt_of_le hlt h.le, _, by rw [if_pos rfl]⟩
    · obtain ⟨hfm, op, hop⟩ := h.fixed hf
      refine ⟨hfm, ?_⟩
      split
      · exact ⟨_, rfl⟩
      · exact ⟨op, hop⟩
  · intro x f b hf hb
    rw [h.anchorOf_written hr] at hb
    rw [hfixed] at hf
    split at hb
    · cases hb
    · next hx =>
      rw [if_neg hx] at hf
      exact h.fixed_lt hf hb
  · intro i x op hi hop hx
    rw [hget] at hop
    rw [hfixed]
    split at hop
    · next hai =>
      -- what acts on a qubit here is in the body, so the qubit is a member
      cases Option.some.inj (Option.some.inj hop)
      obtain ⟨leaf, hmem, hacts⟩ := actsOn_iff_leaf.1 hx
      rw [leaves_ofChildren, mem_leavesOfAll] at hmem
      obtain ⟨child, hchild, hmem⟩ := hmem
      have hin := h.body hchild (actsOn_iff_leaf.2 ⟨leaf, hmem, hacts⟩)
      exact ⟨a, if_pos hin.2, Nat.le_of_eq hai.symm⟩
    · obtain ⟨f, hf, hif⟩ := h.covered hi hop hx
      split
      · next hxr =>
        have hfa := h.fixed_lt hf (show s.tracker.anchorOf x = some a by
          rw [BlockTracker.anchorOf, hxr, hr])
        exact ⟨a, rfl, by omega⟩
      · exact ⟨f, hf, hif⟩

end written

theorem finalize_eq (h : Inv ops n m s) (q : Qubit) :
    s.finalize q = match s.tracker.anchorOf q with
      | none => { s with tracker := s.tracker.touch q }
      | some a => ({ s with tracker := s.tracker.touch q } : BlockState).written
          (s.tracker.root q) a := by
  have hsame := (h.valid.touch q).2
  have hanchor : (s.tracker.touch q).anchors.get? (s.tracker.root q) = s.tracker.anchorOf q := by
    rw [hsame.anchors, BlockTracker.anchorOf]
  simp only [finalize, BlockTracker.find, hanchor]
  cases s.tracker.anchorOf q with
  | none => rfl
  | some a => rfl

theorem Inv.finalize (h : Inv ops n m s) (q : Qubit) : Inv ops n m (s.finalize q) := by
  obtain ⟨hvalid, hsame⟩ := h.valid.touch q
  have htouched := h.sameBlocks hvalid hsame
  rw [finalize_eq h]
  cases ha : s.tracker.anchorOf q with
  | none => exact htouched
  | some a =>
    refine htouched.written ?_
    show (s.tracker.touch q).anchors.get? _ = _
    rw [hsame.anchors]
    exact ha

/-! Writing the block of one qubit leaves the other blocks alone. The members of
the block are on their own afterwards. -/

theorem Inv.anchorOf_finalize (h : Inv ops n m s) (q x : Qubit) :
    (s.finalize q).tracker.anchorOf x =
      if s.tracker.root x = s.tracker.root q then none else s.tracker.anchorOf x := by
  obtain ⟨hvalid, hsame⟩ := h.valid.touch q
  rw [finalize_eq h]
  cases ha : s.tracker.anchorOf q with
  | none =>
    show (s.tracker.touch q).anchorOf x = _
    rw [hsame.anchorOf]
    split
    · next hx => rw [BlockTracker.anchorOf, hx]; exact ha
    · rfl
  | some a =>
    have hr : (s.tracker.touch q).anchors.get? (s.tracker.root q) = some a := by
      rw [hsame.anchors]
      exact ha
    have hview := (h.sameBlocks hvalid hsame).anchorOf_written hr x
    rwa [hsame.root, hsame.anchorOf] at hview

theorem Inv.root_finalize (h : Inv ops n m s) (q x : Qubit) :
    (s.finalize q).tracker.root x =
      if s.tracker.root x = s.tracker.root q ∧ s.tracker.anchorOf q ≠ none then x
      else s.tracker.root x := by
  obtain ⟨hvalid, hsame⟩ := h.valid.touch q
  rw [finalize_eq h]
  cases ha : s.tracker.anchorOf q with
  | none =>
    show (s.tracker.touch q).root x = _
    rw [hsame.root]
    simp
  | some a =>
    have hr : (s.tracker.touch q).anchors.get? (s.tracker.root q) = some a := by
      rw [hsame.anchors]
      exact ha
    have hview := (h.sameBlocks hvalid hsame).root_written hr x
    rw [hsame.root] at hview
    simpa using hview

theorem Inv.lastFixed_finalize (h : Inv ops n m s) (q x : Qubit) :
    (s.finalize q).tracker.lastFixed.get? x =
      if s.tracker.root x = s.tracker.root q then
        (s.tracker.anchorOf q).or (s.tracker.lastFixed.get? x)
      else s.tracker.lastFixed.get? x := by
  obtain ⟨hvalid, hsame⟩ := h.valid.touch q
  rw [finalize_eq h]
  cases ha : s.tracker.anchorOf q with
  | none =>
    show (s.tracker.touch q).lastFixed.get? x = _
    rw [hsame.lastFixed]
    simp
  | some a =>
    have hr : (s.tracker.touch q).anchors.get? (s.tracker.root q) = some a := by
      rw [hsame.anchors]
      exact ha
    have hview := (h.sameBlocks hvalid hsame).lastFixed_written hr x
    rw [hsame.root, hsame.lastFixed] at hview
    simpa using hview

theorem Inv.settled_finalize (h : Inv ops n m s) (hs : s.tracker.Settled) (q : Qubit) :
    (s.finalize q).tracker.Settled := by
  intro x hx
  rw [h.anchorOf_finalize] at hx
  rw [h.root_finalize]
  split
  · rfl
  · next hno =>
    split at hx
    · next hxq =>
      have hnone : s.tracker.anchorOf q = none := by
        by_contra hopen
        exact hno ⟨hxq, hopen⟩
      refine hs x ?_
      rw [BlockTracker.anchorOf, hxq]
      exact hnone
    · exact hs x hx

end BlockState
end QuantumCircuit
