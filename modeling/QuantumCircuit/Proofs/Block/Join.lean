import QuantumCircuit.Proofs.Block.Invariant

/-! Operations that stay and operations that join. An operation stays in its slot
when no block is open on its qubits. It joins the blocks of its qubits when the
blocks lie behind whatever is fixed on the qubits that are new to them. -/
namespace QuantumCircuit
namespace BlockState
open Operation QuantumCircuit.Dynamic

variable {ops : List Operation} {n m : Nat} {s : BlockState} {op : Operation}

/-! ## Staying in place -/

theorem Inv.slot_eq (h : Inv ops n m s) (hop : ops[n]? = some op) :
    s.slots[n]? = some (some op) := by
  rw [h.rest n (Nat.le_refl n), hop]
  rfl

theorem get?_lastFixed_fix (slot : Nat) (s : BlockState) (q x : Qubit) :
    (fix slot s q).tracker.lastFixed.get? x =
      if x = q then some (max ((s.tracker.lastFixed.get? q).getD slot) slot)
      else s.tracker.lastFixed.get? x :=
  OrderedMap.get?_insert ..

theorem Inv.lastFixed_fix (h : Inv ops n (n + 1) s) (q x : Qubit) :
    (fix n s q).tracker.lastFixed.get? x =
      if x = q then some n else s.tracker.lastFixed.get? x := by
  rw [get?_lastFixed_fix]
  split
  · cases hf : s.tracker.lastFixed.get? q with
    | none => simp
    | some f =>
      have := (h.fixed hf).1
      rw [Option.getD_some, Nat.max_eq_right (by omega)]
  · rfl

theorem Inv.fix (h : Inv ops n (n + 1) s) (hop : ops[n]? = some op) {q : Qubit}
    (hq : s.tracker.anchorOf q = none) : Inv ops n (n + 1) (fix n s q) := by
  have hfixed := h.lastFixed_fix q
  refine { h with valid := ⟨h.valid.1, h.valid.2, h.valid.3, h.valid.4, h.valid.5, h.valid.6⟩
                  fixed := ?_, fixed_lt := ?_, covered := ?_ }
  · intro x f hf
    rw [hfixed] at hf
    split at hf
    · cases Option.some.inj hf
      exact ⟨Nat.lt_succ_self n, op, h.slot_eq hop⟩
    · exact h.fixed hf
  · intro x f a hf ha
    rw [hfixed] at hf
    split at hf
    · next hxq =>
      subst hxq
      have hnone : (BlockState.fix n s x).tracker.anchorOf x = none := hq
      rw [hnone] at ha
      cases ha
    · exact h.fixed_lt hf ha
  · intro i x op' hi hop' hx
    rw [hfixed]
    split
    · exact ⟨n, rfl, Nat.le_of_lt hi⟩
    · exact h.covered hi hop' hx

/-- An operation whose qubits have no open blocks is passed by. -/
theorem Inv.stay (h : Inv ops n (n + 1) s) (hop : ops[n]? = some op)
    (hfix : ∀ x, op.actsOn x = true →
      s.tracker.anchorOf x = none ∧ s.tracker.lastFixed.get? x = some n) :
    Inv ops (n + 1) (n + 1) s := by
  have hslot := h.slot_eq hop
  refine { h with le := Nat.le_refl _, rest := ?_, anchor := ?_, covered := ?_, program := ?_ }
  · intro i hi
    exact h.rest i (by omega)
  · intro r a ha
    exact ⟨Nat.lt_succ_of_lt (h.anchor ha).1, (h.anchor ha).2⟩
  · intro i x op' hi hop' hx
    by_cases hin : i = n
    · subst hin
      rw [hslot] at hop'
      cases Option.some.inj (Option.some.inj hop')
      exact ⟨i, (hfix x hx).2, Nat.le_refl i⟩
    · exact h.covered (by omega) hop' hx
  · intro x
    rw [take_succ_filled hslot, List.take_add_one, hop, leavesOn_append, leavesOn_append,
      ← h.program x]
    by_cases hx : op.actsOn x = true
    · rw [h.valid.bodyOf_eq_nil (hfix x hx).1]
      simp
    · have hnil : leavesOn x [op] = [] := leavesOn_eq_nil (by simpa using hx)
      simp [hnil]

/-! ## Merging the blocks of some qubits -/

/-- The blocks of the qubits can become one: what is fixed on a qubit that is
new to them lies before their anchors. -/
def Compatible (t : BlockTracker) (used : List Qubit) : Prop :=
  ∀ {x u v : Qubit} {f a : Nat}, u ∈ used → v ∈ used → t.root x = t.root u →
    t.anchorOf x = none → t.lastFixed.get? x = some f → t.anchorOf v = some a → f < a

/-- Qubits whose blocks have taken up nothing are alone, unless they are among
the qubits that are being merged. -/
def SettledBut (t : BlockTracker) (used : List Qubit) : Prop :=
  ∀ x, t.anchorOf x = none → t.root x = x ∨ ∃ u ∈ used, t.root x = t.root u

/-- What is kept while the blocks of some qubits are merged. -/
structure Merging (ops : List Operation) (n m : Nat) (used : List Qubit) (s : BlockState) :
    Prop where
  inv : Inv ops n m s
  compatible : Compatible s.tracker used
  settled : SettledBut s.tracker used

theorem Merging.sameBlocks {used : List Qubit} {t : BlockTracker} (h : Merging ops n m used s)
    (hvalid : t.Valid) (hsame : BlockTracker.SameBlocks s.tracker t) :
    Merging ops n m used { s with tracker := t } := by
  refine ⟨h.inv.sameBlocks hvalid hsame, ?_, ?_⟩
  · intro x u v f a hu hv hx hnone hf ha
    simp only [hsame.root, hsame.anchorOf, hsame.lastFixed] at hx hnone hf ha
    exact h.compatible hu hv hx hnone hf ha
  · intro x hx
    simp only [hsame.root, hsame.anchorOf] at hx ⊢
    exact h.settled x hx

theorem anchorOf_link {t : BlockTracker} (hvalid : t.Valid) {keep gone : Qubit} (hne : keep ≠ gone)
    (hkeep : t.parent.get? keep = some keep) (hgone : t.parent.get? gone = some gone) (x : Qubit) :
    (t.link keep gone).anchorOf x =
      if t.root x = keep ∨ t.root x = gone then
        BlockTracker.laterSlot? (t.anchors.get? keep) (t.anchors.get? gone)
      else t.anchorOf x := by
  rw [BlockTracker.anchorOf, BlockTracker.root_link hvalid hkeep hgone hne,
    BlockTracker.get?_anchors_link t hne]
  by_cases hg : t.root x = gone
  · simp [hg]
  · by_cases hk : t.root x = keep
    · simp [hk, hne]
    · simp [hg, hk, BlockTracker.anchorOf]

theorem Merging.link {used : List Qubit} (h : Merging ops n m used s) {keep gone a b : Qubit}
    (hne : keep ≠ gone) (hkeep : s.tracker.parent.get? keep = some keep)
    (hgone : s.tracker.parent.get? gone = some gone) (ha : a ∈ used) (hb : b ∈ used)
    (hka : s.tracker.root a = keep) (hgb : s.tracker.root b = gone) :
    Merging ops n m used { s with tracker := s.tracker.link keep gone } := by
  have hroot := BlockTracker.root_link h.inv.valid hkeep hgone hne
  have hanchor := anchorOf_link h.inv.valid hne hkeep hgone
  -- an anchor of one of the two roots is that of `a` or `b`
  have hone : ∀ {c : Nat}, s.tracker.anchors.get? keep = some c ∨
      s.tracker.anchors.get? gone = some c → ∃ v ∈ used, s.tracker.anchorOf v = some c := by
    rintro c (hc | hc)
    · exact ⟨a, ha, by rw [BlockTracker.anchorOf, hka, hc]⟩
    · exact ⟨b, hb, by rw [BlockTracker.anchorOf, hgb, hc]⟩
  have hmember : ∀ {x : Qubit}, s.tracker.root x = keep ∨ s.tracker.root x = gone →
      ∃ u ∈ used, s.tracker.root x = s.tracker.root u := by
    rintro x (hx | hx)
    · exact ⟨a, ha, hx.trans hka.symm⟩
    · exact ⟨b, hb, hx.trans hgb.symm⟩
  -- a block that has no anchor now had none before
  have hnone : ∀ {x : Qubit}, (s.tracker.link keep gone).anchorOf x = none →
      s.tracker.anchorOf x = none := by
    intro x hx
    rw [hanchor] at hx
    split at hx
    · next hmerged =>
      obtain ⟨hk, hg⟩ := BlockTracker.laterSlot?_eq_none.1 hx
      rcases hmerged with hx' | hx'
      · rw [BlockTracker.anchorOf, hx', hk]
      · rw [BlockTracker.anchorOf, hx', hg]
    · exact hx
  refine ⟨h.inv.link hne hkeep hgone ?_, ?_, ?_⟩
  · intro x f c hx hfresh hf hc
    obtain ⟨u, hu, hxu⟩ := hmember hx
    obtain ⟨v, hv, hvc⟩ := hone hc
    exact h.compatible hu hv hxu hfresh hf hvc
  · intro x u v f c hu hv hxu hfresh hf hc
    have hold := hnone hfresh
    have hxu' : ∃ w ∈ used, s.tracker.root x = s.tracker.root w := by
      by_cases hmerged : s.tracker.root x = keep ∨ s.tracker.root x = gone
      · exact hmember hmerged
      · refine ⟨u, hu, ?_⟩
        have hxu'' : (s.tracker.link keep gone).root x = (s.tracker.link keep gone).root u := hxu
        rw [hroot, hroot, if_neg fun hx => hmerged (.inr hx)] at hxu''
        split at hxu''
        · exact absurd (.inl hxu'') hmerged
        · exact hxu''
    obtain ⟨w, hw, hxw⟩ := hxu'
    have hc' : (s.tracker.link keep gone).anchorOf v = some c := hc
    rw [hanchor] at hc'
    split at hc'
    · obtain ⟨v', hv', hvc⟩ := hone (BlockTracker.laterSlot?_eq_some hc').1
      exact h.compatible hw hv' hxw hold hf hvc
    · exact h.compatible hw hv hxw hold hf hc'
  · intro x hfresh
    show (s.tracker.link keep gone).root x = x ∨
      ∃ u ∈ used, (s.tracker.link keep gone).root x = (s.tracker.link keep gone).root u
    simp only [hroot]
    by_cases hmerged : s.tracker.root x = keep ∨ s.tracker.root x = gone
    · obtain ⟨u, hu, hxu⟩ := hmember hmerged
      exact .inr ⟨u, hu, by rw [hxu]⟩
    · rcases h.settled x (hnone hfresh) with hx | ⟨u, hu, hxu⟩
      · exact .inl (by rw [if_neg fun hx => hmerged (.inr hx), hx])
      · exact .inr ⟨u, hu, by rw [hxu]⟩

/-- Merging the blocks of two of the qubits gives them one root, and qubits that
had a root in common still do. -/
theorem Merging.union {used : List Qubit} (h : Merging ops n m used s) {a b : Qubit}
    (ha : a ∈ used) (hb : b ∈ used) :
    Merging ops n m used { s with tracker := s.tracker.union a b } ∧
      (s.tracker.union a b).root a = (s.tracker.union a b).root b ∧
      ∀ {x y : Qubit}, s.tracker.root x = s.tracker.root y →
        (s.tracker.union a b).root x = (s.tracker.union a b).root y := by
  obtain ⟨u, hvalid, hsame, -, -, hcases⟩ := h.inv.valid.union_cases a b
  have hu := h.sameBlocks hvalid hsame
  rcases hcases with ⟨heq, hunion⟩ | ⟨keep, gone, hne, hkeep, hgone, hunion, hroots⟩
  · rw [hunion]
    simp only [hsame.root]
    exact ⟨hu, heq, id⟩
  · have hroot := BlockTracker.root_link hvalid hkeep hgone hne
    rw [hunion]
    simp only [hroot, hsame.root]
    rcases hroots with ⟨hk, hg⟩ | ⟨hk, hg⟩
    · refine ⟨hu.link hne hkeep hgone ha hb ((hsame.root a).trans hk.symm)
        ((hsame.root b).trans hg.symm), ?_, ?_⟩
      · rw [← hk, ← hg, if_neg hne, if_pos rfl]
      · intro x y hxy
        rw [hxy]
    · refine ⟨hu.link hne hkeep hgone hb ha ((hsame.root b).trans hk.symm)
        ((hsame.root a).trans hg.symm), ?_, ?_⟩
      · rw [← hk, ← hg, if_neg hne, if_pos rfl]
      · intro x y hxy
        rw [hxy]

theorem Merging.unionAll {used : List Qubit} : ∀ (l : List Qubit) {s : BlockState},
    Merging ops n m used s → (∀ x ∈ l, x ∈ used) →
    Merging ops n m used { s with tracker := unionAll s.tracker l } ∧
      (∀ x ∈ l, ∀ y ∈ l, (BlockState.unionAll s.tracker l).root x =
        (BlockState.unionAll s.tracker l).root y) ∧
      ∀ {x y : Qubit}, s.tracker.root x = s.tracker.root y →
        (BlockState.unionAll s.tracker l).root x = (BlockState.unionAll s.tracker l).root y
  | [], _, h, _ => ⟨h, by simp, id⟩
  | [a], _, h, _ => ⟨h, by simp [BlockState.unionAll], id⟩
  | a :: b :: rest, s, h, hl => by
    obtain ⟨hunion, hab, hkeeps⟩ := h.union (hl a (by simp)) (hl b (by simp))
    obtain ⟨hall, hsame, hkeeps'⟩ :=
      Merging.unionAll (b :: rest) hunion fun x hx => hl x (List.mem_cons_of_mem _ hx)
    refine ⟨hall, ?_, fun hxy => hkeeps' (hkeeps hxy)⟩
    -- `a` has the root of `b`, and from there on all share one
    have hfirst : ∀ x ∈ a :: b :: rest, (BlockState.unionAll s.tracker (a :: b :: rest)).root x =
        (BlockState.unionAll s.tracker (a :: b :: rest)).root b := by
      intro x hx
      rcases List.mem_cons.1 hx with rfl | hx
      · exact hkeeps' hab
      · exact hsame x hx b List.mem_cons_self
    intro x hx y hy
    rw [hfirst x hx, hfirst y hy]

/-! ## Joining -/

/-- The tracker after the operation at a slot has joined the block of a root. -/
def joined (t : BlockTracker) (r : Qubit) (op : Operation) (slot : Nat) : BlockTracker :=
  { t with
    bodies := t.bodies.insert r (t.body r ++ [op])
    anchors := if t.anchors.contains r then t.anchors else t.anchors.insert r slot }

theorem absorb_eq (s : BlockState) {first : Qubit} {rest : List Qubit} {slot : Nat}
    (hop : s.slots[slot]? = some (some op)) :
    s.absorb (first :: rest) slot =
      { tracker := joined ((unionAll s.tracker (first :: rest)).touch first)
          ((unionAll s.tracker (first :: rest)).root first) op slot
        slots := s.slots.set slot none } := by
  simp only [absorb, BlockTracker.find, hop, joined]

section joined
variable {t : BlockTracker} {r : Qubit} {slot : Nat}

theorem get?_anchors_joined (t : BlockTracker) (r r' : Qubit) (op : Operation) (slot : Nat) :
    (joined t r op slot).anchors.get? r' =
      if r' = r then some ((t.anchors.get? r).getD slot) else t.anchors.get? r' := by
  show OrderedMap.get? (if t.anchors.contains r then _ else _) r' = _
  by_cases hc : t.anchors.contains r = true
  · obtain ⟨a, ha⟩ := OrderedMap.contains_eq_true.1 hc
    rw [if_pos hc, ha]
    split
    · next h => rw [h, ha]; rfl
    · rfl
  · have hnone := OrderedMap.contains_eq_false.1 (by simpa using hc)
    rw [if_neg hc, OrderedMap.get?_insert, hnone]
    rfl

theorem body_joined (t : BlockTracker) (r r' : Qubit) (op : Operation) (slot : Nat) :
    (joined t r op slot).body r' = if r' = r then t.body r ++ [op] else t.body r' := by
  rw [BlockTracker.body, joined, OrderedMap.get?_insert]
  split <;> rfl

theorem pending_joined (t : BlockTracker) (r : Qubit) (op : Operation) (slot : Nat) :
    (joined t r op slot).pending.Perm (op :: t.pending) := by
  refine (t.bodies.flatten_values_insert r _).trans ?_
  refine .trans ?_ ((t.bodies.flatten_values r).symm.cons op)
  show (t.body r ++ [op] ++ _).Perm (op :: (t.body r ++ _))
  rw [List.append_assoc]
  exact List.perm_middle

theorem valid_joined (h : t.Valid) (hr : t.parent.get? r = some r) :
    (joined t r op slot).Valid := by
  refine { h with forest := h.forest, bodies_iff := ?_, anchor_root := ?_ }
  · intro r'
    rw [get?_anchors_joined]
    show ((t.bodies.insert r _).get? r').isSome = _
    rw [OrderedMap.get?_insert]
    split
    · rfl
    · exact h.bodies_iff r'
  · intro r' a ha
    rw [get?_anchors_joined] at ha
    split at ha
    · next he => exact he ▸ hr
    · exact h.anchor_root ha

/-- The operation at the current slot joins a block that holds all its qubits. -/
theorem Inv.joined (h : Inv ops n n s) (hop : ops[n]? = some op)
    (hr : s.tracker.parent.get? r = some r)
    (hmem : ∀ x, op.actsOn x = true → s.tracker.Knows x ∧ s.tracker.root x = r) :
    Inv ops (n + 1) (n + 1)
      { tracker := joined s.tracker r op n, slots := s.slots.set n none } := by
  have hslot := h.slot_eq hop
  have hlen : n < s.slots.length := (List.getElem?_eq_some_iff.1 hslot).1
  have hanchors := fun r' => get?_anchors_joined s.tracker r r' op n
  have hget : ∀ i, (s.slots.set n none)[i]? = if n = i then some none else s.slots[i]? := by
    intro i
    rw [List.getElem?_set, if_pos hlen]
  -- the anchor of the block: its old one, or else the current slot
  have hanchor : ∀ {a : Nat}, (s.tracker.anchors.get? r).getD n = a →
      s.tracker.anchors.get? r = some a ∨ a = n := by
    intro a ha
    cases hold : s.tracker.anchors.get? r with
    | none => rw [hold] at ha; exact .inr ha.symm
    | some b => rw [hold] at ha; exact .inl (congrArg some ha)
  refine ⟨valid_joined h.valid hr, Nat.le_refl _, ?_, ?_, ?_, ?_, ?_, ?_, ?_, ?_, ?_⟩
  · intro i hi
    show (s.slots.set n none)[i]? = _
    rw [hget, if_neg (by omega)]
    exact h.rest i (by omega)
  · intro r' a ha
    show a < n + 1 ∧ (s.slots.set n none)[a]? = some none
    rw [hanchors] at ha
    rw [hget]
    split at ha
    · rcases hanchor (Option.some.inj ha) with ha | rfl
      · have := h.anchor ha
        exact ⟨by omega, by rw [if_neg (by omega), this.2]⟩
      · exact ⟨Nat.lt_succ_self _, if_pos rfl⟩
    · have := h.anchor ha
      exact ⟨by omega, by rw [if_neg (by omega), this.2]⟩
  · -- the current slot is no one's anchor yet
    have hother : ∀ {r' : Qubit} {a : Nat}, r' ≠ r → s.tracker.anchors.get? r' = some a →
        (s.tracker.anchors.get? r).getD n ≠ a := by
      intro r' a hne ha hgetD
      rcases hanchor hgetD with hra | rfl
      · exact hne (h.anchor_inj ha hra)
      · exact Nat.lt_irrefl _ (h.anchor ha).1
    intro r₁ r₂ a h₁ h₂
    rw [hanchors] at h₁ h₂
    split at h₁
    · next he₁ =>
      split at h₂
      · next he₂ => rw [he₁, he₂]
      · next he₂ => exact absurd (Option.some.inj h₁) (hother he₂ h₂)
    · next he₁ =>
      split at h₂
      · exact absurd (Option.some.inj h₂) (hother he₁ h₁)
      · exact h.anchor_inj h₁ h₂
  · intro r' x op' hop' hx
    have hop'' : op' ∈ (BlockState.joined s.tracker r op n).body r' := hop'
    rw [body_joined] at hop''
    split at hop''
    · next he =>
      subst he
      rcases List.mem_append.1 hop'' with hold | hnew
      · exact h.body hold hx
      · rw [List.mem_singleton.1 hnew] at hx
        exact hmem x hx
    · exact h.body hop'' hx
  · intro x f hf
    obtain ⟨hfn, op', hop'⟩ := h.fixed hf
    refine ⟨Nat.lt_succ_of_lt hfn, op', ?_⟩
    show (s.slots.set n none)[f]? = _
    rw [hget, if_neg (by omega), hop']
  · intro x f a hf ha
    have hf' : s.tracker.lastFixed.get? x = some f := hf
    have ha' : (BlockState.joined s.tracker r op n).anchors.get? (s.tracker.root x) = some a := ha
    rw [hanchors] at ha'
    split at ha'
    · next hx =>
      rcases hanchor (Option.some.inj ha') with hra | rfl
      · exact h.fixed_lt hf' (by rw [BlockTracker.anchorOf, hx, hra])
      · exact (h.fixed hf').1
    · exact h.fixed_lt hf' ha'
  · intro i x op' hi hop' hx
    have hop'' : (s.slots.set n none)[i]? = some (some op') := hop'
    rw [hget] at hop''
    split at hop''
    · cases hop''
    · exact h.covered (by omega) hop'' hx
  · intro x
    have htake : filled ((s.slots.set n none).take (n + 1)) = filled (s.slots.take n) := by
      rw [take_succ_filled (v := none) (by rw [hget, if_pos rfl]),
        List.take_set_of_le (Nat.le_refl n)]
      simp
    show leavesOn x (filled ((s.slots.set n none).take (n + 1))) ++
      leavesOn x ((BlockState.joined s.tracker r op n).body (s.tracker.root x)) = _
    rw [htake, List.take_add_one, hop, leavesOn_append, ← h.program x, List.append_assoc,
      body_joined]
    congr 1
    split
    · next hx =>
      rw [leavesOn_append, BlockTracker.bodyOf, hx]
      rfl
    · next hx =>
      have hnil : leavesOn x [op] = [] := by
        refine leavesOn_eq_nil fun op' hop' hacts => hx ?_
        rw [List.mem_singleton.1 hop'] at hacts
        exact (hmem x hacts).2
      show _ = _ ++ leavesOn x [op]
      rw [hnil, List.append_nil]
      rfl
  · have hpending := leavesOfAll_perm (pending_joined s.tracker r op n)
    have hold := filled_split hslot
    have hnew := filled_set hlen none
    refine .trans ?_ h.content
    show (leavesOfAll (filled (s.slots.set n none)) ++ _).Perm _
    refine (hpending.append_left _).trans ?_
    rw [hnew, hold]
    simp only [Option.toList_some, Option.toList_none, List.append_nil, leavesOfAll_append,
      leavesOfAll_cons, leavesOfAll_nil, List.append_assoc]
    refine List.Perm.append_left _ ?_
    rw [← List.append_assoc, ← List.append_assoc]
    exact List.perm_append_comm.append_right _

end joined

/-- The operation at the current slot joins the blocks of its qubits. -/
theorem Inv.absorb (h : Inv ops n n s) (hs : s.tracker.Settled) {used : List Qubit}
    (hcompat : Compatible s.tracker used) (hop : ops[n]? = some op) (hne : used ≠ [])
    (hused : ∀ x, op.actsOn x = true → x ∈ used) :
    Inv ops (n + 1) (n + 1) (s.absorb used n) ∧ (s.absorb used n).tracker.Settled := by
  obtain ⟨first, rest, rfl⟩ := List.exists_cons_of_ne_nil hne
  have hstart : Merging ops n n (first :: rest) s := ⟨h, hcompat, fun x hx => .inl (hs x hx)⟩
  obtain ⟨hmerged, hroots, -⟩ := Merging.unionAll (first :: rest) hstart fun _ => id
  obtain ⟨hvalid, hsame⟩ := hmerged.inv.valid.touch first
  have hfirst := hmerged.inv.valid.knows_touch first
  have htouched := hmerged.sameBlocks hvalid hsame
  rw [absorb_eq s (h.slot_eq hop)]
  set t := BlockState.unionAll s.tracker (first :: rest) with ht
  -- after the merge all the qubits have the root of the first
  have hone : ∀ x ∈ first :: rest, (t.touch first).root x = t.root first := by
    intro x hx
    rw [hsame.root]
    exact hroots x hx first List.mem_cons_self
  have hparent : (t.touch first).parent.get? (t.root first) = some (t.root first) := by
    have hleads := (hvalid.leadsTo_root hfirst).isRoot
    rwa [hsame.root] at hleads
  refine ⟨htouched.inv.joined hop hparent ?_, ?_⟩
  · intro x hx
    have hroot := hone x (hused x hx)
    exact ⟨hvalid.knows_of_root_eq (hroot.trans (hsame.root first).symm) hfirst, hroot⟩
  · intro x hx
    have hx' : (BlockState.joined (t.touch first) (t.root first) op n).anchors.get?
        ((t.touch first).root x) = none := hx
    rw [get?_anchors_joined] at hx'
    split at hx'
    · cases hx'
    · next hnot =>
      rcases htouched.settled x hx' with halone | ⟨u, hu, hxu⟩
      · exact halone
      · exact absurd (hxu.trans (hone u hu)) hnot

end BlockState
end QuantumCircuit
