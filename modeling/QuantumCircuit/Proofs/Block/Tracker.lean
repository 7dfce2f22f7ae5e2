import QuantumCircuit.Proofs.Block.Forest

/-! The open blocks behind the tables of a tracker. A tracker is valid when its
pointers form a forest, the members of a root are the qubits that lead to it, and
bodies and anchors belong to roots. Looking up a root changes no block; merging
two blocks and dissolving one are described by what they do to the root, the body
and the anchor of every qubit. -/
namespace QuantumCircuit
namespace BlockTracker

def Knows (t : BlockTracker) (q : Qubit) : Prop := (t.parent.get? q).isSome

/-- The anchor of the block of a qubit. -/
def anchorOf (t : BlockTracker) (q : Qubit) : Option Nat := t.anchors.get? (t.root q)

/-- The operations of the block of a qubit. -/
def bodyOf (t : BlockTracker) (q : Qubit) : List Operation := t.body (t.root q)

/-- The operations of all open blocks. -/
def pending (t : BlockTracker) : List Operation := t.bodies.values.flatten

structure Valid (t : BlockTracker) : Prop where
  forest : Forest t.parent
  members_root : ∀ {r : Qubit} {ms : List Qubit}, t.members.get? r = some ms →
    t.parent.get? r = some r
  members_iff : ∀ {r : Qubit} {ms : List Qubit}, t.members.get? r = some ms →
    ms.Nodup ∧ ∀ x, x ∈ ms ↔ LeadsTo t.parent x r
  root_members : ∀ {r : Qubit}, t.parent.get? r = some r → ∃ ms, t.members.get? r = some ms
  bodies_iff : ∀ r, (t.bodies.get? r).isSome = (t.anchors.get? r).isSome
  anchor_root : ∀ {r : Qubit} {a : Nat}, t.anchors.get? r = some a → t.parent.get? r = some r

/-- A qubit whose block has taken up nothing is alone in it. -/
def Settled (t : BlockTracker) : Prop := ∀ x, t.anchorOf x = none → t.root x = x

theorem valid_empty : Valid {} where
  forest := ⟨nofun, fun _ => 0, nofun⟩
  members_root := nofun
  members_iff := nofun
  root_members := nofun
  bodies_iff := fun _ => rfl
  anchor_root := nofun

theorem settled_empty : Settled {} := fun _ _ => rfl

variable {t t' u : BlockTracker} {q r x y : Qubit} {a : Nat}

/-! ## Roots -/

theorem root_of_unknown (h : ¬ t.Knows q) : t.root q = q :=
  chase_of_unknown (by simpa [Knows] using h) _

theorem Valid.root_eq (h : t.Valid) (hq : LeadsTo t.parent q r) : t.root q = r :=
  h.forest.chase_eq hq

theorem Valid.leadsTo_root (h : t.Valid) (hq : t.Knows q) : LeadsTo t.parent q (t.root q) :=
  h.forest.leadsTo hq

theorem Valid.leadsTo_iff (h : t.Valid) (hr : t.Knows r) :
    LeadsTo t.parent q r ↔ t.Knows q ∧ t.root q = r := by
  constructor
  · intro hq
    exact ⟨hq.isKnown, h.root_eq hq⟩
  · rintro ⟨hq, rfl⟩
    exact h.leadsTo_root hq

theorem Valid.root_of_root (h : t.Valid) (hr : t.parent.get? r = some r) : t.root r = r :=
  h.root_eq (.root hr)

theorem Valid.root_root (h : t.Valid) (q : Qubit) : t.root (t.root q) = t.root q := by
  by_cases hq : t.Knows q
  · exact h.root_of_root (h.leadsTo_root hq).isRoot
  · rw [root_of_unknown hq, root_of_unknown hq]

theorem Valid.knows_root (h : t.Valid) (hq : t.Knows q) : t.Knows (t.root q) := by
  rw [Knows, (h.leadsTo_root hq).isRoot]
  rfl

/-- A qubit in the block of a known one is known. -/
theorem Valid.knows_of_root_eq (h : t.Valid) (hxy : t.root x = t.root y) (hy : t.Knows y) :
    t.Knows x := by
  by_contra hno
  rw [root_of_unknown hno] at hxy
  exact hno (hxy ▸ h.knows_root hy)

theorem Valid.knows_of_anchor (h : t.Valid) (hq : t.anchorOf q = some a) : t.Knows q := by
  by_contra hno
  have hroot := h.anchor_root hq
  rw [root_of_unknown hno] at hroot
  exact hno (by simp [Knows, hroot])

theorem Valid.anchorOf_of_anchor (h : t.Valid) (hr : t.anchors.get? r = some a) :
    t.anchorOf r = some a := by
  rw [anchorOf, h.root_of_root (h.anchor_root hr), hr]

/-- A block that has taken up nothing has an empty body. -/
theorem Valid.body_eq_nil (h : t.Valid) (hr : t.anchors.get? r = none) : t.body r = [] := by
  have hb := h.bodies_iff r
  rw [hr, Option.isSome_none, Option.isSome_eq_false_iff, Option.isNone_iff_eq_none] at hb
  simp [body, hb]

theorem Valid.bodyOf_eq_nil (h : t.Valid) (hq : t.anchorOf q = none) : t.bodyOf q = [] :=
  h.body_eq_nil hq

/-- With no anchor left nothing is pending. -/
theorem Valid.pending_eq_nil (h : t.Valid) (hno : ∀ r, t.anchors.get? r = none) :
    t.pending = [] := by
  have hkeys : ∀ k, k ∉ t.bodies.keys := by
    intro k hk
    have hsome := OrderedMap.mem_keys.1 hk
    rw [h.bodies_iff, hno] at hsome
    simp at hsome
  have hentries : t.bodies.entries = [] := by
    rw [List.eq_nil_iff_forall_not_mem]
    intro e he
    exact hkeys e.1 (List.mem_map_of_mem he)
  simp [pending, OrderedMap.values, hentries]

/-! ## Looking up roots -/

/-- Two trackers with the same blocks; the second may know more qubits. -/
structure SameBlocks (t t' : BlockTracker) : Prop where
  root : ∀ x, t'.root x = t.root x
  anchors : t'.anchors = t.anchors
  bodies : t'.bodies = t.bodies
  lastFixed : t'.lastFixed = t.lastFixed
  knows : ∀ x, t.Knows x → t'.Knows x

theorem SameBlocks.refl (t : BlockTracker) : SameBlocks t t :=
  ⟨fun _ => rfl, rfl, rfl, rfl, fun _ => id⟩

theorem SameBlocks.trans (h : SameBlocks t t') (h' : SameBlocks t' u) : SameBlocks t u where
  root x := (h'.root x).trans (h.root x)
  anchors := h'.anchors.trans h.anchors
  bodies := h'.bodies.trans h.bodies
  lastFixed := h'.lastFixed.trans h.lastFixed
  knows x hx := h'.knows x (h.knows x hx)

theorem SameBlocks.anchorOf (h : SameBlocks t t') (q : Qubit) : t'.anchorOf q = t.anchorOf q := by
  simp only [BlockTracker.anchorOf, h.root, h.anchors]

theorem SameBlocks.body (h : SameBlocks t t') (r : Qubit) : t'.body r = t.body r := by
  simp only [BlockTracker.body, h.bodies]

theorem SameBlocks.bodyOf (h : SameBlocks t t') (q : Qubit) : t'.bodyOf q = t.bodyOf q := by
  simp only [BlockTracker.bodyOf, h.root, h.body]

theorem SameBlocks.pending (h : SameBlocks t t') : t'.pending = t.pending := by
  simp only [BlockTracker.pending, h.bodies]

theorem SameBlocks.settled (h : SameBlocks t t') (hs : t.Settled) : t'.Settled := by
  intro x hx
  rw [h.anchorOf] at hx
  rw [h.root, hs x hx]

theorem touch_of_known (hq : t.Knows q) :
    t.touch q = { t with parent := compress (t.root q) t.parent.size q t.parent } :=
  if_pos hq

theorem touch_of_unknown (hq : ¬ t.Knows q) :
    t.touch q = { t with parent := t.parent.insert q q, members := t.members.insert q [q] } :=
  if_neg hq

/-- Pointers of other qubits do not pass through a new one. -/
theorem leadsTo_insert_new (h : Forest t.parent) (hq : ¬ t.Knows q) :
    LeadsTo (t.parent.insert q q) x r ↔ LeadsTo t.parent x r ∨ (x = q ∧ r = q) := by
  have hnone : t.parent.get? q = none := by simpa [Knows] using hq
  constructor
  · intro hx
    induction hx with
    | @root x hroot =>
      rw [OrderedMap.get?_insert] at hroot
      split at hroot
      · next hxq => exact .inr ⟨hxq, hxq⟩
      · exact .inl (.root hroot)
    | @step x p r hstep hne hrest ih =>
      rw [OrderedMap.get?_insert] at hstep
      split at hstep
      · next hxq => exact absurd ((Option.some.inj hstep).symm.trans hxq.symm) hne
      · rcases ih with ih | ⟨rfl, rfl⟩
        · exact .inl (.step hstep hne ih)
        · have := h.closed hstep
          simp [hnone] at this
  · rintro (hx | ⟨rfl, rfl⟩)
    · induction hx with
      | @root x hroot =>
        have hxq : x ≠ q := by rintro rfl; simp [hnone] at hroot
        exact .root (by rw [OrderedMap.get?_insert, if_neg hxq, hroot])
      | @step x p r hstep hne hrest ih =>
        have hxq : x ≠ q := by rintro rfl; simp [hnone] at hstep
        exact .step (by rw [OrderedMap.get?_insert, if_neg hxq, hstep]) hne ih
    · exact .root (by rw [OrderedMap.get?_insert, if_pos rfl])

/-- Pointers that lead the same way describe the same blocks. -/
theorem Valid.of_leadsTo (h : t.Valid) {parent : OrderedMap Qubit Qubit} (hforest : Forest parent)
    (hleads : ∀ {x r : Qubit}, LeadsTo parent x r ↔ LeadsTo t.parent x r) :
    Valid { t with parent } where
  forest := hforest
  members_root hr := (hleads.2 (.root (h.members_root hr))).isRoot
  members_iff hr := ⟨(h.members_iff hr).1, fun x => ((h.members_iff hr).2 x).trans hleads.symm⟩
  root_members hr := h.root_members (hleads.1 (.root hr)).isRoot
  bodies_iff := h.bodies_iff
  anchor_root hr := (hleads.2 (.root (h.anchor_root hr))).isRoot

theorem Valid.touch_known (h : t.Valid) (hq : t.Knows q) :
    (t.touch q).Valid ∧ SameBlocks t (t.touch q) := by
  obtain ⟨hforest, hmono, hknown⟩ := compress_keeps t.parent.size h.forest (h.leadsTo_root hq)
  rw [touch_of_known hq]
  have hleads : ∀ {x r : Qubit}, LeadsTo (compress (t.root q) t.parent.size q t.parent) x r ↔
      LeadsTo t.parent x r := by
    intro x r
    refine ⟨fun hx => ?_, hmono⟩
    have hx' : t.Knows x := by rw [Knows, ← hknown]; exact hx.isKnown
    have heq := (hmono (h.leadsTo_root hx')).unique hx
    exact heq ▸ h.leadsTo_root hx'
  have hvalid := h.of_leadsTo hforest hleads
  refine ⟨hvalid, ⟨fun x => ?_, rfl, rfl, rfl, fun x hx => ?_⟩⟩
  · by_cases hx : t.Knows x
    · exact hvalid.root_eq (hmono (h.leadsTo_root hx))
    · rw [root_of_unknown hx, root_of_unknown]
      rw [Knows] at hx ⊢
      rwa [hknown]
  · rw [Knows] at hx ⊢
    rwa [hknown]

theorem Valid.touch_unknown (h : t.Valid) (hq : ¬ t.Knows q) :
    (t.touch q).Valid ∧ SameBlocks t (t.touch q) := by
  have hnone : t.parent.get? q = none := by simpa [Knows] using hq
  have hleads := fun {x r : Qubit} => leadsTo_insert_new (x := x) (r := r) h.forest hq
  have hold : ∀ {r : Qubit}, t.parent.get? r = some r → (t.parent.insert q q).get? r = some r :=
    fun hr => (hleads.2 (.inl (.root hr))).isRoot
  have hself : (t.parent.insert q q).get? q = some q := by rw [OrderedMap.get?_insert, if_pos rfl]
  rw [touch_of_unknown hq]
  have hvalid : Valid { t with
      parent := t.parent.insert q q, members := t.members.insert q [q] } := by
    refine ⟨h.forest.insert_self q, ?_, ?_, ?_, h.bodies_iff, fun hr => hold (h.anchor_root hr)⟩
    · intro r ms hr
      rw [OrderedMap.get?_insert] at hr
      split at hr
      · next hrq => rw [hrq]; exact hself
      · exact hold (h.members_root hr)
    · intro r ms hr
      rw [OrderedMap.get?_insert] at hr
      split at hr
      · next hrq =>
        cases Option.some.inj hr
        subst hrq
        refine ⟨List.nodup_singleton _, fun x => ?_⟩
        rw [List.mem_singleton, hleads]
        constructor
        · intro hx
          exact .inr ⟨hx, rfl⟩
        · rintro (hx | ⟨hx, -⟩)
          · have := hx.isRoot
            rw [hnone] at this
            cases this
          · exact hx
      · next hrq =>
        refine ⟨(h.members_iff hr).1, fun x => ((h.members_iff hr).2 x).trans ?_⟩
        rw [hleads]
        exact ⟨.inl, fun hx => hx.resolve_right fun hx => hrq hx.2⟩
    · intro r hr
      rw [OrderedMap.get?_insert] at hr ⊢
      split
      · exact ⟨_, rfl⟩
      · next hrq =>
        rw [if_neg hrq] at hr
        exact h.root_members hr
  refine ⟨hvalid, ⟨fun x => ?_, rfl, rfl, rfl, fun x hx => ?_⟩⟩
  · by_cases hx : t.Knows x
    · exact hvalid.root_eq (hleads.2 (.inl (h.leadsTo_root hx)))
    · rw [root_of_unknown hx]
      by_cases hxq : x = q
      · subst hxq
        exact hvalid.root_of_root hself
      · refine root_of_unknown ?_
        rw [Knows] at hx ⊢
        rwa [OrderedMap.get?_insert, if_neg hxq]
  · rw [Knows, OrderedMap.get?_insert]
    split
    · rfl
    · exact hx

/-- Looking up a qubit changes no block. -/
theorem Valid.touch (h : t.Valid) (q : Qubit) : (t.touch q).Valid ∧ SameBlocks t (t.touch q) := by
  by_cases hq : t.Knows q
  · exact h.touch_known hq
  · exact h.touch_unknown hq

theorem Valid.knows_touch (h : t.Valid) (q : Qubit) : (t.touch q).Knows q := by
  by_cases hq : t.Knows q
  · exact (h.touch q).2.knows q hq
  · rw [touch_of_unknown hq, Knows, OrderedMap.get?_insert, if_pos rfl]
    rfl

theorem Valid.findAll (h : t.Valid) (qs : List Qubit) :
    (t.findAll qs).2.Valid ∧ SameBlocks t (t.findAll qs).2 ∧
      (t.findAll qs).1 = qs.map t.root ∧ ∀ q ∈ qs, (t.findAll qs).2.Knows q := by
  induction qs generalizing t with
  | nil => exact ⟨h, .refl t, rfl, by simp⟩
  | cons q rest ih =>
    obtain ⟨hvalid, hsame⟩ := h.touch q
    obtain ⟨hvalid', hsame', hroots, hknows⟩ := ih hvalid
    refine ⟨hvalid', hsame.trans hsame', ?_, ?_⟩
    · show t.root q :: ((t.touch q).findAll rest).1 = _
      rw [hroots, List.map_cons, List.map_congr_left fun x _ => hsame.root x]
    · intro x hx
      rcases List.mem_cons.1 hx with rfl | hx
      · exact hsame'.knows x (h.knows_touch x)
      · exact hknows x hx

end BlockTracker
end QuantumCircuit
