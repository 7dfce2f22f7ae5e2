import QuantumCircuit.Proofs.Block.Tracker

/-! Merging and dissolving blocks. Both are described through the view of a
tracker: the root of each qubit, and the anchor and the body of each root. -/
namespace QuantumCircuit
namespace BlockTracker

variable {t : BlockTracker} {keep gone q r x : Qubit} {a : Nat}

/-! ## Linking two roots -/

theorem leadsTo_link (h : t.Valid) (hkeep : t.parent.get? keep = some keep)
    (hgone : t.parent.get? gone = some gone) (hne : keep ≠ gone) :
    LeadsTo (t.parent.insert gone keep) x r ↔
      (LeadsTo t.parent x r ∧ r ≠ gone) ∨ (LeadsTo t.parent x gone ∧ r = keep) := by
  have hroot : LeadsTo (t.parent.insert gone keep) keep keep :=
    .root (by rw [OrderedMap.get?_insert, if_neg hne, hkeep])
  have hforth : ∀ {x r : Qubit}, LeadsTo t.parent x r →
      LeadsTo (t.parent.insert gone keep) x (if r = gone then keep else r) := by
    intro x r hx
    induction hx with
    | @root x hx =>
      by_cases hxg : x = gone
      · rw [if_pos hxg, hxg]
        exact .step (by rw [OrderedMap.get?_insert, if_pos rfl]) hne hroot
      · rw [if_neg hxg]
        exact .root (by rw [OrderedMap.get?_insert, if_neg hxg, hx])
    | @step x p r hx hp hrest ih =>
      have hxg : x ≠ gone := by
        rintro rfl
        rw [hgone] at hx
        exact hp (Option.some.inj hx).symm
      exact .step (by rw [OrderedMap.get?_insert, if_neg hxg, hx]) hp ih
  constructor
  · intro hx
    have hknown : t.Knows x := by
      have := hx.isKnown
      rw [OrderedMap.get?_insert] at this
      split at this
      · next hxg => rw [Knows, hxg, hgone]; rfl
      · exact this
    have hold := h.leadsTo_root hknown
    have heq := (hforth hold).unique hx
    split at heq
    · next hg => exact .inr ⟨hg ▸ hold, heq.symm⟩
    · next hg =>
      subst heq
      exact .inl ⟨hold, hg⟩
  · rintro (⟨hx, hr⟩ | ⟨hx, rfl⟩)
    · have := hforth hx
      rwa [if_neg hr] at this
    · have := hforth hx
      rwa [if_pos rfl] at this

-- The qubits below `gone` are lifted above `keep`, all by the same amount.
theorem Forest.link (h : t.Valid) (hkeep : t.parent.get? keep = some keep)
    (hgone : t.parent.get? gone = some gone) (hne : keep ≠ gone) :
    Forest (t.parent.insert gone keep) := by
  obtain ⟨height, hheight⟩ := h.forest.ranked
  refine ⟨?_, fun x => if t.root x = gone then height x + height keep + 1 else height x, ?_⟩
  · intro x p hx
    rw [OrderedMap.get?_insert] at hx ⊢
    split
    · rfl
    · split at hx
      · cases Option.some.inj hx
        simp [hkeep]
      · exact h.forest.closed hx
  · intro x p hx hp
    rw [OrderedMap.get?_insert] at hx
    have hkeepRoot : t.root keep = keep := h.root_of_root hkeep
    split at hx
    · next hxg =>
      cases Option.some.inj hx
      dsimp only
      rw [hxg, h.root_of_root hgone, hkeepRoot, if_neg hne, if_pos rfl]
      omega
    · have hlow := hheight hx hp
      have hknown : t.Knows x := by rw [Knows, hx]; rfl
      have hsame : t.root p = t.root x := h.root_eq ((h.leadsTo_root hknown).of_pointer hx)
      simp only [hsame]
      split
      · omega
      · exact hlow

theorem laterSlot?_eq_some {o o' : Option Nat} {a : Nat} (h : laterSlot? o o' = some a) :
    (o = some a ∨ o' = some a) ∧ (∀ {b : Nat}, o = some b → b ≤ a) ∧
      ∀ {b : Nat}, o' = some b → b ≤ a := by
  cases o with
  | none =>
    cases o' with
    | none => cases h
    | some y => simp_all [laterSlot?]
  | some x =>
    cases o' with
    | none => simp_all [laterSlot?]
    | some y =>
      simp only [laterSlot?, Option.some.injEq] at h
      simp only [Option.some.injEq]
      refine ⟨by omega, fun hb => by omega, fun hb => by omega⟩

theorem laterSlot?_eq_none {o o' : Option Nat} :
    laterSlot? o o' = none ↔ o = none ∧ o' = none := by
  cases o <;> cases o' <;> simp [laterSlot?]

theorem get?_anchors_link (t : BlockTracker) (hne : keep ≠ gone) (r : Qubit) :
    (t.link keep gone).anchors.get? r =
      if r = keep then laterSlot? (t.anchors.get? keep) (t.anchors.get? gone)
      else if r = gone then none else t.anchors.get? r := by
  unfold link
  dsimp only
  split
  · next a ha =>
    rw [OrderedMap.get?_insert, OrderedMap.get?_erase, OrderedMap.get?_erase, ha]
    split
    · rfl
    · rfl
  · next ha =>
    rw [OrderedMap.get?_erase, OrderedMap.get?_erase, ha]
    by_cases hr : r = keep
    · rw [if_pos hr, if_neg (hr ▸ hne), if_pos hr]
    · simp only [hr, ↓reduceIte]

theorem body_link (t : BlockTracker) (keep gone r : Qubit) :
    (t.link keep gone).body r =
      if r = keep then t.body keep ++ t.body gone else if r = gone then [] else t.body r := by
  unfold link body
  dsimp only
  split
  · rw [OrderedMap.get?_insert, OrderedMap.get?_erase]
    split
    · rfl
    · split <;> rfl
  · next hno =>
    rw [Bool.not_eq_true, OrderedMap.contains_eq_false] at hno
    split
    · next hr => simp [hr, hno]
    · split
      · next hr => simp [hr, hno]
      · rfl

theorem pending_link (t : BlockTracker) (hne : keep ≠ gone) :
    (t.link keep gone).pending.Perm t.pending := by
  unfold link pending
  dsimp only
  split
  · have hgone := t.bodies.flatten_values gone
    have hkeep := (t.bodies.erase gone).flatten_values keep
    rw [OrderedMap.get?_erase, if_neg hne] at hkeep
    refine ((t.bodies.erase gone).flatten_values_insert keep _).trans ?_
    refine .trans ?_ (hgone.trans (hkeep.append_left _)).symm
    rw [← List.append_assoc]
    exact List.perm_append_comm.append_right _
  · exact .refl _

theorem isSome_bodies_link (h : t.Valid) (hne : keep ≠ gone) (r : Qubit) :
    ((t.link keep gone).bodies.get? r).isSome =
      ((t.link keep gone).anchors.get? r).isSome := by
  rw [get?_anchors_link t hne]
  have hkeep := h.bodies_iff keep
  have hgone := h.bodies_iff gone
  unfold link
  dsimp only
  split
  · next hb =>
    rw [OrderedMap.contains] at hb
    rw [OrderedMap.get?_insert, OrderedMap.get?_erase]
    by_cases hr : r = keep
    · rw [hb] at hgone
      obtain ⟨g, hg⟩ := Option.isSome_iff_exists.1 hgone.symm
      rw [if_pos hr, if_pos hr, hg]
      cases t.anchors.get? keep <;> rfl
    · rw [if_neg hr, if_neg hr]
      split
      · rfl
      · exact h.bodies_iff r
  · next hb =>
    rw [Bool.not_eq_true, OrderedMap.contains_eq_false] at hb
    rw [hb, Option.isSome_none] at hgone
    have hnone : t.anchors.get? gone = none := by
      rw [← Option.isNone_iff_eq_none, ← Option.isSome_eq_false_iff, ← hgone]
    by_cases hr : r = keep
    · rw [if_pos hr, hr, hkeep, hnone]
      cases t.anchors.get? keep <;> rfl
    · rw [if_neg hr]
      split
      · next hrg => rw [hrg, hb]; rfl
      · exact h.bodies_iff r

theorem membersOf_iff (h : t.Valid) (hr : t.parent.get? r = some r) :
    (t.membersOf r).Nodup ∧ ∀ x, x ∈ t.membersOf r ↔ LeadsTo t.parent x r := by
  obtain ⟨ms, hms⟩ := h.root_members hr
  rw [membersOf, hms, Option.getD_some]
  exact h.members_iff hms

theorem Valid.link (h : t.Valid) (hkeep : t.parent.get? keep = some keep)
    (hgone : t.parent.get? gone = some gone) (hne : keep ≠ gone) : (t.link keep gone).Valid := by
  have hleads := fun {x r : Qubit} => leadsTo_link (x := x) (r := r) h hkeep hgone hne
  have hroot : ∀ {r : Qubit}, t.parent.get? r = some r → r ≠ gone →
      (t.parent.insert gone keep).get? r = some r :=
    fun hr hg => (hleads.2 (.inl ⟨.root hr, hg⟩)).isRoot
  refine ⟨Forest.link h hkeep hgone hne, ?_, ?_, ?_, isSome_bodies_link h hne, ?_⟩
  · intro r ms hr
    have hr' : ((t.members.erase gone).insert keep _).get? r = some ms := hr
    rw [OrderedMap.get?_insert, OrderedMap.get?_erase] at hr'
    split at hr'
    · next hrk => exact hrk ▸ hroot hkeep hne
    · split at hr'
      · cases hr'
      · next hrg => exact hroot (h.members_root hr') hrg
  · intro r ms hr
    have hr' : ((t.members.erase gone).insert keep _).get? r = some ms := hr
    show ms.Nodup ∧ ∀ x, x ∈ ms ↔ LeadsTo (t.parent.insert gone keep) x r
    rw [OrderedMap.get?_insert, OrderedMap.get?_erase] at hr'
    split at hr'
    · next hrk =>
      cases Option.some.inj hr'
      subst hrk
      obtain ⟨hnk, hk⟩ := membersOf_iff h hkeep
      obtain ⟨hng, hg⟩ := membersOf_iff h hgone
      refine ⟨hnk.append hng fun x hxk hxg => hne (((hk x).1 hxk).unique ((hg x).1 hxg)), ?_⟩
      intro x
      rw [List.mem_append, hk, hg, hleads]
      exact or_congr ⟨fun hx => ⟨hx, hne⟩, And.left⟩ ⟨fun hx => ⟨hx, rfl⟩, And.left⟩
    · next hrk =>
      split at hr'
      · cases hr'
      · next hrg =>
        refine ⟨(h.members_iff hr').1, fun x => ((h.members_iff hr').2 x).trans ?_⟩
        rw [hleads]
        exact ⟨fun hx => .inl ⟨hx, hrg⟩, fun hx => (hx.resolve_right fun hx => hrk hx.2).1⟩
  · intro r hr
    have hr' : LeadsTo (t.parent.insert gone keep) r r := .root hr
    show ∃ ms, ((t.members.erase gone).insert keep _).get? r = some ms
    rw [OrderedMap.get?_insert, OrderedMap.get?_erase]
    split
    · exact ⟨_, rfl⟩
    · next hrk =>
      rcases hleads.1 hr' with ⟨hold, hrg⟩ | ⟨-, hk⟩
      · rw [if_neg hrg]
        exact h.root_members hold.isRoot
      · exact absurd hk hrk
  · intro r a hr
    rw [get?_anchors_link t hne] at hr
    split at hr
    · next hrk => exact hrk ▸ hroot hkeep hne
    · split at hr
      · cases hr
      · next hrg => exact hroot (h.anchor_root hr) hrg

theorem root_link (h : t.Valid) (hkeep : t.parent.get? keep = some keep)
    (hgone : t.parent.get? gone = some gone) (hne : keep ≠ gone) (x : Qubit) :
    (t.link keep gone).root x = if t.root x = gone then keep else t.root x := by
  have hvalid := h.link hkeep hgone hne
  have hleads := fun {x r : Qubit} => leadsTo_link (x := x) (r := r) h hkeep hgone hne
  by_cases hx : t.Knows x
  · have hold := h.leadsTo_root hx
    refine hvalid.root_eq (hleads.2 ?_)
    split
    · next hg => exact .inr ⟨hg ▸ hold, rfl⟩
    · next hg => exact .inl ⟨hold, hg⟩
  · have hxg : x ≠ gone := by
      rintro rfl
      exact hx (by rw [Knows, hgone]; rfl)
    have hx' : ¬ (t.link keep gone).Knows x := by
      show ¬ ((t.parent.insert gone keep).get? x).isSome
      rw [OrderedMap.get?_insert, if_neg hxg]
      exact hx
    rw [root_of_unknown hx', root_of_unknown hx, if_neg hxg]

theorem knows_link (h : t.Knows x) : (t.link keep gone).Knows x := by
  show ((t.parent.insert gone keep).get? x).isSome
  rw [OrderedMap.get?_insert]
  split
  · rfl
  · exact h

/-- A merge looks up both qubits and, if their roots differ, links one to the
other. -/
theorem Valid.union_cases (h : t.Valid) (a b : Qubit) :
    ∃ u : BlockTracker, u.Valid ∧ SameBlocks t u ∧ u.Knows a ∧ u.Knows b ∧
      ((t.root a = t.root b ∧ t.union a b = u) ∨
        ∃ keep gone, keep ≠ gone ∧ u.parent.get? keep = some keep ∧
          u.parent.get? gone = some gone ∧ t.union a b = u.link keep gone ∧
          (keep = t.root a ∧ gone = t.root b ∨ keep = t.root b ∧ gone = t.root a)) := by
  obtain ⟨hva, hsa⟩ := h.touch a
  obtain ⟨hvb, hsb⟩ := hva.touch b
  have hsame := hsa.trans hsb
  have hka : ((t.touch a).touch b).Knows a := hsb.knows a (h.knows_touch a)
  have hkb : ((t.touch a).touch b).Knows b := hva.knows_touch b
  have hra := (hvb.leadsTo_root hka).isRoot
  have hrb := (hvb.leadsTo_root hkb).isRoot
  rw [hsame.root] at hra hrb
  refine ⟨(t.touch a).touch b, hvb, hsame, hka, hkb, ?_⟩
  simp only [union, find, hsa.root]
  split
  · next heq => exact .inl ⟨heq, rfl⟩
  · next hne =>
    split
    · exact .inr ⟨_, _, fun heq => hne heq.symm, hrb, hra, rfl, .inr ⟨rfl, rfl⟩⟩
    · exact .inr ⟨_, _, hne, hra, hrb, rfl, .inl ⟨rfl, rfl⟩⟩

/-! ## Dissolving a block -/

section release
variable (slot : Nat) (ms : List Qubit) (t : BlockTracker) (x : Qubit)

theorem get?_parent_release :
    (ms.foldl (release slot) t).parent.get? x = if x ∈ ms then some x else t.parent.get? x := by
  induction ms generalizing t with
  | nil => simp
  | cons m rest ih =>
    rw [List.foldl_cons, ih]
    by_cases hrest : x ∈ rest
    · simp [hrest]
    · by_cases hxm : x = m
      · subst hxm
        simp [hrest, release, markFixed]
      · simp [hrest, hxm, release, markFixed]

theorem get?_members_release :
    (ms.foldl (release slot) t).members.get? x =
      if x ∈ ms then some [x] else t.members.get? x := by
  induction ms generalizing t with
  | nil => simp
  | cons m rest ih =>
    rw [List.foldl_cons, ih]
    by_cases hrest : x ∈ rest
    · simp [hrest]
    · by_cases hxm : x = m
      · subst hxm
        simp [hrest, release, markFixed]
      · simp [hrest, hxm, release, markFixed]

theorem get?_lastFixed_release :
    (ms.foldl (release slot) t).lastFixed.get? x =
      if x ∈ ms then some (max ((t.lastFixed.get? x).getD slot) slot)
      else t.lastFixed.get? x := by
  induction ms generalizing t with
  | nil => simp
  | cons m rest ih =>
    rw [List.foldl_cons, ih]
    by_cases hxm : x = m
    · subst hxm
      by_cases hrest : x ∈ rest
      · simp [hrest, release, markFixed]
      · simp [hrest, release, markFixed]
    · by_cases hrest : x ∈ rest
      · simp [hrest, hxm, release, markFixed]
      · simp [hrest, hxm, release, markFixed]

theorem release_anchors : (ms.foldl (release slot) t).anchors = t.anchors := by
  induction ms generalizing t with
  | nil => rfl
  | cons m rest ih => rw [List.foldl_cons, ih]; rfl

theorem release_bodies : (ms.foldl (release slot) t).bodies = t.bodies := by
  induction ms generalizing t with
  | nil => rfl
  | cons m rest ih => rw [List.foldl_cons, ih]; rfl

end release

theorem Forest.release (slot : Nat) (ms : List Qubit) (h : Forest t.parent) :
    Forest (ms.foldl (release slot) t).parent := by
  induction ms generalizing t with
  | nil => exact h
  | cons m rest ih => exact ih (h.insert_self m)

theorem leadsTo_dissolve (h : t.Valid) (hr : t.parent.get? r = some r) (slot : Nat)
    {x s : Qubit} :
    LeadsTo (t.dissolve r slot).parent x s ↔
      (LeadsTo t.parent x r ∧ s = x) ∨ (¬ LeadsTo t.parent x r ∧ LeadsTo t.parent x s) := by
  have hmem := (membersOf_iff h hr).2
  have hget : ∀ x, (t.dissolve r slot).parent.get? x =
      if x ∈ t.membersOf r then some x else t.parent.get? x :=
    fun x => get?_parent_release slot _ _ x
  constructor
  · intro hx
    induction hx with
    | @root x hx =>
      by_cases hin : LeadsTo t.parent x r
      · exact .inl ⟨hin, rfl⟩
      · rw [hget, if_neg (fun hm => hin ((hmem x).1 hm))] at hx
        exact .inr ⟨hin, .root hx⟩
    | @step x p s hx hp _ ih =>
      have hout : ¬ LeadsTo t.parent x r := by
        intro hin
        rw [hget, if_pos ((hmem x).2 hin)] at hx
        exact hp (Option.some.inj hx).symm
      rw [hget, if_neg (fun hm => hout ((hmem x).1 hm))] at hx
      -- a pointer from outside the block stays outside
      rcases ih with ⟨hin, -⟩ | ⟨-, hrest⟩
      · exact absurd (.step hx hp hin) hout
      · exact .inr ⟨hout, .step hx hp hrest⟩
  · rintro (⟨hin, rfl⟩ | ⟨hout, hx⟩)
    · exact .root (by rw [hget, if_pos ((hmem s).2 hin)])
    · induction hx with
      | @root x hx => exact .root (by rw [hget, if_neg (fun hm => hout ((hmem x).1 hm)), hx])
      | @step x p s hx hp _ ih =>
        refine .step (by rw [hget, if_neg (fun hm => hout ((hmem x).1 hm)), hx]) hp (ih ?_)
        exact fun hin => hout (.step hx hp hin)

theorem Valid.dissolve (h : t.Valid) (hr : t.parent.get? r = some r) (slot : Nat) :
    (t.dissolve r slot).Valid := by
  have hmem := (membersOf_iff h hr).2
  have hleads := fun {x s : Qubit} => leadsTo_dissolve (x := x) (s := s) h hr slot
  have hmembers : ∀ x, (t.dissolve r slot).members.get? x =
      if x ∈ t.membersOf r then some [x] else if x = r then none else t.members.get? x := by
    intro x
    rw [BlockTracker.dissolve, get?_members_release, OrderedMap.get?_erase]
  have hanchors : (t.dissolve r slot).anchors = t.anchors.erase r := release_anchors ..
  have hbodies : (t.dissolve r slot).bodies = t.bodies.erase r := release_bodies ..
  -- another root is not a member of the block
  have hother : ∀ {s : Qubit}, t.parent.get? s = some s → s ≠ r → ¬ LeadsTo t.parent s r :=
    fun hs hne hin => hne ((LeadsTo.root hs).unique hin)
  have hroot : ∀ {s : Qubit}, t.parent.get? s = some s → s ≠ r →
      (t.dissolve r slot).parent.get? s = some s :=
    fun hs hne => (hleads.2 (.inr ⟨hother hs hne, .root hs⟩)).isRoot
  refine ⟨Forest.release slot _ h.forest, ?_, ?_, ?_, ?_, ?_⟩
  · intro s ms hs
    rw [hmembers] at hs
    split at hs
    · next hin => exact (hleads.2 (.inl ⟨(hmem s).1 hin, rfl⟩)).isRoot
    · split at hs
      · cases hs
      · next hne => exact hroot (h.members_root hs) hne
  · intro s ms hs
    rw [hmembers] at hs
    split at hs
    · next hin =>
      cases Option.some.inj hs
      refine ⟨List.nodup_singleton s, fun x => ?_⟩
      rw [List.mem_singleton, hleads]
      constructor
      · rintro rfl
        exact .inl ⟨(hmem x).1 hin, rfl⟩
      · rintro (⟨-, hx⟩ | ⟨hout, hx⟩)
        · exact hx.symm
        · -- `s` is a member, and what leads to it leads to its root
          have hs' := (LeadsTo.root hx.isRoot).unique ((hmem s).1 hin)
          exact absurd (hs' ▸ hx) hout
    · next hin =>
      split at hs
      · cases hs
      · next hne =>
        refine ⟨(h.members_iff hs).1, fun x => ((h.members_iff hs).2 x).trans ?_⟩
        rw [hleads]
        constructor
        · intro hx
          exact .inr ⟨fun hxr => hne (hx.unique hxr), hx⟩
        · rintro (⟨hxr, rfl⟩ | ⟨-, hx⟩)
          · exact absurd ((hmem s).2 hxr) hin
          · exact hx
  · intro s hs
    rw [hmembers]
    split
    · exact ⟨_, rfl⟩
    · next hin =>
      rcases hleads.1 (.root hs) with ⟨hsr, -⟩ | ⟨hout, hold⟩
      · exact absurd ((hmem s).2 hsr) hin
      · have hne : s ≠ r := by
          rintro rfl
          exact hout hold
        rw [if_neg hne]
        exact h.root_members hold.isRoot
  · intro s
    rw [hanchors, hbodies, OrderedMap.get?_erase, OrderedMap.get?_erase]
    split
    · rfl
    · exact h.bodies_iff s
  · intro s a hs
    rw [hanchors, OrderedMap.get?_erase] at hs
    split at hs
    · cases hs
    · next hne => exact hroot (h.anchor_root hs) hne

theorem root_ne_of_unknown (hr : t.parent.get? r = some r) (hx : ¬ t.Knows x) :
    t.root x ≠ r := by
  rw [root_of_unknown hx]
  rintro rfl
  exact hx (by rw [Knows, hr]; rfl)

theorem knows_dissolve (slot : Nat) (hx : t.Knows x) : (t.dissolve r slot).Knows x := by
  rw [Knows, dissolve, get?_parent_release]
  split
  · rfl
  · exact hx

theorem root_dissolve (h : t.Valid) (hr : t.parent.get? r = some r) (slot : Nat) (x : Qubit) :
    (t.dissolve r slot).root x = if t.root x = r then x else t.root x := by
  have hvalid := h.dissolve hr slot
  have hknown : t.Knows r := by rw [Knows, hr]; rfl
  by_cases hx : t.Knows x
  · have hin := h.leadsTo_iff (q := x) hknown
    split
    · next hxr =>
      exact hvalid.root_eq ((leadsTo_dissolve h hr slot).2 (.inl ⟨hin.2 ⟨hx, hxr⟩, rfl⟩))
    · next hxr =>
      exact hvalid.root_eq ((leadsTo_dissolve h hr slot).2
        (.inr ⟨fun hlead => hxr (hin.1 hlead).2, h.leadsTo_root hx⟩))
  · have hout : x ∉ t.membersOf r := by
      intro hmem
      exact hx (((membersOf_iff h hr).2 x).1 hmem).isKnown
    have hx' : ¬ (t.dissolve r slot).Knows x := by
      rw [Knows, dissolve, get?_parent_release, if_neg hout]
      exact hx
    rw [if_neg (root_ne_of_unknown hr hx), root_of_unknown hx, root_of_unknown hx']

theorem get?_lastFixed_dissolve (h : t.Valid) (hr : t.parent.get? r = some r) (slot : Nat)
    (x : Qubit) :
    (t.dissolve r slot).lastFixed.get? x =
      if t.root x = r then some (max ((t.lastFixed.get? x).getD slot) slot)
      else t.lastFixed.get? x := by
  have hmem : x ∈ t.membersOf r ↔ t.root x = r := by
    rw [(membersOf_iff h hr).2, h.leadsTo_iff (by rw [Knows, hr]; rfl)]
    refine ⟨And.right, fun hx => ⟨?_, hx⟩⟩
    by_contra hno
    exact root_ne_of_unknown hr hno hx
  rw [dissolve, get?_lastFixed_release]
  simp only [hmem]

theorem anchors_dissolve (t : BlockTracker) (r : Qubit) (slot : Nat) :
    (t.dissolve r slot).anchors = t.anchors.erase r := release_anchors ..

theorem body_dissolve (t : BlockTracker) (r : Qubit) (slot : Nat) (s : Qubit) :
    (t.dissolve r slot).body s = if s = r then [] else t.body s := by
  rw [body, dissolve, release_bodies, OrderedMap.get?_erase]
  split <;> rfl

theorem pending_dissolve (t : BlockTracker) (r : Qubit) (slot : Nat) :
    t.pending.Perm (t.body r ++ (t.dissolve r slot).pending) := by
  rw [pending, pending, dissolve, release_bodies]
  exact t.bodies.flatten_values r

end BlockTracker
end QuantumCircuit
