import QuantumCircuit.Peephole.Sweep
import QuantumCircuit.Proofs.Lanes
import QuantumCircuit.Proofs.Meaning

/-! What a sweep keeps. The lanes list every operation that has been passed and
still counts, so two operations that follow one another on all their lanes have
nothing on their qubits between them and can be changed together. -/
namespace QuantumCircuit
namespace Sweep
open Operation

variable {M : Type*} [Monoid M] {val : Operation → M}
variable {ops : List Operation} {s : Sweep} {k i : Nat} {op : Operation}

theorem mem_leavesOfAll_set {l : List Operation} {i : Nat} {a leaf : Operation}
    (h : leaf ∈ leavesOfAll (l.set i a)) : leaf ∈ leavesOfAll l ∨ leaf ∈ a.leaves := by
  obtain ⟨o, ho, hleaf⟩ := mem_leavesOfAll.1 h
  rcases List.mem_or_eq_of_mem_set ho with ho | rfl
  · exact .inl (mem_leavesOfAll.2 ⟨o, ho, hleaf⟩)
  · exact .inr hleaf

theorem discard_eq_set (h : s.ops[i]? = some op) : s.discard i = s.set i op.discard := by
  obtain ⟨hlt, rfl⟩ := List.getElem?_eq_some_iff.1 h
  rw [discard, Sweep.set, List.modify_eq_set_getElem?, h]
  rfl

theorem put_eq (h : s.ops[i]? = some op) :
    s.put i = ⟨s.ops, s.lanes.pushAll op.qubits.toList i⟩ := by
  rw [put, h]

theorem place_eq (h : s.ops[i]? = some op) {pass : String} (hcheck : op.check pass = .ok ()) :
    s.place pass i = .ok (s.put i) := by
  simp [place, h, hcheck]

/-! ## Lanes -/

/-- The lanes of the first `k` slots. -/
structure Tidy (k : Nat) (s : Sweep) : Prop where
  /-- What acts on a qubit is on its lane, unless it is an identity. -/
  listed : ∀ {i : Nat} {op : Operation} {q : Qubit}, i < k → s.ops[i]? = some op →
    op.actsOn q = true → i ∈ s.lanes.stack q ∨ op.isIdentity = true
  sorted : ∀ q, (s.lanes.stack q).Pairwise (· > ·)
  below : ∀ {i : Nat} {q : Qubit}, i ∈ s.lanes.stack q → i < k
  /-- What is on a lane acts on its qubit; it may act on nothing any more if this is
  its only lane. -/
  acts : ∀ {i : Nat} {op : Operation} {q : Qubit}, i ∈ s.lanes.stack q → s.ops[i]? = some op →
    op.actsOn q = true ∨
      (∀ r, op.actsOn r = false) ∧ ∀ r, i ∈ s.lanes.stack r → r = q

theorem tidy_start (c : Circuit) : Tidy 0 ⟨c.ops, .forCircuit c⟩ := by
  have hnil : ∀ q, (Lanes.forCircuit c).stack q = [] := fun q => Lanes.stack_ofCount _ q
  refine ⟨nofun, fun q => ?_, fun {i q} h => ?_, fun {i op q} h => ?_⟩
  · rw [hnil q]
    exact .nil
  · rw [hnil q] at h
    cases h
  · rw [hnil q] at h
    cases h

/-- Only the stacks of the lanes count. -/
theorem Tidy.congr (h : Tidy k s) {lanes : Lanes}
    (hlanes : ∀ q, lanes.stack q = s.lanes.stack q) : Tidy k ⟨s.ops, lanes⟩ := by
  refine ⟨?_, ?_, ?_, ?_⟩
  · intro j o q hj ho hq
    show j ∈ lanes.stack q ∨ _
    rw [hlanes]
    exact h.listed hj ho hq
  · intro q
    show (lanes.stack q).Pairwise _
    rw [hlanes]
    exact h.sorted q
  · intro j q hj
    exact h.below (hlanes q ▸ hj)
  · intro j o q hj ho
    refine (h.acts (hlanes q ▸ hj) ho).imp_right fun hidle => ?_
    exact ⟨hidle.1, fun r hr => hidle.2 r (hlanes r ▸ hr)⟩

theorem Tidy.set (h : Tidy k s) {op' : Operation}
    (hlisted : i < k → ∀ q, op'.actsOn q = true → i ∈ s.lanes.stack q ∨ op'.isIdentity = true)
    (hacts : ∀ q, i ∈ s.lanes.stack q → op'.actsOn q = true ∨
      (∀ r, op'.actsOn r = false) ∧ ∀ r, i ∈ s.lanes.stack r → r = q) :
    Tidy k (s.set i op') := by
  refine ⟨?_, h.sorted, h.below, ?_⟩
  · intro j o q hj ho hq
    rcases getElem?_set_cases ho with ⟨rfl, rfl⟩ | ⟨-, ho⟩
    · exact hlisted hj q hq
    · exact h.listed hj ho hq
  · intro j o q hj ho
    rcases getElem?_set_cases ho with ⟨rfl, rfl⟩ | ⟨-, ho⟩
    · exact hacts q hj
    · exact h.acts hj ho

/-- Changing the current slot does not concern the lanes yet. -/
theorem Tidy.set_current (h : Tidy k s) (op' : Operation) : Tidy k (s.set k op') :=
  h.set (fun hk => absurd hk (Nat.lt_irrefl k)) fun _ hq => absurd (h.below hq) (Nat.lt_irrefl k)

theorem Tidy.put (h : Tidy k s) : Tidy (k + 1) (s.put k) := by
  cases hk : s.ops[k]? with
  | none =>
    have hput : s.put k = s := by simp [Sweep.put, hk]
    rw [hput]
    refine ⟨?_, h.sorted, fun hi => Nat.lt_succ_of_lt (h.below hi), h.acts⟩
    intro j o q hj ho hq
    refine h.listed (Nat.lt_of_le_of_ne (Nat.lt_succ_iff.1 hj) ?_) ho hq
    rintro rfl
    rw [hk] at ho
    cases ho
  | some op =>
    have hput := put_eq hk
    have hstack := s.lanes.stack_pushAll_qubits op k
    rw [hput]
    refine ⟨?_, ?_, ?_, ?_⟩
    · intro j o q hj ho hq
      show j ∈ (s.lanes.pushAll op.qubits.toList k).stack q ∨ _
      rw [hstack]
      by_cases hjk : j = k
      · subst hjk
        cases Option.some.inj (hk.symm.trans ho)
        rw [if_pos hq]
        exact .inl List.mem_cons_self
      · rcases h.listed (by omega) ho hq with hin | hid
        · left
          split
          · exact List.mem_cons_of_mem _ hin
          · exact hin
        · exact .inr hid
    · intro q
      show ((s.lanes.pushAll op.qubits.toList k).stack q).Pairwise _
      rw [hstack]
      split
      · exact .cons (fun j hj => h.below hj) (h.sorted q)
      · exact h.sorted q
    · intro j q hj
      have hj' : j ∈ (s.lanes.pushAll op.qubits.toList k).stack q := hj
      rw [hstack] at hj'
      split at hj'
      · rcases List.mem_cons.1 hj' with rfl | hj'
        · exact Nat.lt_succ_self j
        · exact Nat.lt_succ_of_lt (h.below hj')
      · exact Nat.lt_succ_of_lt (h.below hj')
    · intro j o q hj ho
      have hold : ∀ {r : Qubit}, j ∈ (s.lanes.pushAll op.qubits.toList k).stack r →
          (j = k ∧ op.actsOn r = true) ∨ j ∈ s.lanes.stack r := by
        intro r hr
        rw [hstack] at hr
        split at hr
        · next hacts => exact (List.mem_cons.1 hr).imp_left fun hjk => ⟨hjk, hacts⟩
        · exact .inr hr
      rcases hold hj with ⟨rfl, hq⟩ | hj'
      · cases Option.some.inj (hk.symm.trans ho)
        exact .inl hq
      · refine (h.acts hj' ho).imp_right fun hidle => ⟨hidle.1, fun r hr => ?_⟩
        rcases hold hr with ⟨rfl, -⟩ | hr'
        · exact absurd (h.below hj') (Nat.lt_irrefl j)
        · exact hidle.2 r hr'

/-- An identity at the current slot need not be put on the lanes. -/
theorem Tidy.skip (h : Tidy k s) (hk : s.ops[k]? = some op) (hid : op.isIdentity = true) :
    Tidy (k + 1) s := by
  refine ⟨?_, h.sorted, fun hi => Nat.lt_succ_of_lt (h.below hi), h.acts⟩
  intro j o q hj ho hq
  by_cases hjk : j = k
  · subst hjk
    cases Option.some.inj (hk.symm.trans ho)
    exact .inr hid
  · exact h.listed (by omega) ho hq

/-- An operation that is last on all its lanes becomes an identity and is taken
off them. -/
theorem Tidy.drop (h : Tidy k s) {op' : Operation} (lanes : Lanes) (hi : s.ops[i]? = some op)
    (hsome : ∃ r, op.actsOn r = true) (hid : op'.isIdentity = true)
    (htop : ∀ q, op.actsOn q = true → s.lanes.top? q = some i)
    (hlanes : ∀ q, lanes.stack q =
      if op.actsOn q then (s.lanes.stack q).tail else s.lanes.stack q) :
    Tidy k ⟨s.ops.set i op', lanes⟩ := by
  have hhead : ∀ q, op.actsOn q = true → s.lanes.stack q = i :: (s.lanes.stack q).tail := by
    intro q hq
    exact (List.cons_head?_tail (htop q hq)).symm
  have hsub : ∀ {j : Nat} {q : Qubit}, j ∈ lanes.stack q → j ∈ s.lanes.stack q := by
    intro j q hj
    rw [hlanes] at hj
    split at hj
    · exact List.mem_of_mem_tail hj
    · exact hj
  have hgone : ∀ q, i ∉ lanes.stack q := by
    intro q hin
    have hold := hsub hin
    rw [hlanes] at hin
    by_cases hq : op.actsOn q = true
    · have hsorted := h.sorted q
      rw [hhead q hq, List.pairwise_cons] at hsorted
      rw [if_pos hq] at hin
      exact Nat.lt_irrefl i (hsorted.1 i hin)
    · rcases h.acts hold hi with hacts | hnone
      · exact hq hacts
      · obtain ⟨r, hr⟩ := hsome
        rw [hnone.1 r] at hr
        cases hr
  refine ⟨?_, ?_, fun hj => h.below (hsub hj), ?_⟩
  · intro j o q hj ho hq
    rcases getElem?_set_cases ho with ⟨-, rfl⟩ | ⟨hne, ho⟩
    · exact .inr hid
    · rcases h.listed hj ho hq with hin | hid'
      · left
        show j ∈ lanes.stack q
        rw [hlanes]
        by_cases hop : op.actsOn q = true
        · rw [hhead q hop] at hin
          rw [if_pos hop]
          exact (List.mem_cons.1 hin).resolve_left fun heq => hne heq.symm
        · rwa [if_neg hop]
      · exact .inr hid'
  · intro q
    show (lanes.stack q).Pairwise _
    rw [hlanes]
    split
    · exact (h.sorted q).tail
    · exact h.sorted q
  · intro j o q hj ho
    rcases getElem?_set_cases ho with ⟨rfl, -⟩ | ⟨-, ho⟩
    · exact absurd hj (hgone q)
    · refine (h.acts (hsub hj) ho).imp_right fun hidle => ?_
      exact ⟨hidle.1, fun r hr => hidle.2 r (hsub hr)⟩

/-- Slots on a lane that lie behind the given one stand before it on the stack. -/
theorem Tidy.mem_above (h : Tidy k s) {q : Qubit} (above below : List Nat)
    (hstack : s.lanes.stack q = above ++ i :: below) {j : Nat} (hij : i < j)
    (hj : j ∈ s.lanes.stack q) : j ∈ above := by
  have hsorted := h.sorted q
  rw [hstack] at hj hsorted
  rcases List.mem_append.1 hj with hj | hj
  · exact hj
  · rcases List.mem_cons.1 hj with rfl | hj
    · exact absurd hij (Nat.lt_irrefl j)
    · have hlt := (List.pairwise_cons.1 (List.pairwise_append.1 hsorted).2.1).1 j hj
      exact absurd hij (Nat.lt_asymm hlt)

/-- Behind the last slot on a lane nothing but identities acts on the qubit. -/
theorem Tidy.behind_top (h : Tidy k s) {q : Qubit} (htop : s.lanes.top? q = some i) {j : Nat}
    (hij : i < j) (hjk : j < k) (hj : s.ops[j]? = some op) :
    op.isIdentity = true ∨ op.actsOn q = false := by
  by_cases hq : op.actsOn q = true
  · left
    refine (h.listed hjk hj hq).resolve_left fun hin => ?_
    cases h.mem_above [] _ (List.cons_head?_tail htop).symm hij hin
  · exact .inr (by simpa using hq)

/-- Between the last two slots on a lane nothing but identities acts on the
qubit. -/
theorem Tidy.between_top (h : Tidy k s) {q : Qubit} {last : Nat} {below : List Nat}
    (hstack : s.lanes.stack q = last :: i :: below) {j : Nat} (hij : i < j) (hjl : j < last)
    (hj : s.ops[j]? = some op) : op.isIdentity = true ∨ op.actsOn q = false := by
  have hlast : last < k := h.below (by rw [hstack]; exact List.mem_cons_self)
  by_cases hq : op.actsOn q = true
  · left
    refine (h.listed (Nat.lt_trans hjl hlast) hj hq).resolve_left fun hin => ?_
    have hmem := h.mem_above [last] below hstack hij hin
    rw [List.mem_singleton.1 hmem] at hjl
    exact Nat.lt_irrefl last hjl
  · exact .inr (by simpa using hq)

/-! ## Meaning -/

theorem meaning_set_set {l : List Operation} {i j : Nat} (hij : i < j) {x y x' y' : Operation}
    (hx : l[i]? = some x) (hy : l[j]? = some y)
    (hmid : ∀ m o, i < m → m < j → l[m]? = some o →
      Commute (meaning val [y]) (meaning val [o]) ∧ Commute (meaning val [y']) (meaning val [o]))
    (heq : meaning val [x] * meaning val [y] = meaning val [x'] * meaning val [y']) :
    meaning val ((l.set i x').set j y') = meaning val l := by
  rw [meaning_eq_prod, meaning_eq_prod, List.map_set, List.map_set]
  refine prod_set_set hij (by rw [List.getElem?_map, hx]; rfl) (by rw [List.getElem?_map, hy]; rfl)
    ?_ heq
  intro m z him hmj hz
  rw [List.getElem?_map] at hz
  obtain ⟨o, ho, rfl⟩ := Option.map_eq_some_iff.1 hz
  exact hmid m o him hmj ho

/-- The value of an operation commutes with that of every leaf on other qubits. -/
def CommutesApart (val : Operation → M) (op : Operation) : Prop :=
  ∀ leaf, leaf.isCompound = false → Independent op leaf → Commute (val op) (val leaf)

theorem CommutesApart.commute_meaning {g : Gate} (h : CommutesApart val (.gate g))
    (hone : ∀ leaf, leaf.isIdentity = true → val leaf = 1)
    (hop : op.isIdentity = true ∨ Independent (.gate g) op) :
    Commute (val (.gate g)) (meaning val [op]) := by
  rcases hop with hid | hindep
  · rw [meaning_of_isIdentity hone hid]
    exact Commute.one_right _
  · refine QuantumCircuit.commute_meaning fun leaf hleaf => ?_
    have hleaf' : leaf ∈ op.leaves := by simpa using hleaf
    refine h leaf (leaf_not_compound hleaf') fun q hq => ?_
    by_contra hacts
    have hop : op.actsOn q = true := actsOn_iff_leaf.2 ⟨leaf, hleaf', by simpa using hacts⟩
    rw [hindep q hq] at hop
    cases hop

/-! ## The invariant -/

/-- A leaf of the circuit, or a gate that passes the check or is an identity, on
qubits of the circuit. -/
def Derived (ops : List Operation) (leaf : Operation) : Prop :=
  leaf ∈ leavesOfAll ops ∨ ∃ g, leaf = .gate g ∧ (g.validate = .ok () ∨ g.kind = .i) ∧
    ∀ q, g.actsOn q = true → ∃ op ∈ ops, op.actsOn q = true

theorem Derived.cases {leaf : Operation} (h : Derived ops leaf) (hid : leaf.isIdentity = false) :
    leaf ∈ leavesOfAll ops ∨ ∃ g, leaf = .gate g ∧ g.validate = .ok () ∧
      ∀ q, g.actsOn q = true → ∃ op ∈ ops, op.actsOn q = true := by
  refine h.imp_right ?_
  rintro ⟨g, rfl, hg, hacts⟩
  refine ⟨g, rfl, hg.resolve_right fun hkind => ?_, hacts⟩
  simp [isIdentity, hkind] at hid

/-- The first `k` slots have been passed. -/
structure Inv (val : Operation → M) (ops : List Operation) (k : Nat) (s : Sweep) : Prop where
  length : s.ops.length = ops.length
  rest : ∀ i, k ≤ i → s.ops[i]? = ops[i]?
  tidy : Tidy k s
  leaf : ∀ leaf ∈ leavesOfAll s.ops, Derived ops leaf
  meaning : meaning val s.ops = QuantumCircuit.meaning val ops

theorem inv_start (val : Operation → M) (c : Circuit) :
    Inv val c.ops 0 ⟨c.ops, .forCircuit c⟩ :=
  ⟨rfl, fun _ _ => rfl, tidy_start c, fun _ => .inl, rfl⟩

theorem Inv.exists_actsOn (h : Inv val ops k s) (hi : s.ops[i]? = some op) {q : Qubit}
    (hq : op.actsOn q = true) : ∃ o ∈ ops, o.actsOn q = true := by
  obtain ⟨leaf, hleaf, hacts⟩ := actsOn_iff_leaf.1 hq
  rcases h.leaf leaf (mem_leavesOfAll.2 ⟨op, List.mem_of_getElem? hi, hleaf⟩) with hin | hgate
  · obtain ⟨o, ho, hmem⟩ := mem_leavesOfAll.1 hin
    exact ⟨o, ho, actsOn_iff_leaf.2 ⟨leaf, hmem, hacts⟩⟩
  · obtain ⟨g, rfl, -, hqubits⟩ := hgate
    exact hqubits q hacts

/-- A gate that is still there and no identity passes the check. -/
theorem Inv.valid_gate (h : Inv val ops k s) (hvalid : ∀ op ∈ ops, op.validate = .ok ())
    {g : Gate} (hg : .gate g ∈ leavesOfAll s.ops) (hk : g.kind ≠ .i) : g.validate = .ok () := by
  rcases h.leaf _ hg with hin | ⟨g', heq, hor, -⟩
  · obtain ⟨o, ho, hmem⟩ := mem_leavesOfAll.1 hin
    exact validate_iff_leaves.1 (hvalid o ho) _ hmem
  · cases heq
    exact hor.resolve_right hk

theorem mem_leaves_of_slot {g : Gate} (h : s.ops[i]? = some (.gate g)) :
    .gate g ∈ leavesOfAll s.ops :=
  mem_leavesOfAll.2 ⟨_, List.mem_of_getElem? h, List.mem_singleton_self _⟩

/-- Two operations are changed together. -/
theorem Inv.edit (h : Inv val ops k s) {k' j : Nat} {x y x' y' : Operation} {lanes : Lanes}
    (hij : i < j) (hjk : j < k') (hkk : k ≤ k') (hx : s.ops[i]? = some x)
    (hy : s.ops[j]? = some y)
    (hmid : ∀ m o, i < m → m < j → s.ops[m]? = some o →
      Commute (QuantumCircuit.meaning val [y]) (QuantumCircuit.meaning val [o]) ∧
        Commute (QuantumCircuit.meaning val [y']) (QuantumCircuit.meaning val [o]))
    (heq : QuantumCircuit.meaning val [x] * QuantumCircuit.meaning val [y] =
      QuantumCircuit.meaning val [x'] * QuantumCircuit.meaning val [y'])
    (hleaves : ∀ leaf ∈ x'.leaves ++ y'.leaves, Derived ops leaf)
    (htidy : Tidy k' ⟨(s.ops.set i x').set j y', lanes⟩) :
    Inv val ops k' ⟨(s.ops.set i x').set j y', lanes⟩ := by
  refine ⟨?_, ?_, htidy, ?_, ?_⟩
  · rw [List.length_set, List.length_set, h.length]
  · intro m hm
    show ((s.ops.set i x').set j y')[m]? = ops[m]?
    rw [List.getElem?_set_ne (by omega), List.getElem?_set_ne (by omega), h.rest m (by omega)]
  · intro leaf hleaf
    rcases mem_leavesOfAll_set hleaf with hleaf | hleaf
    · rcases mem_leavesOfAll_set hleaf with hleaf | hleaf
      · exact h.leaf leaf hleaf
      · exact hleaves leaf (List.mem_append_left _ hleaf)
    · exact hleaves leaf (List.mem_append_right _ hleaf)
  · rw [← h.meaning]
    exact meaning_set_set hij hx hy hmid heq

theorem Inv.place (h : Inv val ops k s) (hk : s.ops[k]? = some op) {pass : String}
    (hcheck : op.check pass = .ok ()) :
    ∃ s', s.place pass k = .ok s' ∧ Inv val ops (k + 1) s' := by
  have hops : (s.put k).ops = s.ops := by simp [Sweep.put, hk]
  refine ⟨s.put k, place_eq hk hcheck, ?_⟩
  exact ⟨hops ▸ h.length, fun i hi => hops ▸ h.rest i (Nat.le_of_succ_le hi), h.tidy.put,
    hops ▸ h.leaf, hops ▸ h.meaning⟩

/-! ## Changes at the current slot -/

/-- A gate without its kind and controls, as it stands until the sweep is over. -/
def blank (g : Gate) : Gate := { g with kind := .i, controls := ∅ }

theorem discard_gate (g : Gate) : (Operation.gate g).discard = .gate (blank g) := rfl

theorem actsOn_blank {g : Gate} {q : Qubit} (h : (blank g).actsOn q = true) :
    g.actsOn q = true := by
  have hblank : (blank g).actsOn q = (decide (q ∈ g.targets) || false) := rfl
  have hq : q ∈ g.targets := by simpa [hblank] using h
  simp [Gate.actsOn, hq]

theorem Inv.derived_gate (h : Inv val ops k s) (hi : s.ops[i]? = some op) {g : Gate}
    (hg : g.validate = .ok () ∨ g.kind = .i) (hsub : ∀ q, g.actsOn q = true → op.actsOn q = true) :
    ∀ leaf ∈ (Operation.gate g).leaves, Derived ops leaf := by
  intro leaf hleaf
  rw [List.mem_singleton.1 hleaf]
  exact .inr ⟨g, rfl, hg, fun q hq => h.exists_actsOn hi (hsub q hq)⟩

theorem Tidy.behind (h : Tidy k s) {c : Gate}
    (htop : ∀ q, c.actsOn q = true → s.lanes.top? q = some i) {j : Nat} (hij : i < j)
    (hjk : j < k) (hj : s.ops[j]? = some op) :
    op.isIdentity = true ∨ Independent (.gate c) op := by
  by_cases hid : op.isIdentity = true
  · exact .inl hid
  · exact .inr fun q hq => (h.behind_top (htop q hq) hij hjk hj).resolve_left hid

theorem Tidy.lt_of_top (h : Tidy k s) {q : Qubit} (htop : s.lanes.top? q = some i) : i < k :=
  h.below (List.mem_of_mem_head? htop)

section current
variable {c : Gate} (hone : ∀ leaf, leaf.isIdentity = true → val leaf = 1)
  (hc : s.ops[k]? = some (.gate c)) (hcomm : CommutesApart val (.gate c))
  (hsome : ∃ q, c.actsOn q = true)
  (htop : ∀ q, c.actsOn q = true → s.lanes.top? q = some i)
include hone hc hcomm hsome htop

/-- The operation before the current one takes it up. -/
theorem Inv.absorb (h : Inv val ops k s) {x x' : Operation} (hx : s.ops[i]? = some x)
    (heq : QuantumCircuit.meaning val [x] * val (.gate c) = QuantumCircuit.meaning val [x'])
    (hleaves : ∀ leaf ∈ x'.leaves, Derived ops leaf)
    (hlisted : ∀ q, x'.actsOn q = true → i ∈ s.lanes.stack q)
    (hacts : ∀ q, i ∈ s.lanes.stack q → x'.actsOn q = true ∨
      (∀ r, x'.actsOn r = false) ∧ ∀ r, i ∈ s.lanes.stack r → r = q) :
    Inv val ops (k + 1) ((s.set i x').discard k) := by
  obtain ⟨q, hq⟩ := hsome
  have hik : i < k := h.tidy.lt_of_top (htop q hq)
  have hc' : (s.set i x').ops[k]? = some (.gate c) := by
    rw [Sweep.set, List.getElem?_set_ne (by omega), hc]
  have hklt : k < (s.set i x').ops.length := (List.getElem?_eq_some_iff.1 hc').1
  have hid : (Operation.gate (blank c)).isIdentity = true := rfl
  rw [discard_eq_set hc', discard_gate]
  refine h.edit hik (Nat.lt_succ_self k) (Nat.le_succ k) hx hc ?_ ?_ ?_ ?_
  · intro m o him hmk ho
    have hapart := h.tidy.behind htop him hmk ho
    rw [meaning_gate, meaning_of_isIdentity hone hid]
    exact ⟨hcomm.commute_meaning hone hapart, Commute.one_left _⟩
  · rw [meaning_gate, heq, meaning_of_isIdentity hone hid, mul_one]
  · intro leaf hleaf
    rcases List.mem_append.1 hleaf with hleaf | hleaf
    · exact hleaves leaf hleaf
    · exact h.derived_gate hc (.inr rfl) (fun q => actsOn_blank) leaf hleaf
  · refine ((h.tidy.set (fun _ q hq => .inl (hlisted q hq)) hacts).set_current _).skip ?_ hid
    exact List.getElem?_set_self hklt

/-- The current gate and the one before it undo each other. -/
theorem Inv.drop (h : Inv val ops k s) {p : Gate} {lanes : Lanes}
    (hp : s.ops[i]? = some (.gate p)) (hsame : ∀ q, p.actsOn q = c.actsOn q)
    (heq : val (.gate p) * val (.gate c) = 1)
    (hlanes : ∀ q, lanes.stack q =
      if c.actsOn q then (s.lanes.stack q).tail else s.lanes.stack q) :
    Inv val ops (k + 1) (((Sweep.mk s.ops lanes).discard i).discard k) := by
  obtain ⟨q, hq⟩ := hsome
  have hik : i < k := h.tidy.lt_of_top (htop q hq)
  have hc' : (s.ops.set i (.gate (blank p)))[k]? = some (.gate c) := by
    rw [List.getElem?_set_ne (by omega), hc]
  have hklt : k < (s.ops.set i (.gate (blank p))).length := (List.getElem?_eq_some_iff.1 hc').1
  have hid : ∀ g, (Operation.gate (blank g)).isIdentity = true := fun _ => rfl
  have hfirst : (Sweep.mk s.ops lanes).discard i =
      (Sweep.mk s.ops lanes).set i (.gate (blank p)) :=
    discard_eq_set (s := Sweep.mk s.ops lanes) hp
  have hsecond : ((Sweep.mk s.ops lanes).set i (.gate (blank p))).discard k =
      ((Sweep.mk s.ops lanes).set i (.gate (blank p))).set k (.gate (blank c)) :=
    discard_eq_set (s := (Sweep.mk s.ops lanes).set i (.gate (blank p))) hc'
  rw [hfirst, hsecond]
  refine h.edit hik (Nat.lt_succ_self k) (Nat.le_succ k) hp hc ?_ ?_ ?_ ?_
  · intro m o him hmk ho
    have hapart := h.tidy.behind htop him hmk ho
    rw [meaning_gate, meaning_of_isIdentity hone (hid c)]
    exact ⟨hcomm.commute_meaning hone hapart, Commute.one_left _⟩
  · rw [meaning_gate, meaning_gate, heq, meaning_of_isIdentity hone (hid p),
      meaning_of_isIdentity hone (hid c), mul_one]
  · intro leaf hleaf
    rcases List.mem_append.1 hleaf with hleaf | hleaf
    · exact h.derived_gate hp (.inr rfl) (fun q => actsOn_blank) leaf hleaf
    · exact h.derived_gate hc (.inr rfl) (fun q => actsOn_blank) leaf hleaf
  · have hacts : ∀ q, (Operation.gate p).actsOn q = c.actsOn q := hsame
    have hdropped := h.tidy.drop lanes hp ⟨q, (hacts q).trans hq⟩ (hid p)
      (fun r hr => htop r ((hacts r).symm.trans hr)) (fun r => by rw [hlanes, hacts])
    refine (hdropped.set_current _).skip ?_ (hid c)
    exact List.getElem?_set_self hklt

/-- The current gate and the one before it are replaced by two others on the same
qubits. -/
theorem Inv.rewrite (h : Inv val ops k s) {p p' c' : Gate} {lanes : Lanes}
    (hp : s.ops[i]? = some (.gate p)) (hsame : ∀ q, p.actsOn q = c.actsOn q)
    (hp' : p'.validate = .ok ()) (hsame' : ∀ q, p'.actsOn q = c.actsOn q)
    (hc' : c'.validate = .ok ()) (hsame'' : ∀ q, c'.actsOn q = c.actsOn q)
    (hcomm' : CommutesApart val (.gate c'))
    (heq : val (.gate p) * val (.gate c) = val (.gate p') * val (.gate c'))
    (hlanes : ∀ q, lanes.stack q =
      if c.actsOn q then k :: s.lanes.stack q else s.lanes.stack q) :
    Inv val ops (k + 1) ⟨(s.ops.set i (.gate p')).set k (.gate c'), lanes⟩ := by
  obtain ⟨q, hq⟩ := hsome
  have hik : i < k := h.tidy.lt_of_top (htop q hq)
  have htidy : Tidy (k + 1) ⟨(s.ops.set i (.gate p')).set k (.gate c'), lanes⟩ := by
    have hset : Tidy k ((s.set i (.gate p')).set k (.gate c')) := by
      refine (h.tidy.set ?_ ?_).set_current _
      · intro _ r hr
        exact .inl (List.mem_of_mem_head? (htop r ((hsame' r).symm.trans hr)))
      · intro r hr
        left
        rcases h.tidy.acts hr hp with hacts | hnone
        · exact (hsame' r).trans ((hsame r).symm.trans hacts)
        · refine absurd ((hsame q).trans hq) ?_
          rw [show p.actsOn q = false from hnone.1 q]
          exact Bool.false_ne_true
    have hcur : ((s.set i (.gate p')).set k (.gate c')).ops[k]? = some (.gate c') := by
      have hklt := (List.getElem?_eq_some_iff.1 hc).1
      exact List.getElem?_set_self (by simpa [Sweep.set] using hklt)
    have hput : ((s.set i (.gate p')).set k (.gate c')).put k =
        ⟨(s.ops.set i (.gate p')).set k (.gate c'),
          s.lanes.pushAll (Operation.gate c').qubits.toList k⟩ := by
      rw [Sweep.put, hcur]
      rfl
    have hdone := hset.put
    rw [hput] at hdone
    refine hdone.congr fun r => ?_
    have hacts : (Operation.gate c').actsOn r = c.actsOn r := hsame'' r
    rw [hlanes, Lanes.stack_pushAll_qubits, hacts]
  refine h.edit hik (Nat.lt_succ_self k) (Nat.le_succ k) hp hc ?_ ?_ ?_ htidy
  · intro m o him hmk ho
    have hapart := h.tidy.behind htop him hmk ho
    rw [meaning_gate, meaning_gate]
    refine ⟨hcomm.commute_meaning hone hapart, hcomm'.commute_meaning hone ?_⟩
    exact hapart.imp_right fun hindep r hr => hindep r ((hsame'' r).symm.trans hr)
  · simp only [meaning_gate]
    exact heq
  · intro leaf hleaf
    rcases List.mem_append.1 hleaf with hleaf | hleaf
    · exact h.derived_gate hc (.inl hp') (fun r hr => (hsame' r).symm.trans hr) leaf hleaf
    · exact h.derived_gate hc (.inl hc') (fun r hr => (hsame'' r).symm.trans hr) leaf hleaf

/-- Three gates in a row become one: the last two are joined first, and then
taken up by the first. -/
theorem Inv.collapse (h : Inv val ops k s) {f : Nat} {g p g' : Gate} {lanes : Lanes}
    (hp : s.ops[i]? = some (.gate p)) (hsame : ∀ q, p.actsOn q = c.actsOn q)
    (hg : s.ops[f]? = some (.gate g)) (hsameg : ∀ q, g.actsOn q = c.actsOn q)
    (hg' : g'.validate = .ok ()) (hsame' : ∀ q, g'.actsOn q = c.actsOn q)
    (hcommp : CommutesApart val (.gate p))
    (hstack : ∀ q, c.actsOn q = true → ∃ below, s.lanes.stack q = i :: f :: below)
    (heq : val (.gate g) * (val (.gate p) * val (.gate c)) = val (.gate g'))
    (hlanes : ∀ q, lanes.stack q =
      if c.actsOn q then (s.lanes.stack q).tail else s.lanes.stack q) :
    Inv val ops (k + 1)
      (((Sweep.mk (s.ops.set f (.gate g')) lanes).discard i).discard k) := by
  obtain ⟨q, hq⟩ := hsome
  have hik : i < k := h.tidy.lt_of_top (htop q hq)
  have hfi : f < i := by
    obtain ⟨below, hbelow⟩ := hstack q hq
    have hsorted := h.tidy.sorted q
    rw [hbelow] at hsorted
    exact (List.pairwise_cons.1 hsorted).1 f List.mem_cons_self
  have hboth : ∀ r, (Operation.compound [.gate p, .gate c]).actsOn r = c.actsOn r := by
    intro r
    simp [actsOn, anyActsOn, hsame r]
  have hpair : QuantumCircuit.meaning val [.compound [.gate p, .gate c]] =
      val (.gate p) * val (.gate c) := by
    rw [meaning_compound, meaning_cons (.gate p) [.gate c], meaning_gate, meaning_gate]
  have hjoined := h.absorb hone hc hcomm ⟨q, hq⟩ htop hp
    (by rw [meaning_gate]; exact hpair.symm) (by
      intro leaf hleaf
      have hleaf' : leaf = .gate p ∨ leaf = .gate c := by simpa [leaves, leavesOfAll] using hleaf
      rcases hleaf' with rfl | rfl
      · exact h.leaf _ (mem_leaves_of_slot hp)
      · exact h.leaf _ (mem_leaves_of_slot hc))
    (fun r hr => List.mem_of_mem_head? (htop r ((hboth r).symm.trans hr)))
    (fun r hr => by
      rw [hboth]
      rcases h.tidy.acts hr hp with hacts | hnone
      · exact .inl ((hsame r).symm.trans hacts)
      · refine absurd ((hsame q).trans hq) ?_
        rw [show p.actsOn q = false from hnone.1 q]
        exact Bool.false_ne_true)
  have hidle : ∀ g, (Operation.gate (blank g)).isIdentity = true := fun _ => rfl
  have hcur : (s.ops.set i (.compound [.gate p, .gate c]))[k]? = some (.gate c) := by
    rw [List.getElem?_set_ne (by omega), hc]
  have hs₁ : (s.set i (.compound [.gate p, .gate c])).discard k =
      ⟨(s.ops.set i (.compound [.gate p, .gate c])).set k (.gate (blank c)), s.lanes⟩ :=
    discard_eq_set (s := s.set i (.compound [.gate p, .gate c])) hcur
  rw [hs₁] at hjoined
  set ops₁ := (s.ops.set i (.compound [.gate p, .gate c])).set k (.gate (blank c)) with hops₁
  have hother : ∀ {m : Nat}, m ≠ i → m ≠ k → ops₁[m]? = s.ops[m]? := by
    intro m hmi hmk
    rw [hops₁, List.getElem?_set_ne (by omega), List.getElem?_set_ne (by omega)]
  have hi₁ : ops₁[i]? = some (.compound [.gate p, .gate c]) := by
    have hilt := (List.getElem?_eq_some_iff.1 hp).1
    rw [hops₁, List.getElem?_set_ne (by omega), List.getElem?_set_self hilt]
  have hf₁ : ops₁[f]? = some (.gate g) := (hother (by omega) (by omega)).trans hg
  -- the end state, written as a change of the first two of the three
  have hend : ((Sweep.mk (s.ops.set f (.gate g')) lanes).discard i).discard k =
      ⟨(ops₁.set f (.gate g')).set i (.gate (blank p)), lanes⟩ := by
    have hpf : (s.ops.set f (.gate g'))[i]? = some (.gate p) := by
      rw [List.getElem?_set_ne (by omega), hp]
    have hcf : ((s.ops.set f (.gate g')).set i (.gate (blank p)))[k]? = some (.gate c) := by
      rw [List.getElem?_set_ne (by omega), List.getElem?_set_ne (by omega), hc]
    rw [discard_eq_set (s := Sweep.mk (s.ops.set f (.gate g')) lanes) hpf, discard_gate,
      discard_eq_set (s := (Sweep.mk (s.ops.set f (.gate g')) lanes).set i (.gate (blank p))) hcf,
      discard_gate, hops₁]
    show Sweep.mk (((s.ops.set f _).set i _).set k _) lanes = _
    rw [List.set_comm _ _ (show k ≠ f by omega), List.set_comm _ _ (show k ≠ i by omega),
      List.set_comm _ _ (show i ≠ f by omega), List.set_set]
  have hmid : ∀ m o, f < m → m < i → ops₁[m]? = some o →
      Commute (val (.gate p) * val (.gate c)) (QuantumCircuit.meaning val [o]) := by
    intro m o hfm hmi ho
    rw [hother (by omega) (by omega)] at ho
    have hapart : o.isIdentity = true ∨ Independent (.gate c) o := by
      by_cases hid : o.isIdentity = true
      · exact .inl hid
      · refine .inr fun r hr => ?_
        obtain ⟨below, hbelow⟩ := hstack r hr
        exact (h.tidy.between_top hbelow hfm hmi ho).resolve_left hid
    refine (hcommp.commute_meaning hone ?_).mul_left (hcomm.commute_meaning hone hapart)
    exact hapart.imp_right fun hindep r hr => hindep r ((hsame r).symm.trans hr)
  rw [hend]
  refine hjoined.edit hfi (by omega) (Nat.le_refl _) hf₁ hi₁ ?_ ?_ ?_ ?_
  · intro m o hfm hmi ho
    rw [meaning_of_isIdentity hone (hidle p), hpair]
    exact ⟨hmid m o hfm hmi ho, Commute.one_left _⟩
  · rw [meaning_of_isIdentity hone (hidle p), hpair, meaning_gate, meaning_gate, heq, mul_one]
  · intro leaf hleaf
    rcases List.mem_append.1 hleaf with hleaf | hleaf
    · exact h.derived_gate hc (.inl hg') (fun r hr => (hsame' r).symm.trans hr) leaf hleaf
    · exact h.derived_gate hp (.inr rfl) (fun r => actsOn_blank) leaf hleaf
  · have hset : Tidy (k + 1) ⟨ops₁.set f (.gate g'), s.lanes⟩ := by
      refine hjoined.tidy.set ?_ ?_
      · intro _ r hr
        obtain ⟨below, hbelow⟩ := hstack r ((hsame' r).symm.trans hr)
        left
        show f ∈ s.lanes.stack r
        simp [hbelow]
      · intro r hr
        left
        rcases hjoined.tidy.acts hr hf₁ with hacts | hnone
        · exact (hsame' r).trans ((hsameg r).symm.trans hacts)
        · refine absurd ((hsameg q).trans hq) ?_
          rw [show g.actsOn q = false from hnone.1 q]
          exact Bool.false_ne_true
    have hi₂ : (ops₁.set f (.gate g'))[i]? = some (.compound [.gate p, .gate c]) := by
      rw [List.getElem?_set_ne (by omega), hi₁]
    exact hset.drop lanes hi₂ ⟨q, (hboth q).trans hq⟩ (hidle p)
      (fun r hr => htop r ((hboth r).symm.trans hr)) (fun r => by rw [hlanes, hboth])

end current

/-! ## A whole sweep -/

theorem Inv.getElem?_current (h : Inv val ops k s) (hk : k < ops.length) :
    s.ops[k]? = some ops[k] := by
  rw [h.rest k (Nat.le_refl k), List.getElem?_eq_getElem hk]

/-- The operation at the current slot, as yet unchanged, can be put on the
lanes. -/
theorem Inv.place_current (h : Inv val ops k s) (hvalid : ∀ op ∈ ops, op.validate = .ok ())
    (hk : k < ops.length) (pass : String) :
    ∃ s', s.place pass k = .ok s' ∧ Inv val ops (k + 1) s' :=
  h.place (h.getElem?_current hk) (check_of_validate pass (hvalid _ (List.getElem_mem hk)))

/-- Steps that keep a property of slot and state keep it to the end. -/
theorem forEach_range {step : Nat → Sweep → Except PassError Sweep} {P : Nat → Sweep → Prop}
    {len : Nat} (hstep : ∀ k s, k < len → P k s → ∃ s', step k s = .ok s' ∧ P (k + 1) s') :
    ∀ (n k : Nat) (s : Sweep), k + n = len → P k s →
      ∃ s', Outcome.forEach step (List.range' k n) s = .done s' ∧ P len s' := by
  intro n
  induction n with
  | zero =>
    intro k s hk h
    exact ⟨s, rfl, hk ▸ h⟩
  | succ n ih =>
    intro k s hk h
    obtain ⟨s', hs', h'⟩ := hstep k s (by omega) h
    rw [List.range'_succ, Outcome.forEach, hs']
    exact ih (k + 1) s' (by omega) h'

/-- A sweep whose steps keep a property succeeds, and the property holds of the state that it
has come to before the identities are swept up. -/
theorem run_of_steps {step : Nat → Sweep → Except PassError Sweep} {c : Circuit}
    {P : Nat → Sweep → Prop} (hstart : P 0 ⟨c.ops, .forCircuit c⟩)
    (hstep : ∀ k s, k < c.ops.length → P k s → ∃ s', step k s = .ok s' ∧ P (k + 1) s') :
    ∃ s, run step c = .done { c with ops := stripAll s.ops } ∧ P c.ops.length s := by
  obtain ⟨s, hs, h⟩ := forEach_range hstep c.ops.length 0 _ (Nat.zero_add _) hstart
  rw [← List.range_eq_range'] at hs
  refine ⟨s, ?_, h⟩
  rw [run, hs]
  rfl

/-- A sweep whose steps keep the invariant succeeds and keeps the meaning. -/
theorem run_spec {step : Nat → Sweep → Except PassError Sweep} {c : Circuit}
    (hone : ∀ leaf, leaf.isIdentity = true → val leaf = 1)
    (hstep : ∀ k s, k < c.ops.length → Inv val c.ops k s →
      ∃ s', step k s = .ok s' ∧ Inv val c.ops (k + 1) s') :
    ∃ out, run step c = .done { c with ops := out } ∧
      QuantumCircuit.meaning val out = QuantumCircuit.meaning val c.ops ∧
      ∀ leaf ∈ leavesOfAll out, leaf.isIdentity = false ∧ Derived c.ops leaf := by
  obtain ⟨s, hs, h⟩ := run_of_steps (inv_start val c) hstep
  refine ⟨stripAll s.ops, hs, ?_, ?_⟩
  · rw [meaning_stripAll hone, h.meaning]
  · intro leaf hleaf
    rw [leavesOfAll_stripAll, List.mem_filter] at hleaf
    exact ⟨by simpa using hleaf.2, h.leaf leaf hleaf.1⟩

end Sweep
end QuantumCircuit
