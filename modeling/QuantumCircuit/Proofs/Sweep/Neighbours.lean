import QuantumCircuit.Proofs.PairGates

/-! Operations in a row. Two operations follow one another on two qubits when nothing between
them acts on either. On the lanes of a sweep they are then one right above the other, and the
other way round: what is one above the other on both lanes has only identities and operations
on other qubits in between. -/
namespace QuantumCircuit

/-! ## Rows of operations -/

/-- The operations come in the list one after the other, with only what may be skipped in front
of each of them. -/
def Led (skip : Operation → Prop) : List Operation → List Operation → Prop
  | [], _ => True
  | x :: xs, ops => ∃ between after, ops = between ++ x :: after ∧ (∀ op ∈ between, skip op) ∧
    Led skip xs after

/-- The operation acts on neither of two qubits. -/
def ApartFrom (a b : Qubit) (op : Operation) : Prop := op.actsOn a = false ∧ op.actsOn b = false

/-- Somewhere in the list the operations come in a row on two qubits: nothing between them acts
on either. -/
def InRow (a b : Qubit) (xs ops : List Operation) : Prop :=
  ∃ before after, ops = before ++ after ∧ Led (ApartFrom a b) xs after

section rows
variable {skip : Operation → Prop} {x : Operation} {xs ops : List Operation}

/-- A row told by the slots. -/
theorem led_drop_iff {n : Nat} :
    Led skip (x :: xs) (ops.drop n) ↔ ∃ j, n ≤ j ∧ ops[j]? = some x ∧
      (∀ m op, n ≤ m → m < j → ops[m]? = some op → skip op) ∧ Led skip xs (ops.drop (j + 1)) := by
  constructor
  · rintro ⟨between, after, hops, hskip, hrest⟩
    have hget : ∀ m, ops[n + m]? = (between ++ x :: after)[m]? := by
      intro m
      rw [← hops, List.getElem?_drop]
    refine ⟨n + between.length, Nat.le_add_right _ _, ?_, ?_, ?_⟩
    · rw [hget, List.getElem?_append_right (Nat.le_refl _), Nat.sub_self]
      rfl
    · intro m op hnm hm hop
      obtain ⟨d, rfl⟩ := Nat.exists_eq_add_of_le hnm
      rw [hget, List.getElem?_append_left (by omega)] at hop
      exact hskip op (List.mem_of_getElem? hop)
    · have hafter : ops.drop (n + between.length + 1) = after := by
        rw [Nat.add_assoc, ← List.drop_drop, hops, List.drop_append]
        simp
      rw [hafter]
      exact hrest
  · rintro ⟨j, hnj, hj, hskip, hrest⟩
    obtain ⟨d, rfl⟩ := Nat.exists_eq_add_of_le hnj
    have hx : (ops.drop n)[d]? = some x := by rw [List.getElem?_drop, hj]
    have hdrop : ops.drop (n + d + 1) = (ops.drop n).drop (d + 1) := by
      rw [List.drop_drop, Nat.add_assoc]
    rw [hdrop] at hrest
    refine ⟨(ops.drop n).take d, (ops.drop n).drop (d + 1), ?_, ?_, hrest⟩
    · obtain ⟨hd, rfl⟩ := List.getElem?_eq_some_iff.1 hx
      rw [← List.drop_eq_getElem_cons hd, List.take_append_drop]
    · intro op hop
      obtain ⟨m, hm⟩ := List.mem_iff_getElem?.1 hop
      rw [List.getElem?_take] at hm
      split at hm
      · next hlt =>
        rw [List.getElem?_drop] at hm
        exact hskip (n + m) op (by omega) (by omega) hm
      · cases hm

/-- A row that begins right at a slot. -/
theorem led_of_slot {n : Nat} (hn : ops[n]? = some x) (hrest : Led skip xs (ops.drop (n + 1))) :
    Led skip (x :: xs) (ops.drop n) :=
  led_drop_iff.2 ⟨n, Nat.le_refl n, hn, fun _ _ hle hlt => absurd hlt (Nat.not_lt.2 hle), hrest⟩

/-- What is filtered out of a list can be skipped in it. -/
theorem Led.of_filter {p : Operation → Bool} (h : Led skip xs (ops.filter p)) :
    Led (fun op => p op = false ∨ skip op) xs ops := by
  induction xs generalizing ops with
  | nil => trivial
  | cons x xs ih =>
    obtain ⟨between, after, hops, hskip, hrest⟩ := h
    obtain ⟨front, back, rfl, hfront, hback⟩ := List.filter_eq_append_iff.1 hops
    obtain ⟨gap, tail, rfl, hgap, hx, htail⟩ := List.filter_eq_cons_iff.1 hback
    refine ⟨front ++ gap, tail, by simp, ?_, ih (htail ▸ hrest)⟩
    intro op hop
    rcases List.mem_append.1 hop with hop | hop
    · by_cases hp : p op = true
      · exact .inr (hskip op (hfront ▸ List.mem_filter.2 ⟨hop, hp⟩))
      · exact .inl (by simpa using hp)
    · exact .inl (by simpa using hgap op hop)

theorem Led.mem (h : Led skip xs ops) : ∀ op ∈ xs, op ∈ ops := by
  induction xs generalizing ops with
  | nil => simp
  | cons x xs ih =>
    obtain ⟨between, after, rfl, -, hrest⟩ := h
    intro op hop
    rcases List.mem_cons.1 hop with rfl | hop
    · simp
    · simp [ih hrest op hop]

/-- A row among the operations that a filter leaves is one in the whole list but for the others. -/
theorem InRow.of_filter {p : Operation → Bool} {a b : Qubit} (h : InRow a b xs (ops.filter p)) :
    ∃ n, Led (fun op => p op = false ∨ ApartFrom a b op) xs (ops.drop n) := by
  obtain ⟨before, after, hops, hled⟩ := h
  obtain ⟨front, back, rfl, -, rfl⟩ := List.filter_eq_append_iff.1 hops
  exact ⟨front.length, by rw [List.drop_left]; exact hled.of_filter⟩

theorem InRow.mem {a b : Qubit} (h : InRow a b xs ops) : ∀ op ∈ xs, op ∈ ops := by
  obtain ⟨before, after, rfl, hled⟩ := h
  exact fun op hop => List.mem_append_right before (hled.mem op hop)

theorem inRow_iff_drop {a b : Qubit} :
    InRow a b xs ops ↔ ∃ n, Led (ApartFrom a b) xs (ops.drop n) := by
  constructor
  · rintro ⟨before, after, rfl, hled⟩
    exact ⟨before.length, by rwa [List.drop_left]⟩
  · rintro ⟨n, hled⟩
    exact ⟨ops.take n, ops.drop n, (List.take_append_drop n ops).symm, hled⟩

end rows

/-! ## Neighbours on a lane -/

namespace Lanes

/-- On the lane of a qubit slot `i` stands right above slot `j`. -/
def Above (l : Lanes) (q : Qubit) (i j : Nat) : Prop := ∃ below, i :: j :: below <:+ l.stack q

variable {l l' : Lanes} {q : Qubit} {i j k : Nat}

theorem Above.mem_left (h : l.Above q i j) : i ∈ l.stack q := by
  obtain ⟨below, hsuffix⟩ := h
  exact hsuffix.subset List.mem_cons_self

theorem Above.mem_right (h : l.Above q i j) : j ∈ l.stack q := by
  obtain ⟨below, hsuffix⟩ := h
  exact hsuffix.subset (by simp)

theorem Above.lt (h : l.Above q i j) (hsorted : (l.stack q).Pairwise (· > ·)) : j < i := by
  obtain ⟨below, hsuffix⟩ := h
  exact (List.pairwise_cons.1 (hsorted.sublist hsuffix.sublist)).1 j List.mem_cons_self

/-- What is one above the other on a lane is so on one with more slots on top. -/
theorem Above.of_suffix (h : l'.Above q i j) (hsuffix : l'.stack q <:+ l.stack q) :
    l.Above q i j := by
  obtain ⟨below, hbelow⟩ := h
  exact ⟨below, hbelow.trans hsuffix⟩

/-- Only the top of a lane can be above the slot that was on top before it. -/
theorem Above.of_cons (h : l'.Above q i j) (hcons : l'.stack q = k :: l.stack q) :
    (i = k ∧ l.top? q = some j) ∨ l.Above q i j := by
  obtain ⟨below, hsuffix⟩ := h
  rw [hcons, List.suffix_cons_iff] at hsuffix
  rcases hsuffix with heq | hold
  · obtain ⟨rfl, hstack⟩ := List.cons.inj heq
    exact .inl ⟨rfl, by rw [top?, ← hstack]; rfl⟩
  · exact .inr ⟨below, hold⟩

theorem above_of_top (htop : l.top? q = some i) (hsecond : l.second? q = some j) :
    l.Above q i j := by
  obtain ⟨below, hstack⟩ := stack_eq_of_second? htop hsecond
  exact ⟨below, hstack ▸ List.suffix_rfl⟩

/-- A slot is on a lane once. -/
theorem not_mem_tail_of_top (hsorted : (l.stack q).Pairwise (· > ·)) (htop : l.top? q = some i) :
    i ∉ (l.stack q).tail := by
  intro hin
  rw [← List.cons_head?_tail htop] at hsorted
  exact Nat.lt_irrefl i ((List.pairwise_cons.1 hsorted).1 i hin)

/-- Nothing is above the last slot of a lane. -/
theorem Above.ne_top (h : l.Above q i j) (hsorted : (l.stack q).Pairwise (· > ·))
    (htop : l.top? q = some k) : j ≠ k := by
  rintro rfl
  have hlt := h.lt hsorted
  have hmem := h.mem_left
  rw [← List.cons_head?_tail htop] at hmem hsorted
  rcases List.mem_cons.1 hmem with rfl | hmem
  · exact Nat.lt_irrefl _ hlt
  · exact Nat.lt_asymm hlt ((List.pairwise_cons.1 hsorted).1 i hmem)

/-- The slot below the last one of a lane is the second one. -/
theorem Above.second? (h : l.Above q i j) (hsorted : (l.stack q).Pairwise (· > ·))
    (htop : l.top? q = some i) : l.second? q = some j := by
  obtain ⟨below, hsuffix⟩ := h
  rw [← List.cons_head?_tail htop] at hsuffix hsorted
  rcases List.suffix_cons_iff.1 hsuffix with heq | hold
  · rw [Lanes.second?, ← (List.cons.inj heq).2]
    rfl
  · have hmem := hold.subset List.mem_cons_self
    exact absurd ((List.pairwise_cons.1 hsorted).1 i hmem) (Nat.lt_irrefl i)

/-- Of two slots on a lane with none between them the later one is right above the other. -/
theorem above_of_mem (hsorted : (l.stack q).Pairwise (· > ·)) (hi : i ∈ l.stack q)
    (hj : j ∈ l.stack q) (hji : j < i) (hmid : ∀ m ∈ l.stack q, ¬ (j < m ∧ m < i)) :
    l.Above q i j := by
  obtain ⟨above, rest, hstack⟩ := List.append_of_mem hi
  rw [hstack] at hsorted hj hmid
  obtain ⟨-, hrest, habove⟩ := List.pairwise_append.1 hsorted
  obtain ⟨hlow, hrest'⟩ := List.pairwise_cons.1 hrest
  cases rest with
  | nil =>
    rcases List.mem_append.1 hj with hj | hj
    · exact absurd (habove j hj i List.mem_cons_self) (by omega)
    · rw [List.mem_singleton.1 hj] at hji
      exact absurd hji (Nat.lt_irrefl i)
  | cons m below =>
    have hm : m = j := by
      have hmi := hlow m List.mem_cons_self
      have hnot := hmid m (by simp)
      rcases List.mem_append.1 hj with hj | hj
      · exact absurd (habove j hj i List.mem_cons_self) (by omega)
      · rcases List.mem_cons.1 hj with rfl | hj
        · exact absurd hji (Nat.lt_irrefl j)
        · rcases List.mem_cons.1 hj with rfl | hj
          · rfl
          · have := (List.pairwise_cons.1 hrest').1 j hj
            omega
    subst hm
    exact ⟨below, hstack ▸ List.suffix_append above _⟩

/-! ## Changes of the lanes -/

theorem not_mem_forCircuit (c : Circuit) : i ∉ (forCircuit c).stack q := by
  rw [show (forCircuit c).stack q = [] from stack_ofCount _ q]
  exact List.not_mem_nil

theorem pop_suffix (l : Lanes) (a q : Qubit) : (l.pop a).stack q <:+ l.stack q := by
  rw [stack_pop]
  split
  · next hq => exact hq ▸ List.tail_suffix _
  · exact List.suffix_rfl

section push
variable {op : Operation}

theorem mem_pushAll (h : i ∈ (l.pushAll op.qubits.toList k).stack q) :
    (i = k ∧ op.actsOn q = true) ∨ i ∈ l.stack q := by
  rw [stack_pushAll_qubits] at h
  split at h
  · next hq => exact (List.mem_cons.1 h).imp_left fun hik => ⟨hik, hq⟩
  · exact .inr h

/-- What is above another slot is the one put on the lanes last, or was above it before. -/
theorem Above.of_pushAll (h : (l.pushAll op.qubits.toList k).Above q i j) :
    (i = k ∧ op.actsOn q = true ∧ l.top? q = some j) ∨ l.Above q i j := by
  have hstack := l.stack_pushAll_qubits op k q
  by_cases hq : op.actsOn q = true
  · rw [if_pos hq] at hstack
    exact (h.of_cons hstack).imp_left fun hk => ⟨hk.1, hq, hk.2⟩
  · rw [if_neg hq] at hstack
    exact .inr (h.of_suffix (hstack ▸ List.suffix_rfl))

end push

end Lanes
end QuantumCircuit
