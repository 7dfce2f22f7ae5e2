import QuantumCircuit.Proofs.Reset.Relabel
import QuantumCircuit.Proofs.Schedule.Extension

/-! The canonical order is a normal form: it depends on the lanes alone, not on the numbers
of the slots. Operations in any order that respects the lanes are brought into the same
order, and so are two programs that differ by an exchange of neighbours without a common
wire. -/
namespace QuantumCircuit

/-! ## The number of lanes -/

namespace Circuit

theorem maxQubit?_right_comm (a b c : Option Qubit) :
    maxQubit? (maxQubit? a b) c = maxQubit? (maxQubit? a c) b := by
  have hext : ∀ x y : Qubit, x.index = y.index → x = y := fun x y h =>
    Ranked.rank_injective (show rank x = rank y from h)
  cases a <;> cases b <;> cases c <;> grind [maxQubit?]

instance : RightCommutative maxQubit? := ⟨maxQubit?_right_comm⟩

/-- The highest qubit does not depend on the order of the operations. -/
theorem maxPhysical?_of_perm {c : Circuit} {ops : List Operation} (h : ops.Perm c.ops) :
    ({ c with ops := ops } : Circuit).maxPhysical? = c.maxPhysical? :=
  (h.map _).foldl_eq _

end Circuit

namespace Lanes

theorem count_push {l : Lanes} {q : Qubit} (h : q.index < l.count) (slot : Nat) :
    (l.push q slot).count = l.count := by
  simp only [count, push, grow, List.length_modify, List.length_append, List.length_replicate] at *
  omega

theorem count_pushAll {l : Lanes} {qs : List Qubit} (h : ∀ q ∈ qs, q.index < l.count)
    (slot : Nat) : (l.pushAll qs slot).count = l.count := by
  induction qs generalizing l with
  | nil => rfl
  | cons q rest ih =>
    have hq := count_push (h q List.mem_cons_self) slot
    have hrest := ih (l := l.push q slot) fun r hr => by
      rw [hq]
      exact h r (List.mem_cons_of_mem _ hr)
    exact hrest.trans hq

theorem check_of_add {l l' : Lanes} {slot : Nat} {op : Operation} {pass : String}
    (h : l.add slot op pass = .ok l') :
    op.check pass = .ok () ∧ l' = l.pushAll op.qubits.toList slot := by
  rw [add] at h
  split at h
  · next hcheck => exact ⟨hcheck, (Except.ok.inj h).symm⟩
  · cases h

/-- Lanes that are built from operations that pass the check have the number they start
with, if there is one for each qubit. -/
theorem addFrom_eq_ok {pass : String} {ops : List Operation} {k : Nat} {l l' : Lanes}
    (h : addFrom pass k ops l = .ok l')
    (hcount : ∀ op ∈ ops, ∀ q, op.actsOn q = true → q.index < l.count) :
    l'.count = l.count ∧ ∀ op ∈ ops, op.check pass = .ok () := by
  induction ops generalizing k l with
  | nil =>
    cases h
    exact ⟨rfl, by simp⟩
  | cons op rest ih =>
    rw [addFrom] at h
    split at h
    · next l₁ hadd =>
      obtain ⟨hcheck, rfl⟩ := check_of_add hadd
      have hsame : (l.pushAll op.qubits.toList k).count = l.count :=
        count_pushAll (fun q hq => hcount op List.mem_cons_self q (Operation.mem_qubits.1 hq)) k
      obtain ⟨hrest, hchecks⟩ := ih h fun o ho q hq => by
        rw [hsame]
        exact hcount o (List.mem_cons_of_mem _ ho) q hq
      exact ⟨hrest.trans hsame, List.forall_mem_cons.2 ⟨hcheck, hchecks⟩⟩
    · cases h

theorem lt_count_forCircuit {c : Circuit} {op : Operation} {q : Qubit} (hop : op ∈ c.ops)
    (hq : op.actsOn q = true) : q.index < (forCircuit c).count := by
  have hle : Circuit.AtLeast q c.maxPhysical? :=
    Circuit.atLeast_foldl_maxQubit?.2 (.inr ⟨_, List.mem_map_of_mem hop,
      OrderedSet.le_max? (Operation.mem_qubits.2 hq)⟩)
  obtain ⟨m, hm, hqm⟩ := hle
  rw [forCircuit, hm]
  simp only [count, ofCount, List.length_replicate]
  omega

theorem build_eq_ok {c : Circuit} {pass : String} {l : Lanes} (h : build c pass = .ok l) :
    l.count = (forCircuit c).count ∧ ∀ op ∈ c.ops, op.check pass = .ok () :=
  addFrom_eq_ok h fun _ hop _ hq => lt_count_forCircuit hop hq

/-- With the operations in another order the lanes can be built as well, and there are
as many. -/
theorem build_of_perm {c : Circuit} {pass : String} {l : Lanes} {ops : List Operation}
    (h : build c pass = .ok l) (hperm : ops.Perm c.ops) :
    ∃ l', build { c with ops := ops } pass = .ok l' ∧ l'.count = l.count := by
  obtain ⟨hcount, hchecks⟩ := build_eq_ok h
  obtain ⟨l', hl'⟩ := addFrom_of_check pass (fun op hop => hchecks op (hperm.mem_iff.1 hop)) 0
    (forCircuit { c with ops := ops })
  refine ⟨l', hl', ?_⟩
  rw [(build_eq_ok (c := { c with ops := ops }) hl').1, hcount, forCircuit, forCircuit,
    Circuit.maxPhysical?_of_perm hperm]

theorem count_foldl_pop (qs : List Qubit) (l : Lanes) : (qs.foldl pop l).count = l.count := by
  induction qs generalizing l with
  | nil => rfl
  | cons q rest ih =>
    rw [List.foldl_cons, ih]
    simp [count, pop]

end Lanes

/-! ## Renamed slots -/

namespace Schedule
variable {ops : List Operation} {s s' : Schedule} {slot i : Nat} {f : Footprint} {ρ : Nat → Nat}
  {fs fs' : List Footprint}

/-- The same schedule with other numbers for the slots. -/
structure Renames (ρ : Nat → Nat) (s s' : Schedule) : Prop where
  queue : ∀ w, s'.queue w = (s.queue w).map ρ
  emitted : s'.emitted = s.emitted.map ρ
  count : s'.qubitLanes.count = s.qubitLanes.count

namespace Renames

theorem head (h : Renames ρ s s') (w : Wire) : (s'.queue w).head? = (s.queue w).head?.map ρ := by
  rw [h.queue, List.head?_map]

theorem isReady (h : Renames ρ s s') (hρ : ρ.Injective) :
    s'.isReady (ρ slot) f = s.isReady slot f := by
  rw [Bool.eq_iff_iff, isReady_iff, isReady_iff]
  refine forall_congr' fun w => imp_congr_right fun _ => ?_
  rw [h.head, Option.map_eq_some_iff]
  constructor
  · rintro ⟨i, hi, hslot⟩
    rw [hi, hρ hslot]
  · exact fun hslot => ⟨slot, hslot, rfl⟩

theorem emit (h : Renames ρ s s') (hf : f.Distinct) :
    Renames ρ (s.emit slot f) (s'.emit (ρ slot) f) where
  queue w := by
    rw [queue_emit hf, queue_emit hf, h.queue]
    split
    · rw [List.map_tail]
    · rfl
  emitted := by
    show ρ slot :: s'.emitted = _
    rw [h.emitted]
    rfl
  count := by
    show (f.qubits.foldl Lanes.pop s'.qubitLanes).count =
      (f.qubits.foldl Lanes.pop s.qubitLanes).count
    rw [Lanes.count_foldl_pop, Lanes.count_foldl_pop, h.count]

section footprints
variable (hρ : ρ.Injective) (hfoot : ∀ i, fs'.getD (ρ i) default = fs.getD i default)
  (hdistinct : ∀ i, (fs.getD i default).Distinct)
include hρ hfoot hdistinct

theorem visit (h : Renames ρ s s') (q : Qubit) : Renames ρ (visit fs s q) (visit fs' s' q) := by
  have htop : s'.qubitLanes.top? q = (s.qubitLanes.top? q).map ρ := h.head (.qubit q)
  rw [Schedule.visit, Schedule.visit, htop]
  cases s.qubitLanes.top? q with
  | none => exact h
  | some slot =>
    simp only [Option.map_some, hfoot, h.isReady hρ]
    split
    · exact h.emit (hdistinct slot)
    · exact h

theorem sweep (h : Renames ρ s s') : Renames ρ (sweep fs s) (sweep fs' s') := by
  rw [Schedule.sweep, Schedule.sweep, h.count]
  generalize (List.range s.qubitLanes.count).reverse = qs
  induction qs generalizing s s' with
  | nil => exact h
  | cons j rest ih => exact ih (h.visit hρ hfoot hdistinct ⟨j⟩)

omit hρ hfoot hdistinct in
theorem isDone (h : Renames ρ s s') : s'.isDone = s.isDone := by
  have hstack : ∀ q, s'.qubitLanes.stack q = (s.qubitLanes.stack q).map ρ :=
    fun q => h.queue (.qubit q)
  rw [Schedule.isDone, Schedule.isDone, Bool.eq_iff_iff, Lanes.all_isEmpty_iff,
    Lanes.all_isEmpty_iff]
  simp only [hstack, List.map_eq_nil_iff]

theorem finish (h : Renames ρ s s') (n : Nat) : Renames ρ (finish fs n s) (finish fs' n s') := by
  induction n generalizing s s' with
  | zero => exact h
  | succ n ih =>
    rw [Schedule.finish, Schedule.finish, h.isDone]
    split
    · exact h
    · exact ih (h.sweep hρ hfoot hdistinct)

end footprints
end Renames

/-! ## Places in a linear extension -/

/-- The operations in the order of the given slots. -/
def inOrder (ops : List Operation) (order : List Nat) : List Operation :=
  order.filterMap (ops[·]?)

/-- Where a slot stands in the given order. -/
def place (order : List Nat) (i : Nat) : Nat := if i ∈ order then order.idxOf i else i

namespace LinearExtension
variable {order : List Nat}

theorem nodup (h : LinearExtension ops order) : order.Nodup := h.perm.nodup_iff.2 List.nodup_range

theorem length_eq (h : LinearExtension ops order) : order.length = ops.length := by
  rw [h.perm.length_eq, List.length_range]

theorem mem_iff (h : LinearExtension ops order) : i ∈ order ↔ i < ops.length := by
  rw [h.perm.mem_iff, List.mem_range]

theorem inOrder_perm (h : LinearExtension ops order) : (inOrder ops order).Perm ops := by
  have hperm := h.perm.filterMap (ops[·]?)
  rwa [filterMap_range] at hperm

theorem place_injective (h : LinearExtension ops order) : (place order).Injective := by
  intro i j hij
  rw [place, place] at hij
  have hlt : ∀ {k}, k ∈ order → order.idxOf k < ops.length := fun hk => by
    rw [← h.length_eq]
    exact List.idxOf_lt_length_of_mem hk
  split at hij
  · next hi =>
    split at hij
    · exact (List.idxOf_inj hi).1 hij
    · next hj =>
      have := hlt hi
      rw [h.mem_iff] at hj
      omega
  · next hi =>
    split at hij
    · next hj =>
      have := hlt hj
      rw [h.mem_iff] at hi
      omega
    · exact hij

theorem map_place (h : LinearExtension ops order) :
    order.map (place order) = List.range ops.length := by
  refine List.ext_getElem (by simp [h.length_eq]) fun j hj _ => ?_
  rw [List.length_map] at hj
  rw [List.getElem_map, List.getElem_range, place, if_pos (List.getElem_mem hj),
    h.nodup.idxOf_getElem]

theorem getElem?_place (h : LinearExtension ops order) (i : Nat) :
    (inOrder ops order)[place order i]? = ops[i]? := by
  have hmap : inOrder ops order = order.map fun i => ops.getD i default := by
    rw [inOrder, ← List.filterMap_eq_map]
    refine List.filterMap_congr fun j hj => ?_
    have hlt := h.mem_iff.1 hj
    simp [hlt]
  rw [place]
  split
  · next hi =>
    have hlt := h.mem_iff.1 hi
    rw [hmap, List.getElem?_map, List.getElem?_idxOf hi]
    simp [hlt]
  · next hi =>
    rw [h.mem_iff, Nat.not_lt] at hi
    rw [List.getElem?_eq_none hi, List.getElem?_eq_none (by rwa [h.inOrder_perm.length_eq])]

theorem slotHas_place (h : LinearExtension ops order) (p : Operation → Bool) (i : Nat) :
    slotHas (inOrder ops order) p (place order i) = slotHas ops p i := by
  rw [slotHas, h.getElem?_place, slotHas]

/-- A lane of the operations in the new order is the lane they had, under new numbers. -/
theorem slotsWhere_inOrder (h : LinearExtension ops order) {p : Operation → Bool}
    (hsorted : (order.filter (slotHas ops p)).Pairwise (· < ·)) :
    slotsWhere p (inOrder ops order) = (slotsWhere p ops).map (place order) := by
  have hplace : slotHas (inOrder ops order) p ∘ place order = slotHas ops p :=
    funext (h.slotHas_place p)
  rw [slotsWhere, h.inOrder_perm.length_eq, ← h.map_place, List.filter_map, hplace,
    h.filter_eq hsorted]

theorem footprint_place (h : LinearExtension ops order) (i : Nat) :
    ((inOrder ops order).map Operation.footprint).getD (place order i) default =
      (ops.map Operation.footprint).getD i default := by
  rw [List.getD_eq_getElem?_getD, List.getD_eq_getElem?_getD, List.getElem?_map, List.getElem?_map,
    h.getElem?_place]

/-- Operations in an order that respects the lanes are emitted in the same order as
before. -/
theorem order_inOrder {c : Circuit} {lanes lanes' : Lanes} {pass : String}
    (h : LinearExtension c.ops order) (hbuild : Lanes.build c pass = .ok lanes)
    (hbuild' : Lanes.build { c with ops := inOrder c.ops order } pass = .ok lanes')
    (hcount : lanes'.count = lanes.count) :
    Schedule.order lanes' (inOrder c.ops order) =
      (Schedule.order lanes c.ops).map (place order) := by
  have hstart : Renames (place order) (start lanes (c.ops.map Operation.footprint))
      (start lanes' ((inOrder c.ops order).map Operation.footprint)) := by
    refine ⟨fun w => ?_, rfl, ?_⟩
    · have hqueue := queue_start hbuild' w
      dsimp only at hqueue
      rw [hqueue, queue_start hbuild, h.slotsWhere_inOrder (h.wires w)]
    · simpa [start, Lanes.count] using hcount
  have hdistinct : ∀ i, ((c.ops.map Operation.footprint).getD i default).Distinct := by
    intro i
    rw [List.getD_eq_getElem?_getD, List.getElem?_map]
    cases c.ops[i]? with
    | none => exact ⟨List.nodup_nil, List.nodup_nil⟩
    | some op => exact Footprint.distinct_footprint op
  have hfinish := hstart.finish h.place_injective h.footprint_place hdistinct c.ops.length
  rw [Schedule.order, Schedule.order, h.inOrder_perm.length_eq, hfinish.emitted, List.map_reverse]

end LinearExtension
end Schedule

/-! ## The normal form -/

namespace Circuit
open Schedule

/-- All orders that respect the lanes have the same canonical order. -/
theorem reorder_inOrder {c out : Circuit} {order : List Nat} (hext : LinearExtension c.ops order)
    (h : c.reorder = .done out) :
    ({ c with ops := inOrder c.ops order } : Circuit).reorder = .done out := by
  obtain ⟨lanes, hlanes⟩ := build_of_reorder h
  obtain ⟨lanes', hlanes', hcount⟩ := Lanes.build_of_perm hlanes hext.inOrder_perm
  have hslots : ({ c with ops := inOrder c.ops order } : Circuit).canonicalSlots lanes' =
      (c.canonicalSlots lanes).map (place order) := by
    rw [canonicalSlots, canonicalSlots, hext.order_inOrder hlanes hlanes' hcount,
      hext.slotsWhere_inOrder hext.idle, List.map_append]
  have hops : ((c.canonicalSlots lanes).map (place order)).filterMap
      ((inOrder c.ops order)[·]?) = (c.canonicalSlots lanes).filterMap (c.ops[·]?) := by
    rw [List.filterMap_map]
    exact List.filterMap_congr fun i _ => hext.getElem?_place i
  rw [reorder_of_build hlanes] at h
  rw [reorder_of_build hlanes', hslots]
  dsimp only
  rw [hops]
  exact h

section exchange
variable {before after : List Operation} {a b : Operation}

/-- The slots with two neighbours exchanged, the first of which stands at `k`. -/
def exchanged (k m : Nat) : List Nat := List.range k ++ [k + 1, k] ++ List.range' (k + 2) m

theorem range_eq_append (before after : List Operation) (a b : Operation) :
    List.range (before ++ a :: b :: after).length = List.range before.length ++
      [before.length, before.length + 1] ++ List.range' (before.length + 2) after.length := by
  have hlength : (before ++ a :: b :: after).length = before.length + 2 + after.length := by
    simp
    omega
  rw [hlength, List.range_add, List.range'_eq_map_range, List.range_succ, List.range_succ,
    List.append_assoc (List.range before.length)]
  rfl

/-- A property that only one of the two neighbours has picks out the same slots. -/
theorem filter_exchanged {p : Operation → Bool} (h : ¬ (p a = true ∧ p b = true)) :
    (exchanged before.length after.length).filter (slotHas (before ++ a :: b :: after) p) =
      slotsWhere p (before ++ a :: b :: after) := by
  have ha : slotHas (before ++ a :: b :: after) p before.length = p a :=
    slotHas_of_getElem? (by simp)
  have hb : slotHas (before ++ a :: b :: after) p (before.length + 1) = p b :=
    slotHas_of_getElem? (by simp)
  rw [slotsWhere, range_eq_append, exchanged]
  simp only [List.filter_append, List.filter_cons, ha, hb, List.filter_nil]
  cases hpa : p a <;> cases hpb : p b <;> simp_all

theorem inOrder_exchanged :
    inOrder (before ++ a :: b :: after) (exchanged before.length after.length) =
      before ++ b :: a :: after := by
  have hfront :
      (List.range before.length).filterMap ((before ++ a :: b :: after)[·]?) = before := by
    conv_rhs => rw [← filterMap_range before]
    exact List.filterMap_congr fun i hi => List.getElem?_append_left (List.mem_range.1 hi)
  have hall := filterMap_range (before ++ a :: b :: after)
  rw [range_eq_append] at hall
  simp only [List.filterMap_append, hfront] at hall
  have hback : (List.range' (before.length + 2) after.length).filterMap
      ((before ++ a :: b :: after)[·]?) = after := by
    simpa using hall
  simp only [inOrder, exchanged, List.filterMap_append, hfront, hback]
  simp

theorem linearExtension_exchanged (before after : List Operation)
    (hwires : ∀ w, ¬ (a.isOn w = true ∧ b.isOn w = true))
    (huses : a.usesQubits = true ∨ b.usesQubits = true) :
    LinearExtension (before ++ a :: b :: after) (exchanged before.length after.length) where
  perm := by
    rw [range_eq_append, exchanged]
    exact ((List.Perm.swap _ _ _).append_left _).append_right _
  wires w := by
    rw [filter_exchanged (hwires w)]
    exact sorted_slotsWhere _ _
  idle := by
    rw [filter_exchanged (by rcases huses with h | h <;> simp [h])]
    exact sorted_slotsWhere _ _

end exchange

/-- The canonical order is a normal form. Putting a circuit in canonical order into
canonical order changes nothing, and neighbours that have no qubit and no classical bit in
common, and are not both without qubits, may be exchanged before. -/
theorem reorder_normal_form {c out : Circuit} (h : c.reorder = .done out) :
    out.reorder = .done out ∧
      ∀ before a b after, c.ops = before ++ a :: b :: after →
        (∀ q, ¬ (a.actsOn q = true ∧ b.actsOn q = true)) →
        (∀ x, ¬ (x ∈ a.bitsTouched ∧ x ∈ b.bitsTouched)) →
        (a.usesQubits = true ∨ b.usesQubits = true) →
        ({ c with ops := before ++ b :: a :: after } : Circuit).reorder = .done out := by
  constructor
  · obtain ⟨lanes, hlanes⟩ := build_of_reorder h
    have hout := reorder_inOrder (linearExtension_canonicalSlots hlanes) h
    rw [reorder_of_build hlanes] at h
    rwa [← Outcome.done.inj h] at hout ⊢
  · intro before a b after hops hqubits hbits huses
    have hwires : ∀ w, ¬ (a.isOn w = true ∧ b.isOn w = true) := by
      rintro (q | x) ⟨ha, hb⟩
      · exact hqubits q ⟨ha, hb⟩
      · simp only [Operation.isOn, Bool.and_eq_true, decide_eq_true_eq] at ha hb
        exact hbits x ⟨ha.2, hb.2⟩
    have hext := linearExtension_exchanged before after hwires huses
    rw [← hops] at hext
    have hout := reorder_inOrder hext h
    rwa [hops, inOrder_exchanged] at hout

theorem reorder_waitingGate_exchanged :
    waitingGateInOrder.reorder = .done waitingGateInOrder ∧
      ({ waitingGate with
          ops := [.effect { kind := .barrier, targets := [] },
            .effect { kind := .measure, targets := [⟨0⟩], clbits := [⟨0⟩] },
            .gate (.ofKind .h [⟨2⟩]),
            .conditional ⟨.single ⟨0⟩, 1⟩ (.gate (.ofKind .x [⟨1⟩]))] } : Circuit).reorder =
        .done waitingGateInOrder := by
  have hreorder : waitingGate.reorder = .done waitingGateInOrder := by decide
  obtain ⟨hidem, hexchange⟩ := reorder_normal_form hreorder
  refine ⟨hidem, hexchange [.effect { kind := .barrier, targets := [] },
    .effect { kind := .measure, targets := [⟨0⟩], clbits := [⟨0⟩] }] _ _ [] rfl ?_ ?_ ?_⟩
  · intro q ⟨hx, hh⟩
    have hx' : q = ⟨1⟩ := by
      simpa [Operation.actsOn, Gate.actsOn, Gate.ofKind, EmptyCollection.emptyCollection,
        OrderedSet.empty] using hx
    subst hx'
    exact absurd hh (by decide)
  · rintro x ⟨-, hh⟩
    cases hh
  · exact .inl rfl

end Circuit
end QuantumCircuit
