import QuantumCircuit.Proofs.Action
import QuantumCircuit.Proofs.Sweep.Neighbours

/-! What a sweep over CNOTs and SWAPs leaves behind. On the lanes no two gates in a row on a pair
of qubits fit a rule, and no three CNOTs alternate; each step of a sweep over single operations
without SWAPs keeps it so. -/
namespace QuantumCircuit
open Operation Sweep

namespace CnotCancellation

variable {ops : List Operation} {s : Sweep} {k i j : Nat} {a b : Qubit} {op : Operation}

theorem pairGate?_of_realizes {g : Gate} {p : PairGate} (h : Realizes g p) :
    pairGate? g = some p := by
  cases p with
  | cnot target control =>
    have hg : g.IsCnot control target := h
    rw [hg]
    rfl
  | swap a b =>
    have hg : g.IsSwap a b := h
    rw [hg]
    rfl

theorem pairGateAt?_of_realizes {g : Gate} {p : PairGate} (hi : s.ops[i]? = some (.gate g))
    (h : Realizes g p) : pairGateAt? s i = some (g, p) := by
  rw [pairGateAt?, hi]
  simp [pairGate?_of_realizes h]

theorem pairGateAt?_set_ne (h : i ≠ j) : pairGateAt? (s.set i op) j = pairGateAt? s j := by
  rw [pairGateAt?, pairGateAt?, Sweep.set, List.getElem?_set_ne h]

/-- On the lanes of two qubits slot `i` stands right above slot `j`. -/
structure Covers (l : Lanes) (a b : Qubit) (i j : Nat) : Prop where
  ne : a ≠ b
  left : l.Above a i j
  right : l.Above b i j

/-! ## What is behind the sweep -/

/-- Behind the sweep no rule fits any more. -/
structure Settled (s : Sweep) : Prop where
  flat : ∀ op ∈ s.ops, op.isCompound = false
  live : ∀ {i : Nat} {q : Qubit}, i ∈ s.lanes.stack q →
    ∃ op, s.ops[i]? = some op ∧ op.actsOn q = true ∧ op.isIdentity = false
  /-- Of two gates in a row on a pair the later one is the reversed CNOT. -/
  pair : ∀ {a b : Qubit} {i j : Nat} {x y : Gate × PairGate}, Covers s.lanes a b i j →
    pairGateAt? s i = some x → pairGateAt? s j = some y →
    ∃ t c, x.2 = .cnot t c ∧ y.2 = .cnot c t
  three : ∀ {a b : Qubit} {i j m : Nat} {x y : Gate × PairGate}, Covers s.lanes a b i j →
    Covers s.lanes a b j m → pairGateAt? s i = some x → pairGateAt? s j = some y →
    pairGateAt? s m = none

namespace Settled

/-- Slots may be taken off the lanes. -/
theorem of_suffix (h : Settled s) {lanes : Lanes}
    (hlanes : ∀ q, lanes.stack q <:+ s.lanes.stack q) : Settled ⟨s.ops, lanes⟩ := by
  have hcovers : ∀ {a b : Qubit} {i j : Nat}, Covers lanes a b i j → Covers s.lanes a b i j :=
    fun hij => ⟨hij.ne, hij.left.of_suffix (hlanes _), hij.right.of_suffix (hlanes _)⟩
  exact ⟨h.flat, fun hi => h.live ((hlanes _).subset hi), fun hij => h.pair (hcovers hij),
    fun hij hjm => h.three (hcovers hij) (hcovers hjm)⟩

theorem flat_set (h : Settled s) (hop : op.isCompound = false) :
    ∀ o ∈ (s.set i op).ops, o.isCompound = false := by
  intro o ho
  rcases List.mem_or_eq_of_mem_set ho with ho | rfl
  · exact h.flat o ho
  · exact hop

/-- A slot on no lane may hold any single operation. -/
theorem set_off (h : Settled s) (hoff : ∀ q, i ∉ s.lanes.stack q) (hop : op.isCompound = false) :
    Settled (s.set i op) := by
  have hne : ∀ {q : Qubit} {j : Nat}, j ∈ s.lanes.stack q → i ≠ j := by
    rintro q j hj rfl
    exact hoff q hj
  refine ⟨h.flat_set hop, ?_, ?_, ?_⟩
  · intro j q hj
    have hget : (s.set i op).ops[j]? = s.ops[j]? := List.getElem?_set_ne (hne hj)
    rw [hget]
    exact h.live hj
  · intro a b j m x y hjm hx hy
    rw [pairGateAt?_set_ne (hne hjm.left.mem_left)] at hx
    rw [pairGateAt?_set_ne (hne hjm.left.mem_right)] at hy
    exact h.pair hjm hx hy
  · intro a b j m n x y hjm hmn hx hy
    rw [pairGateAt?_set_ne (hne hjm.left.mem_left)] at hx
    rw [pairGateAt?_set_ne (hne hjm.left.mem_right)] at hy
    rw [pairGateAt?_set_ne (hne hmn.left.mem_right)]
    exact h.three hjm hmn hx hy

/-- Two gates on no lane may be dropped. -/
theorem discard_off (h : Settled s) {x y : Gate} (hi : s.ops[i]? = some (.gate x))
    (hj : s.ops[j]? = some (.gate y)) (hij : i ≠ j)
    (hoff : ∀ q, i ∉ s.lanes.stack q ∧ j ∉ s.lanes.stack q) :
    Settled ((s.discard i).discard j) := by
  have hj' : (s.set i (.gate (blank x))).ops[j]? = some (.gate y) :=
    (List.getElem?_set_ne hij).trans hj
  rw [discard_eq_set hi, discard_gate, discard_eq_set hj', discard_gate]
  exact (h.set_off (fun q => (hoff q).1) rfl).set_off (fun q => (hoff q).2) rfl

/-- The last gate on the lanes of a pair may become another one if there is no gate of the pair
below it. -/
theorem set_top (h : Settled s) (hsorted : ∀ q, (s.lanes.stack q).Pairwise (· > ·)) {g : Gate}
    (hlanes : ∀ q, i ∈ s.lanes.stack q → g.actsOn q = true ∧ s.lanes.top? q = some i)
    (hkind : g.kind ≠ .i)
    (hbelow : ∀ {a b : Qubit} {j : Nat}, Covers s.lanes a b i j → pairGateAt? s j = none) :
    Settled (s.set i (.gate g)) := by
  -- nothing is above the slot
  have hne : ∀ {a b : Qubit} {j m : Nat}, Covers s.lanes a b j m → i ≠ m := by
    rintro a b j m hjm rfl
    exact hjm.left.ne_top (hsorted a) (hlanes a hjm.left.mem_right).2 rfl
  -- and so a slot with a gate of the pair below it is another one
  have hupper : ∀ {a b : Qubit} {j m : Nat} {y : Gate × PairGate}, Covers s.lanes a b j m →
      pairGateAt? (s.set i (.gate g)) m = some y → i ≠ j ∧ pairGateAt? s m = some y := by
    intro a b j m y hjm hy
    rw [pairGateAt?_set_ne (hne hjm)] at hy
    refine ⟨?_, hy⟩
    rintro rfl
    rw [hbelow hjm] at hy
    cases hy
  refine ⟨h.flat_set rfl, ?_, ?_, ?_⟩
  · intro j q hj
    obtain ⟨op, hop, hacts, hid⟩ := h.live hj
    by_cases hij : i = j
    · subst hij
      have hlt := (List.getElem?_eq_some_iff.1 hop).1
      exact ⟨.gate g, List.getElem?_set_self hlt, (hlanes q hj).1, by simp [isIdentity, hkind]⟩
    · exact ⟨op, (List.getElem?_set_ne hij).trans hop, hacts, hid⟩
  · intro a b j m x y hjm hx hy
    obtain ⟨hij, hy'⟩ := hupper hjm hy
    rw [pairGateAt?_set_ne hij] at hx
    exact h.pair hjm hx hy'
  · intro a b j m n x y hjm hmn hx hy
    obtain ⟨hij, hy'⟩ := hupper hjm hy
    rw [pairGateAt?_set_ne hij] at hx
    rw [pairGateAt?_set_ne (hne hmn)]
    exact h.three hjm hmn hx hy'

/-- The current operation is put on the lanes. A gate of a pair that comes right behind another
one has to be the reversed CNOT, with no third gate below. -/
theorem put (h : Settled s) (hbehind : ∀ {i : Nat} {q : Qubit}, i ∈ s.lanes.stack q → i < k)
    (hk : s.ops[k]? = some op) (hid : op.isIdentity = false)
    (hfits : ∀ {a b : Qubit} {j : Nat} {x y : Gate × PairGate}, a ≠ b → op.actsOn a = true →
      op.actsOn b = true → s.lanes.top? a = some j → s.lanes.top? b = some j →
      pairGateAt? s k = some x → pairGateAt? s j = some y →
      (∃ t c, x.2 = .cnot t c ∧ y.2 = .cnot c t) ∧
        ∀ {m : Nat}, Covers s.lanes a b j m → pairGateAt? s m = none) :
    Settled (s.put k) := by
  rw [put_eq hk]
  -- what is above another slot is the current one, or was above it before
  have habove : ∀ {q : Qubit} {i j : Nat},
      (s.lanes.pushAll op.qubits.toList k).Above q i j →
      (i = k ∧ op.actsOn q = true ∧ s.lanes.top? q = some j) ∨
        (i < k ∧ s.lanes.Above q i j) :=
    fun hij => hij.of_pushAll.imp_right fun hold => ⟨hbehind hold.mem_left, hold⟩
  have hcovers : ∀ {a b : Qubit} {i j : Nat},
      Covers (s.lanes.pushAll op.qubits.toList k) a b i j →
      (i = k ∧ (op.actsOn a = true ∧ op.actsOn b = true) ∧ s.lanes.top? a = some j ∧
        s.lanes.top? b = some j) ∨ Covers s.lanes a b i j := by
    intro a b i j hij
    rcases habove hij.left with ⟨rfl, ha, htopa⟩ | ⟨hlt, ha⟩
    · rcases habove hij.right with ⟨-, hb, htopb⟩ | ⟨hlt, -⟩
      · exact .inl ⟨rfl, ⟨ha, hb⟩, htopa, htopb⟩
      · exact absurd hlt (Nat.lt_irrefl _)
    · rcases habove hij.right with ⟨rfl, -⟩ | ⟨-, hb⟩
      · exact absurd hlt (Nat.lt_irrefl _)
      · exact .inr ⟨hij.ne, ha, hb⟩
  refine ⟨h.flat, ?_, ?_, ?_⟩
  · intro i q hi
    rcases Lanes.mem_pushAll hi with ⟨rfl, hq⟩ | hi
    · exact ⟨op, hk, hq, hid⟩
    · exact h.live hi
  · intro a b i j x y hij hx hy
    rcases hcovers hij with ⟨rfl, ⟨ha, hb⟩, htopa, htopb⟩ | hold
    · exact (hfits hij.ne ha hb htopa htopb hx hy).1
    · exact h.pair hold hx hy
  · intro a b i j m x y hij hjm hx hy
    rcases hcovers hjm with ⟨rfl, -⟩ | hjm'
    · -- the current slot is on top, with nothing above it
      rcases habove hij.left with ⟨-, -, htop⟩ | ⟨-, hold⟩
      · exact absurd (hbehind (List.mem_of_mem_head? htop)) (Nat.lt_irrefl _)
      · exact absurd (hbehind hold.mem_right) (Nat.lt_irrefl _)
    · rcases hcovers hij with ⟨rfl, ⟨ha, hb⟩, htopa, htopb⟩ | hold
      · exact (hfits hij.ne ha hb htopa htopb hx hy).2 hjm'
      · exact h.three hold hjm' hx hy

end Settled

/-! ## One step -/

/-- No rule fits the gate at the current slot. -/
def Free (k : Nat) (s : Sweep) : Prop :=
  ∀ {current earlier : Gate} {now before : PairGate} {prev : Nat},
    pairGateAt? s k = some (current, now) →
    s.lanes.sharedTop? now.first now.second = some prev →
    pairGateAt? s prev = some (earlier, before) →
    ∃ t c, t ≠ c ∧ now = .cnot t c ∧ before = .cnot c t ∧ thirdCnot? s t c = none

theorem step_of_free (h : Free k s) : step k s = s.place passName k := by
  rw [step]
  cases hcur : pairGateAt? s k with
  | none => rfl
  | some e =>
    obtain ⟨current, now⟩ := e
    dsimp only
    cases hshared : s.lanes.sharedTop? now.first now.second with
    | none => rfl
    | some prev =>
      dsimp only
      cases hprev : pairGateAt? s prev with
      | none => rfl
      | some e' =>
        obtain ⟨earlier, before⟩ := e'
        obtain ⟨t, c, hne, rfl, rfl, hthird⟩ := h hcur hshared hprev
        dsimp only
        rw [rewritePair, if_neg fun heq => hne heq.2, hthird]

theorem step_of_pair {current earlier : Gate} {now before : PairGate} {prev : Nat}
    (hcur : pairGateAt? s k = some (current, now))
    (hshared : s.lanes.sharedTop? now.first now.second = some prev)
    (hprev : pairGateAt? s prev = some (earlier, before)) :
    step k s = rewritePair s prev k earlier current before now := by
  simp only [step, hcur, hshared, hprev]

theorem sharedTop?_of_top? {l : Lanes} (ha : l.top? a = some i) (hb : l.top? b = some i) :
    l.sharedTop? a b = some i := by
  rw [Lanes.sharedTop?, ha, hb]
  exact if_pos rfl

theorem sharedSecond?_of_second? {l : Lanes} (ha : l.second? a = some i)
    (hb : l.second? b = some i) : l.sharedSecond? a b = some i := by
  rw [Lanes.sharedSecond?, ha, hb]
  exact if_pos rfl

theorem thirdCnot?_of_second? {g : Gate} {t c : Qubit} (ht : s.lanes.second? t = some i)
    (hc : s.lanes.second? c = some i) (hi : pairGateAt? s i = some (g, .cnot t c)) :
    thirdCnot? s t c = some (i, g) := by
  rw [thirdCnot?, sharedSecond?_of_second? ht hc]
  simp [hi]

/-- What holds of two of the qubits of a pair holds of both. -/
theorem forall_pair {P : Qubit → Prop} {u v : Qubit} (hne : a ≠ b) (ha : a = u ∨ a = v)
    (hb : b = u ∨ b = v) (hPa : P a) (hPb : P b) : P u ∧ P v := by
  rcases ha with rfl | rfl
  · rcases hb with rfl | rfl
    · exact absurd rfl hne
    · exact ⟨hPa, hPb⟩
  · rcases hb with rfl | rfl
    · exact ⟨hPb, hPa⟩
    · exact absurd rfl hne

namespace Settled

/-- A gate that no rule fits is put on the lanes. -/
theorem put_free (h : Settled s) (htidy : Tidy k s) (hk : s.ops[k]? = some op)
    (hid : op.isIdentity = false) (hfree : Free k s) : Settled (s.put k) := by
  refine h.put htidy.below hk hid ?_
  intro a b j x y hne ha hb htopa htopb hx hy
  obtain ⟨current, now⟩ := x
  obtain ⟨earlier, before⟩ := y
  obtain ⟨hcur, hnow⟩ := pairGateAt?_eq_some hx
  cases Option.some.inj (hk.symm.trans hcur)
  have hona := (hnow.actsOn_iff a).1 ha
  have honb := (hnow.actsOn_iff b).1 hb
  obtain ⟨htop, htop'⟩ := forall_pair (P := (s.lanes.top? · = some j)) hne hona honb htopa htopb
  obtain ⟨t, c, -, rfl, rfl, hthird⟩ := hfree hx (sharedTop?_of_top? htop htop') hy
  refine ⟨⟨t, c, rfl, rfl⟩, fun {m} hjm => ?_⟩
  cases hm : pairGateAt? s m with
  | none => rfl
  | some z =>
    -- the gate below would be a third one that alternates with the two
    obtain ⟨g, below⟩ := z
    obtain ⟨t', c', heq, hbelow⟩ := h.pair hjm hy hm
    cases heq
    cases hbelow
    obtain ⟨hsecond, hsecond'⟩ := forall_pair (P := (s.lanes.second? · = some m)) hne hona honb
      (hjm.left.second? (htidy.sorted a) htopa) (hjm.right.second? (htidy.sorted b) htopb)
    have hsome : thirdCnot? s t c = some (m, g) := thirdCnot?_of_second? hsecond hsecond' hm
    rw [hthird] at hsome
    cases hsome

theorem suffix_popBoth (s : Sweep) (a b q : Qubit) :
    (s.popBoth a b).lanes.stack q <:+ s.lanes.stack q :=
  (Lanes.pop_suffix _ b q).trans (Lanes.pop_suffix _ a q)

section adjacent
variable {prev : Nat} {earlier current : Gate}

theorem prev_lt (htidy : Tidy k s) (adj : Adjacent s k prev earlier current a b) : prev < k :=
  htidy.lt_of_top (adj.top a ((adj.currentOn a).2 (.inl rfl)))

/-- The earlier gate stands on the lanes of the pair only, and last. -/
theorem top_of_mem (h : Settled s) (adj : Adjacent s k prev earlier current a b) {q : Qubit}
    (hq : prev ∈ s.lanes.stack q) : (q = a ∨ q = b) ∧ s.lanes.top? q = some prev := by
  obtain ⟨op, hop, hacts, -⟩ := h.live hq
  cases Option.some.inj (adj.atPrev.symm.trans hop)
  have hpair := (adj.earlierOn q).1 hacts
  exact ⟨hpair, adj.top q ((adj.currentOn q).2 hpair)⟩

/-- The two gates are off the lanes once the last slots of the pair are taken. -/
theorem not_mem_popBoth (h : Settled s) (htidy : Tidy k s)
    (adj : Adjacent s k prev earlier current a b) (q : Qubit) :
    prev ∉ (s.popBoth a b).lanes.stack q ∧ k ∉ (s.popBoth a b).lanes.stack q := by
  rw [s.stack_popBoth adj.ne]
  split
  · next hpair =>
    have htop := adj.top q ((adj.currentOn q).2 hpair)
    exact ⟨Lanes.not_mem_tail_of_top (htidy.sorted q) htop,
      fun hin => Nat.lt_irrefl k (htidy.below (List.mem_of_mem_tail hin))⟩
  · next hpair =>
    exact ⟨fun hin => hpair (h.top_of_mem adj hin).1,
      fun hin => Nat.lt_irrefl k (htidy.below hin)⟩

/-- The two gates undo each other. -/
theorem cancel (h : Settled s) (htidy : Tidy k s)
    (adj : Adjacent s k prev earlier current a b) : Settled (cancel s prev k a b) := by
  have hprev := prev_lt htidy adj
  have hpopped : Settled (s.popBoth a b) := h.of_suffix (suffix_popBoth s _ _)
  exact hpopped.discard_off adj.atPrev adj.atSlot (by omega) (h.not_mem_popBoth htidy adj)

/-- Three alternating CNOTs become a SWAP. The gates below it are on no pair with it, because the
first two CNOTs had none below. -/
theorem collapse (h : Settled s) (htidy : Tidy k s) {first : Nat} {g : Gate} {t c : Qubit}
    (adj : Adjacent s k prev earlier current t c) (hold : earlier.IsCnot t c)
    (hthird : thirdCnot? s t c = some (first, g)) :
    Settled (CnotCancellation.cancel (s.set first (.gate (g.becomeSwap t c))) prev k t c) := by
  obtain ⟨hshared, hfirst, hcnot⟩ := thirdCnot?_eq_some hthird
  obtain ⟨hsecond, hsecond'⟩ := Lanes.second?_of_sharedSecond? hshared
  have hprev := prev_lt htidy adj
  have hpopped : Settled (s.popBoth t c) := h.of_suffix (suffix_popBoth s _ _)
  have hearlier := pairGateAt?_of_realizes adj.atPrev (p := .cnot c t) hold
  have hg := pairGateAt?_of_realizes hfirst (p := .cnot t c) hcnot
  -- the first gate is on the two lanes only, right below the second
  have hbelow : ∀ {q : Qubit}, first ∈ (s.popBoth t c).lanes.stack q →
      (q = t ∨ q = c) ∧ s.lanes.Above q prev first ∧
        (s.popBoth t c).lanes.top? q = some first := by
    intro q hq
    obtain ⟨op, hop, hacts, -⟩ := hpopped.live hq
    cases Option.some.inj (hfirst.symm.trans hop)
    have hpair : q = t ∨ q = c := (Gate.IsCnot.actsOn_iff hcnot).1 hacts |>.symm
    have hnext : s.lanes.second? q = some first := by
      rcases hpair with rfl | rfl
      · exact hsecond
      · exact hsecond'
    refine ⟨hpair, Lanes.above_of_top (adj.top q ((adj.currentOn q).2 hpair)) hnext, ?_⟩
    rw [Lanes.top?, s.stack_popBoth adj.ne, if_pos hpair]
    exact hnext
  have hlt : first < prev :=
    (Lanes.above_of_top (adj.top t ((adj.currentOn t).2 (.inl rfl))) hsecond).lt (htidy.sorted t)
  have hset : Settled ((s.popBoth t c).set first (.gate (g.becomeSwap t c))) := by
    refine hpopped.set_top ?_ ?_ (show Kind.swap ≠ .i by decide) ?_
    · exact fun q => (htidy.sorted q).sublist (suffix_popBoth s t c q).sublist
    · intro q hq
      exact ⟨(Gate.actsOn_becomeSwap q).2 (hbelow hq).1, (hbelow hq).2.2⟩
    · intro a b j hcovers
      have hcovers' : Covers s.lanes a b prev first :=
        ⟨hcovers.ne, (hbelow hcovers.left.mem_left).2.1, (hbelow hcovers.right.mem_left).2.1⟩
      exact h.three hcovers' ⟨hcovers.ne, hcovers.left.of_suffix (suffix_popBoth s t c a),
        hcovers.right.of_suffix (suffix_popBoth s t c b)⟩ hearlier hg
  exact hset.discard_off ((List.getElem?_set_ne (by omega)).trans adj.atPrev)
    ((List.getElem?_set_ne (by omega)).trans adj.atSlot) (by omega)
    (h.not_mem_popBoth htidy adj)

/-- A SWAP and a CNOT behind it become two CNOTs. Below a SWAP there is no gate of the pair. -/
theorem split (h : Settled s) (htidy : Tidy k s) {t c u v : Qubit}
    (adj : Adjacent s k prev earlier current t c) (hswap : earlier.IsSwap u v) :
    Settled (((s.set prev (.gate (earlier.becomeCnot c t))).set k
      (.gate (current.becomeCnot t c))).put k) := by
  have hprev := prev_lt htidy adj
  have hnew := earlier.isCnot_becomeCnot c t
  have hnew' := current.isCnot_becomeCnot t c
  have hbelow : ∀ {a b : Qubit} {j : Nat}, Covers s.lanes a b prev j → pairGateAt? s j = none := by
    intro a b j hcovers
    cases hj : pairGateAt? s j with
    | none => rfl
    | some y =>
      have hearlier := pairGateAt?_of_realizes adj.atPrev (p := .swap u v) hswap
      obtain ⟨t', c', heq, -⟩ := h.pair hcovers hearlier hj
      cases heq
  have hset : Settled (s.set prev (.gate (earlier.becomeCnot c t))) := by
    refine h.set_top htidy.sorted ?_ (show Kind.x ≠ .i by decide) hbelow
    intro q hq
    obtain ⟨hpair, htop⟩ := h.top_of_mem adj hq
    exact ⟨hnew.actsOn_iff.2 hpair.symm, htop⟩
  have hplt := (List.getElem?_eq_some_iff.1 adj.atPrev).1
  have hklt := (List.getElem?_eq_some_iff.1 adj.atSlot).1
  have hcurrent : Settled ((s.set prev (.gate (earlier.becomeCnot c t))).set k
      (.gate (current.becomeCnot t c))) :=
    hset.set_off (fun q hin => Nat.lt_irrefl k (htidy.below hin)) rfl
  have hatSlot : ((s.set prev (.gate (earlier.becomeCnot c t))).set k
      (.gate (current.becomeCnot t c))).ops[k]? = some (.gate (current.becomeCnot t c)) :=
    List.getElem?_set_self (by simpa [Sweep.set] using hklt)
  refine hcurrent.put htidy.below hatSlot rfl ?_
  intro a b j x y hne ha hb htopa htopb hx hy
  obtain rfl : j = prev := by
    have hpair := (hnew'.actsOn_iff.1 ha)
    have htop : s.lanes.top? a = some prev := adj.top a ((adj.currentOn a).2 hpair)
    exact Option.some.inj (htopa.symm.trans htop)
  have hatPrev : ((s.set j (.gate (earlier.becomeCnot c t))).set k
      (.gate (current.becomeCnot t c))).ops[j]? = some (.gate (earlier.becomeCnot c t)) :=
    (List.getElem?_set_ne (by omega)).trans (List.getElem?_set_self hplt)
  have hk := pairGateAt?_of_realizes hatSlot (p := .cnot c t) hnew'
  have hj := pairGateAt?_of_realizes hatPrev (p := .cnot t c) hnew
  cases Option.some.inj (hk.symm.trans hx)
  cases Option.some.inj (hj.symm.trans hy)
  refine ⟨⟨c, t, rfl, rfl⟩, fun {m} hjm => ?_⟩
  have hmj : m < j := hjm.left.lt (htidy.sorted a)
  rw [pairGateAt?_set_ne (by omega), pairGateAt?_set_ne (by omega)]
  exact hbelow hjm

end adjacent
end Settled

/-- One step leaves no rule to fit behind it. -/
theorem step_settled (hvalid : ∀ op ∈ ops, op.validate = .ok ())
    (hid : ∀ op ∈ ops, op.isIdentity = false) (hswap : ∀ g, .gate g ∈ ops → g.isSwap = false)
    (hk : k < ops.length) (inv : Inv action ops k s) (h : Settled s) :
    ∃ s', step k s = .ok s' ∧ Inv action ops (k + 1) s' ∧ Settled s' := by
  obtain ⟨s', hs', inv'⟩ := step_spec pairLaws_action hvalid hk inv
  refine ⟨s', hs', inv', ?_⟩
  have hcurrent := inv.getElem?_current hk
  have hmem := List.getElem_mem hk
  by_cases hfree : Free k s
  · have hcheck := check_of_validate passName (hvalid _ hmem)
    rw [step_of_free hfree, place_eq hcurrent hcheck] at hs'
    cases hs'
    exact h.put_free inv.tidy hcurrent (hid _ hmem) hfree
  · simp only [Free, not_forall] at hfree
    obtain ⟨current, earlier, now, before, prev, hcur, hshared, hprev, hno⟩ := hfree
    obtain ⟨hc, hnow⟩ := pairGateAt?_eq_some hcur
    obtain ⟨hp, hbefore⟩ := pairGateAt?_eq_some hprev
    have hne := hnow.ne inv hvalid hc
    have adj := adjacent_of_sharedTop? inv.tidy hc hnow.actsOn_iff hp hbefore.actsOn_iff hshared hne
    have hpairs := inv.tidy.same_pair hp hbefore.actsOn_iff
      (Lanes.top?_of_sharedTop? hshared).1 (Lanes.top?_of_sharedTop? hshared).2 hne
    rw [step_of_pair hcur hshared hprev] at hs'
    cases now with
    | swap a b =>
      -- the current gate is still the one of the circuit
      have hgate : Operation.gate current ∈ ops := by
        rw [← Option.some.inj (hcurrent.symm.trans hc)]
        exact hmem
      have hcurswap : current.isSwap = true := by
        rw [show current = _ from hnow]
        rfl
      rw [hswap current hgate] at hcurswap
      cases hcurswap
    | cnot target control =>
      cases before with
      | swap u v =>
        cases hs'
        exact h.split inv.tidy adj hbefore
      | cnot t c =>
        rw [rewritePair] at hs'
        split at hs'
        · cases hs'
          exact h.cancel inv.tidy adj
        · next hdiff =>
          obtain ⟨rfl, rfl⟩ : t = control ∧ c = target := hpairs.resolve_left hdiff
          cases hthird : thirdCnot? s c t with
          | none => exact absurd ⟨c, t, hne, rfl, rfl, hthird⟩ hno
          | some e =>
            rw [hthird] at hs'
            cases hs'
            exact h.collapse inv.tidy adj hbefore hthird

theorem settled_start {c : Circuit} (hflat : ∀ op ∈ c.ops, op.isCompound = false) :
    Settled ⟨c.ops, .forCircuit c⟩ :=
  ⟨hflat, fun hi => absurd hi (Lanes.not_mem_forCircuit c),
    fun hij => absurd hij.left.mem_left (Lanes.not_mem_forCircuit c),
    fun hij => absurd hij.left.mem_left (Lanes.not_mem_forCircuit c)⟩

end CnotCancellation
end QuantumCircuit
