import QuantumCircuit.Circuit.Builder
import QuantumCircuit.Proofs.Leaves
import QuantumCircuit.Proofs.Ordered
import QuantumCircuit.Schedule

/-! Registers and words. A register covers its bits whatever their numbers are, but it lists
them only if the word behind them exists; so the bits that an operation uses are those that
it is seen to touch only if its registers fit into words. -/
namespace QuantumCircuit

theorem wordAdd_of_lt {a b : Nat} (h : a + b < wordBound) : wordAdd a b = a + b :=
  Nat.mod_eq_of_lt h

theorem wordAdd_lt (a b : Nat) : wordAdd a b < wordBound :=
  Nat.mod_lt _ (by decide)

theorem wordAdd_le (a b : Nat) : wordAdd a b ≤ a + b := Nat.mod_le _ _

theorem wordAdd_wordAdd (a b c : Nat) : wordAdd (wordAdd a b) c = wordAdd a (b + c) := by
  rw [wordAdd, wordAdd, wordAdd, Nat.mod_add_mod, Nat.add_assoc]

/-- Past the last word a sum is not above its first term. -/
theorem wordAdd_le_left {a b : Nat} (ha : a < wordBound) (hb : b ≤ wordBound)
    (h : wordBound ≤ a + b) : wordAdd a b ≤ a := by
  rw [wordAdd, Nat.mod_eq_sub_mod h, Nat.mod_eq_of_lt (by omega)]
  omega

/-! ## Registers -/

namespace Register
variable {r : Register} {b : Clbit}

/-- The bits that the register covers. -/
def span (r : Register) : List Clbit := (List.range' r.start.index r.size).map Clbit.mk

/-- The number behind the last bit is a word. -/
def FitsWord (r : Register) : Prop := r.start.index + r.size < wordBound

instance (r : Register) : Decidable r.FitsWord := inferInstanceAs (Decidable (_ < _))

theorem mem_map_range' {start count : Nat} :
    b ∈ (List.range' start count).map Clbit.mk ↔ start ≤ b.index ∧ b.index < start + count := by
  simp only [List.mem_map, List.mem_range'_1]
  constructor
  · rintro ⟨i, hi, rfl⟩
    exact hi
  · intro hb
    exact ⟨b.index, hb, rfl⟩

theorem mem_bits : b ∈ r.bits ↔ r.start.index ≤ b.index ∧ b.index < r.stop := by
  rw [bits, mem_map_range']
  omega

/-- A register that fits lists the bits that it covers. -/
theorem bits_of_fitsWord (h : r.FitsWord) : r.bits = r.span := by
  rw [bits, stop, wordAdd_of_lt h, Nat.add_sub_cancel_left]
  rfl

/-- A register of words that does not fit lists no bit at all. -/
theorem bits_of_not_fitsWord (hstart : r.start.index < wordBound) (hsize : r.size < wordBound)
    (h : ¬ r.FitsWord) : r.bits = [] := by
  have hstop : r.stop ≤ r.start.index :=
    wordAdd_le_left hstart (Nat.le_of_lt hsize) (Nat.le_of_not_lt h)
  rw [bits, Nat.sub_eq_zero_of_le hstop]
  rfl

theorem firstFrom?_eq_none_iff {n : Nat} : r.firstFrom? n = none ↔ ∀ b ∈ r.bits, b.index < n := by
  rw [firstFrom?]
  constructor
  · intro h b hb
    obtain ⟨hlow, hhigh⟩ := mem_bits.1 hb
    split at h
    · cases h
    · omega
  · intro h
    rw [if_neg]
    intro hlt
    have hin := h ⟨max r.start.index n⟩ (mem_bits.2 ⟨Nat.le_max_left _ _, hlt⟩)
    exact Nat.not_lt.2 (Nat.le_max_right _ _) hin

end Register

/-! ## Operations -/

/-- How an operation meets classical bits. -/
inductive Access where
  | writes (b : Clbit)
  | reads (r : Register)
deriving DecidableEq, Repr

namespace Access

/-- The bits that are meant. -/
def span : Access → List Clbit
  | writes b => [b]
  | reads r => r.span

/-- The bits that are listed. -/
def bits : Access → List Clbit
  | writes b => [b]
  | reads r => r.bits

end Access

namespace Operation
variable {op : Operation} {b : Clbit}

mutual
/-- What an operation writes and reads, at any depth. -/
def accesses : Operation → List Access
  | .gate _ => []
  | .effect e => e.clbits.map .writes
  | .conditional cond body => .reads cond.register :: accesses body
  | .compound children => accessesOfAll children

def accessesOfAll : List Operation → List Access
  | [] => []
  | op :: rest => op.accesses ++ accessesOfAll rest
end

/-- The bits that an operation writes or reads, at any depth. -/
def bitsUsed (op : Operation) : List Clbit := op.accesses.flatMap Access.span

/-- All registers that an operation reads fit. -/
def RegistersFit (op : Operation) : Prop := ∀ r, .reads r ∈ op.accesses → r.FitsWord

theorem accessesOfAll_eq (ops : List Operation) : accessesOfAll ops = ops.flatMap accesses := by
  induction ops with
  | nil => rfl
  | cons op rest ih => rw [accessesOfAll, ih, List.flatMap_cons]

theorem mem_accessesOfAll {a : Access} {ops : List Operation} :
    a ∈ accessesOfAll ops ↔ ∃ op ∈ ops, a ∈ op.accesses := by
  rw [accessesOfAll_eq, List.mem_flatMap]

theorem mem_accesses_iff_leaf {a : Access} :
    a ∈ op.accesses ↔ ∃ leaf ∈ op.leaves, a ∈ leaf.accesses := by
  induction op using inductionOn with
  | gate g => simp [leaves]
  | effect e => simp [leaves]
  | conditional cond body _ => simp [leaves]
  | compound children ih =>
    simp only [accesses, mem_accessesOfAll, leaves_compound, mem_leavesOfAll]
    constructor
    · rintro ⟨c, hc, h⟩
      obtain ⟨leaf, hleaf, ha⟩ := (ih c hc).1 h
      exact ⟨leaf, ⟨c, hc, hleaf⟩, ha⟩
    · rintro ⟨leaf, ⟨c, hc, hleaf⟩, ha⟩
      exact ⟨c, hc, (ih c hc).2 ⟨leaf, hleaf, ha⟩⟩

theorem mem_bitsUsed_iff_leaf : b ∈ op.bitsUsed ↔ ∃ leaf ∈ op.leaves, b ∈ leaf.bitsUsed := by
  simp only [bitsUsed, List.mem_flatMap]
  constructor
  · rintro ⟨a, ha, hb⟩
    obtain ⟨leaf, hleaf, ha⟩ := mem_accesses_iff_leaf.1 ha
    exact ⟨leaf, hleaf, a, ha, hb⟩
  · rintro ⟨leaf, hleaf, a, ha, hb⟩
    exact ⟨a, mem_accesses_iff_leaf.2 ⟨leaf, hleaf, ha⟩, hb⟩

theorem mem_bitsTouchedByAll {ops : List Operation} :
    b ∈ bitsTouchedByAll ops ↔ ∃ op ∈ ops, b ∈ op.bitsTouched := by
  induction ops with
  | nil => simp [bitsTouchedByAll, EmptyCollection.emptyCollection]
  | cons op rest ih => simp [bitsTouchedByAll, ih, or_comm]

theorem mem_bitsTouched : b ∈ op.bitsTouched ↔ ∃ a ∈ op.accesses, b ∈ a.bits := by
  induction op using inductionOn with
  | gate g => simp [bitsTouched, accesses, EmptyCollection.emptyCollection]
  | effect e => simp [bitsTouched, accesses, Access.bits]
  | conditional cond body ih => simp [bitsTouched, accesses, ih, Access.bits]
  | compound children ih =>
    simp only [bitsTouched, mem_bitsTouchedByAll, accesses, mem_accessesOfAll]
    constructor
    · rintro ⟨c, hc, h⟩
      obtain ⟨a, ha, hb⟩ := (ih c hc).1 h
      exact ⟨a, ⟨c, hc, ha⟩, hb⟩
    · rintro ⟨a, ⟨c, hc, ha⟩, hb⟩
      exact ⟨c, hc, (ih c hc).2 ⟨a, ha, hb⟩⟩

/-- Where the registers fit, the bits that are touched are those that are used. -/
theorem RegistersFit.mem_bitsTouched_iff (h : op.RegistersFit) :
    b ∈ op.bitsTouched ↔ b ∈ op.bitsUsed := by
  rw [mem_bitsTouched, bitsUsed, List.mem_flatMap]
  refine exists_congr fun a => and_congr_right fun ha => ?_
  cases a with
  | writes b' => rfl
  | reads r => rw [Access.bits, Access.span, Register.bits_of_fitsWord (h r ha)]

end Operation
end QuantumCircuit
