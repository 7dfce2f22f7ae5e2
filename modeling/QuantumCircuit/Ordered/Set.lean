/-! Finite sets kept as ascending lists. The order comes from a number that
tells the elements apart, so two sets with the same elements are equal. -/
namespace QuantumCircuit

/-- Types whose elements are ordered by a number that tells them apart. -/
class Ranked (α : Type) where
  rank : α → Nat
  rank_injective : ∀ {a b : α}, rank a = rank b → a = b

export Ranked (rank)

/-- Adds `a` to an ascending list, unless it is already there. -/
def insertAscending {α : Type} [Ranked α] (a : α) : List α → List α
  | [] => [a]
  | b :: rest =>
    if rank a < rank b then a :: b :: rest
    else if rank a = rank b then b :: rest
    else b :: insertAscending a rest

theorem mem_insertAscending {α : Type} [Ranked α] {a c : α} {l : List α} :
    c ∈ insertAscending a l ↔ c = a ∨ c ∈ l := by
  induction l with
  | nil => simp [insertAscending]
  | cons b rest ih =>
    unfold insertAscending
    split
    · simp
    · split
      · next h => simp [Ranked.rank_injective h]
      · simp [ih, or_left_comm]

theorem pairwise_insertAscending {α : Type} [Ranked α] {a : α} {l : List α}
    (h : l.Pairwise (rank · < rank ·)) :
    (insertAscending a l).Pairwise (rank · < rank ·) := by
  induction l with
  | nil => simp [insertAscending]
  | cons b rest ih =>
    rw [List.pairwise_cons] at h
    unfold insertAscending
    split
    · next hab =>
      refine List.pairwise_cons.2 ⟨?_, List.pairwise_cons.2 h⟩
      intro c hc
      rcases List.mem_cons.1 hc with rfl | hc
      · exact hab
      · exact Nat.lt_trans hab (h.1 c hc)
    · split
      · exact List.pairwise_cons.2 h
      · refine List.pairwise_cons.2 ⟨?_, ih h.2⟩
        intro c hc
        rcases mem_insertAscending.1 hc with rfl | hc
        · omega
        · exact h.1 c hc

/-- A finite set, listed in ascending order. -/
structure OrderedSet (α : Type) [Ranked α] where
  toList : List α
  ascending : toList.Pairwise (rank · < rank ·)
deriving DecidableEq, Repr

namespace OrderedSet
variable {α β : Type} [Ranked α] [Ranked β]

def empty : OrderedSet α := ⟨[], .nil⟩

instance : EmptyCollection (OrderedSet α) := ⟨empty⟩
instance : Inhabited (OrderedSet α) := ⟨empty⟩
instance : Membership α (OrderedSet α) := ⟨fun s a => a ∈ s.toList⟩

instance [DecidableEq α] (a : α) (s : OrderedSet α) : Decidable (a ∈ s) :=
  inferInstanceAs (Decidable (a ∈ s.toList))

def insert (s : OrderedSet α) (a : α) : OrderedSet α :=
  ⟨insertAscending a s.toList, pairwise_insertAscending s.ascending⟩

def insertMany (s : OrderedSet α) (l : List α) : OrderedSet α :=
  l.foldl insert s

def ofList (l : List α) : OrderedSet α :=
  empty.insertMany l

def union (s t : OrderedSet α) : OrderedSet α :=
  s.insertMany t.toList

def erase [DecidableEq α] (s : OrderedSet α) (a : α) : OrderedSet α :=
  ⟨s.toList.filter (· ≠ a), s.ascending.filter _⟩

/-- The set of images, which may have fewer elements. -/
def map (f : α → β) (s : OrderedSet α) : OrderedSet β :=
  ofList (s.toList.map f)

def isEmpty (s : OrderedSet α) : Bool := s.toList.isEmpty

def size (s : OrderedSet α) : Nat := s.toList.length

def min? (s : OrderedSet α) : Option α := s.toList.head?

def max? (s : OrderedSet α) : Option α := s.toList.getLast?

@[simp] theorem mem_toList {s : OrderedSet α} {a : α} : a ∈ s.toList ↔ a ∈ s := Iff.rfl

@[simp] theorem not_mem_empty {a : α} : ¬ a ∈ (empty : OrderedSet α) := nofun

@[simp] theorem mem_insert {s : OrderedSet α} {a c : α} : c ∈ s.insert a ↔ c = a ∨ c ∈ s :=
  mem_insertAscending

@[simp] theorem mem_insertMany {s : OrderedSet α} {l : List α} {c : α} :
    c ∈ s.insertMany l ↔ c ∈ l ∨ c ∈ s := by
  induction l generalizing s with
  | nil => simp [insertMany]
  | cons a rest ih =>
    have h := @ih (s.insert a)
    rw [mem_insert] at h
    simpa [insertMany, or_assoc, or_left_comm, or_comm] using h

@[simp] theorem mem_ofList {l : List α} {c : α} : c ∈ ofList l ↔ c ∈ l := by
  simp [ofList]

@[simp] theorem mem_union {s t : OrderedSet α} {c : α} : c ∈ s.union t ↔ c ∈ t ∨ c ∈ s := by
  simp [union]

@[simp] theorem mem_erase [DecidableEq α] {s : OrderedSet α} {a c : α} :
    c ∈ s.erase a ↔ c ∈ s ∧ c ≠ a := by
  show c ∈ s.toList.filter (· ≠ a) ↔ _
  simp

theorem nodup (s : OrderedSet α) : s.toList.Nodup :=
  s.ascending.imp fun h heq => by simp [heq] at h

end OrderedSet
end QuantumCircuit
