import QuantumCircuit.Ordered.Set

/-! Finite maps kept as lists of entries with ascending keys. Look-up is the
view: each operation has one lemma that says what it does to `get?`. -/
namespace QuantumCircuit

/-- Sets the value at `k` in a list of entries with ascending keys. -/
def putAscending {κ ν : Type} [Ranked κ] (k : κ) (v : ν) : List (κ × ν) → List (κ × ν)
  | [] => [(k, v)]
  | e :: rest =>
    if rank k < rank e.1 then (k, v) :: e :: rest
    else if rank k = rank e.1 then (k, v) :: rest
    else e :: putAscending k v rest

/-- The value at `k`, if some entry has that key. -/
def findEntry {κ ν : Type} [Ranked κ] (k : κ) : List (κ × ν) → Option ν
  | [] => none
  | e :: rest => if rank k = rank e.1 then some e.2 else findEntry k rest

theorem key_mem_putAscending {κ ν : Type} [Ranked κ] {k : κ} {v : ν} {l : List (κ × ν)}
    {e : κ × ν} (h : e ∈ putAscending k v l) : e.1 = k ∨ e ∈ l := by
  induction l with
  | nil => simp_all [putAscending]
  | cons f rest ih =>
    unfold putAscending at h
    split at h
    · rcases List.mem_cons.1 h with rfl | h
      · exact .inl rfl
      · exact .inr h
    · split at h
      · rcases List.mem_cons.1 h with rfl | h
        · exact .inl rfl
        · exact .inr (List.mem_cons_of_mem _ h)
      · rcases List.mem_cons.1 h with rfl | h
        · exact .inr List.mem_cons_self
        · exact (ih h).imp_right (List.mem_cons_of_mem _)

theorem pairwise_putAscending {κ ν : Type} [Ranked κ] {k : κ} {v : ν} {l : List (κ × ν)}
    (h : l.Pairwise (rank ·.1 < rank ·.1)) :
    (putAscending k v l).Pairwise (rank ·.1 < rank ·.1) := by
  induction l with
  | nil => simp [putAscending]
  | cons e rest ih =>
    rw [List.pairwise_cons] at h
    unfold putAscending
    split
    · next hk =>
      refine List.pairwise_cons.2 ⟨?_, List.pairwise_cons.2 h⟩
      intro f hf
      rcases List.mem_cons.1 hf with rfl | hf
      · exact hk
      · exact Nat.lt_trans hk (h.1 f hf)
    · split
      · next hk =>
        exact List.pairwise_cons.2 ⟨fun f hf => by simpa only [hk] using h.1 f hf, h.2⟩
      · refine List.pairwise_cons.2 ⟨?_, ih h.2⟩
        intro f hf
        rcases key_mem_putAscending hf with rfl | hf
        · omega
        · exact h.1 f hf

theorem findEntry_putAscending {κ ν : Type} [Ranked κ] [DecidableEq κ] {k c : κ} {v : ν}
    {l : List (κ × ν)} :
    findEntry c (putAscending k v l) = if c = k then some v else findEntry c l := by
  have hrank : ∀ a b : κ, rank a = rank b ↔ a = b :=
    fun a b => ⟨Ranked.rank_injective, fun h => h ▸ rfl⟩
  induction l with
  | nil => simp [putAscending, findEntry, hrank]
  | cons e rest ih =>
    unfold putAscending
    split
    · simp [findEntry, hrank]
    · split
      · next hk =>
        rw [hrank] at hk
        subst hk
        by_cases hc : c = e.1 <;> simp [findEntry, hrank, hc]
      · next hk =>
        rw [hrank] at hk
        by_cases hc : c = e.1
        · simp [findEntry, hc, Ne.symm hk]
        · simp [findEntry, hrank, hc, ih]

theorem findEntry_filter_ne {κ ν : Type} [Ranked κ] [DecidableEq κ] {k c : κ}
    {l : List (κ × ν)} :
    findEntry c (l.filter (·.1 ≠ k)) = if c = k then none else findEntry c l := by
  have hrank : ∀ a b : κ, rank a = rank b ↔ a = b :=
    fun a b => ⟨Ranked.rank_injective, fun h => h ▸ rfl⟩
  induction l with
  | nil => simp [findEntry]
  | cons e rest ih =>
    by_cases he : e.1 = k
    · by_cases hc : c = k
      · subst hc
        simpa [he] using ih
      · simpa [findEntry, hrank, he, hc] using ih
    · by_cases hc : c = e.1
      · subst hc
        simp [findEntry, he]
      · simpa [findEntry, hrank, he, hc] using ih

/-- A finite map, listed by ascending key. -/
structure OrderedMap (κ ν : Type) [Ranked κ] where
  entries : List (κ × ν)
  ascending : entries.Pairwise (rank ·.1 < rank ·.1)
deriving DecidableEq, Repr

namespace OrderedMap
variable {κ ν : Type} [Ranked κ]

def empty : OrderedMap κ ν := ⟨[], .nil⟩

instance : EmptyCollection (OrderedMap κ ν) := ⟨empty⟩
instance : Inhabited (OrderedMap κ ν) := ⟨empty⟩

def get? (m : OrderedMap κ ν) (k : κ) : Option ν :=
  findEntry k m.entries

def contains (m : OrderedMap κ ν) (k : κ) : Bool :=
  (m.get? k).isSome

def insert (m : OrderedMap κ ν) (k : κ) (v : ν) : OrderedMap κ ν :=
  ⟨putAscending k v m.entries, pairwise_putAscending m.ascending⟩

def erase [DecidableEq κ] (m : OrderedMap κ ν) (k : κ) : OrderedMap κ ν :=
  ⟨m.entries.filter (·.1 ≠ k), m.ascending.filter _⟩

/-- Of several entries with one key the last is kept. -/
def ofList (l : List (κ × ν)) : OrderedMap κ ν :=
  l.foldl (fun m e => m.insert e.1 e.2) empty

def keys (m : OrderedMap κ ν) : List κ := m.entries.map (·.1)

def values (m : OrderedMap κ ν) : List ν := m.entries.map (·.2)

def size (m : OrderedMap κ ν) : Nat := m.entries.length

def isEmpty (m : OrderedMap κ ν) : Bool := m.entries.isEmpty

def maxKey? (m : OrderedMap κ ν) : Option κ := m.keys.getLast?

@[simp] theorem get?_empty (k : κ) : (empty : OrderedMap κ ν).get? k = none := rfl

@[simp] theorem get?_insert [DecidableEq κ] (m : OrderedMap κ ν) (k c : κ) (v : ν) :
    (m.insert k v).get? c = if c = k then some v else m.get? c :=
  findEntry_putAscending

@[simp] theorem get?_erase [DecidableEq κ] (m : OrderedMap κ ν) (k c : κ) :
    (m.erase k).get? c = if c = k then none else m.get? c :=
  findEntry_filter_ne

end OrderedMap
end QuantumCircuit
