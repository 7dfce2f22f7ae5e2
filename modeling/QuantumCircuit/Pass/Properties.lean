/-! Values that passes leave for each other and for their caller, one for each
property. -/
namespace QuantumCircuit

inductive PropertyValue where
  | flag (value : Bool)
  | number (value : Int)
  | text (value : String)
deriving DecidableEq, Repr

/-- A property with values in `α`: its name and how its values are stored. -/
structure Property (α : Type) where
  name : String
  store : α → PropertyValue
  load : PropertyValue → Option α
  load_store : ∀ a, load (store a) = some a

/-- Whether the circuit resets, branches on or goes on after a measurement. -/
def Property.dynamic : Property Bool where
  name := "dynamic"
  store := .flag
  load
    | .flag b => some b
    | _ => none
  load_store _ := rfl

/-- The stored values by the names of their properties. -/
structure Properties where
  entries : List (String × PropertyValue) := []
  unique : (entries.map (·.1)).Nodup := by simp
deriving Repr

namespace Properties
variable {α : Type}

instance : EmptyCollection Properties := ⟨{}⟩

def get? (p : Property α) (s : Properties) : Option α := (s.entries.lookup p.name).bind p.load

def erase (p : Property α) (s : Properties) : Properties where
  entries := s.entries.filter (·.1 ≠ p.name)
  unique := s.unique.sublist (List.filter_sublist.map _)

/-- Stores a value; an earlier one of the same property is dropped. -/
def insert (p : Property α) (a : α) (s : Properties) : Properties where
  entries := (p.name, p.store a) :: (s.erase p).entries
  unique := by
    simp only [List.map_cons, List.nodup_cons]
    refine ⟨?_, (s.erase p).unique⟩
    simp [erase]

def size (s : Properties) : Nat := s.entries.length

def isEmpty (s : Properties) : Bool := s.entries.isEmpty

def text (s : Properties) : String := "PropertySet \x7b custom: " ++ toString s.size ++ " \x7d"

@[simp] theorem get?_empty (p : Property α) : (∅ : Properties).get? p = none := rfl

@[simp] theorem get?_insert_self (p : Property α) (a : α) (s : Properties) :
    (s.insert p a).get? p = some a := by
  simp [get?, insert, p.load_store]

theorem lookup_filter_ne {name other : String} (h : other ≠ name)
    (l : List (String × PropertyValue)) :
    (l.filter (·.1 ≠ name)).lookup other = l.lookup other := by
  induction l with
  | nil => rfl
  | cons e rest ih =>
    by_cases he : e.1 = name
    · have hne : (other == e.1) = false := by simp [he, h]
      rw [List.filter_cons_of_neg (by simp [he]), ih, List.lookup_cons, hne]
    · rw [List.filter_cons_of_pos (by simp [he]), List.lookup_cons, List.lookup_cons, ih]

/-- Storing one property leaves the others as they were. -/
theorem get?_insert_of_ne {β : Type} {p : Property α} {q : Property β} (h : q.name ≠ p.name)
    (a : α) (s : Properties) : (s.insert p a).get? q = s.get? q := by
  have hne : (q.name == p.name) = false := by simp [h]
  unfold get? insert erase
  dsimp only
  rw [List.lookup_cons, hne]
  exact congrArg (·.bind q.load) (lookup_filter_ne h s.entries)

end Properties
end QuantumCircuit
