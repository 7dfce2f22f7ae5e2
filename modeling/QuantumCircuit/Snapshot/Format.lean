import QuantumCircuit.Number.Binary64

/-! Text formats for snapshots. How numbers, texts, lists, records and alternatives become
values, and values become text, is up to the format; a snapshot only says which of them stand
where. -/
namespace QuantumCircuit

/-- A text format: how data are put into values and taken out again, and how values are
written and read. -/
structure Format where
  Value : Type
  natural : Nat → Value
  double : Binary64 → Value
  text : String → Value
  list : List Value → Value
  record : List (String × Value) → Value
  /-- An alternative without content. -/
  symbol : String → Value
  /-- An alternative with its content. -/
  tagged : String → Value → Value
  /-- A natural number below a bound. -/
  natural? : Nat → Value → Option Nat
  double? : Value → Option Binary64
  text? : Value → Option String
  items? : Value → Option (List Value)
  /-- The fields of these names, which must all be there. -/
  fields? : List String → Value → Option (List Value)
  /-- The name of an alternative without content, if so many containers may be opened. -/
  symbol? : Nat → Value → Option String
  tagged? : Value → Option (String × Value)
  /-- Containers may nest this deep. -/
  limit : Nat
  write : Value → String
  read? : String → Option Value

end QuantumCircuit
