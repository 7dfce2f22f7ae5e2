import QuantumCircuit.Json.Basic

/-! Reading typed data out of values. A record is an object with its fields by
name, or an array with its fields in order; unknown members are passed over. -/
namespace QuantumCircuit.Json

def bool? : Json → Option Bool
  | .bool b => some b
  | _ => none

def text? : Json → Option String
  | .string s => s
  | _ => none

def items? : Json → Option (List Json)
  | .array items => some items
  | _ => none

/-- A plain natural number below `bound`. -/
def natBelow? (bound : Nat) : Json → Option Nat
  | .number n => n.toNat?.filter (· < bound)
  | _ => none

/-- The member of that name; none if it is repeated. -/
def member? (members : List (Option String × Json)) (name : String) : Option (Option Json) :=
  match members.filter (·.1 = some name) with
  | [] => some none
  | [m] => some (some m.2)
  | _ => none

/-- The fields of a record that may be left out. A repeated field, a key that is
no text and an array that is too long spoil the record. -/
def slots? (names : List String) : Json → Option (List (Option Json))
  | .object members =>
    if members.any (·.1.isNone) then none else names.mapM (member? members)
  | .array items =>
    if items.length ≤ names.length then
      some (items.map some ++ List.replicate (names.length - items.length) none)
    else none
  | _ => none

/-- The fields of a record that must all be there. -/
def fields? (names : List String) (v : Json) : Option (List Json) :=
  (slots? names v).bind (·.mapM id)

/-- An alternative with its content: an object of one member. -/
def alternative? : Json → Option (String × Json)
  | .object [(some name, content)] => some (name, content)
  | _ => none

end QuantumCircuit.Json
