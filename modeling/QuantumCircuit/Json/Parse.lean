import QuantumCircuit.Json.Scan

/-! From tokens to values. No value nests deeper, and no container holds more
members, than there are tokens; their number bounds the recursion. -/
namespace QuantumCircuit.Json

mutual
/-- A value, and the tokens after it. -/
def readValue : Nat → List Token → Option (Json × List Token)
  | 0, _ => none
  | _, [] => none
  | n + 1, t :: ts =>
    match t with
    | .null => some (.null, ts)
    | .bool b => some (.bool b, ts)
    | .number x => some (.number x, ts)
    | .string s => some (.string s, ts)
    | .openArray =>
      match ts with
      | .closeArray :: ts => some (.array [], ts)
      | ts => (readItems n ts).map fun r => (.array r.1, r.2)
    | .openObject =>
      match ts with
      | .closeObject :: ts => some (.object [], ts)
      | ts => (readMembers n ts).map fun r => (.object r.1, r.2)
    | .closeArray | .closeObject | .comma | .colon => none

/-- The items of an array up to its end; there is at least one. -/
def readItems : Nat → List Token → Option (List Json × List Token)
  | 0, _ => none
  | n + 1, ts =>
    match readValue n ts with
    | some (v, .closeArray :: ts) => some ([v], ts)
    | some (v, .comma :: ts) => (readItems n ts).map fun r => (v :: r.1, r.2)
    | _ => none

/-- The members of an object up to its end; there is at least one. -/
def readMembers : Nat → List Token → Option (List (Option String × Json) × List Token)
  | 0, _ => none
  | n + 1, .string k :: .colon :: ts =>
    match readValue n ts with
    | some (v, .closeObject :: ts) => some ([(k, v)], ts)
    | some (v, .comma :: ts) => (readMembers n ts).map fun r => ((k, v) :: r.1, r.2)
    | _ => none
  | _, _ => none
end

/-- The value that a text spells, with nothing after it but blanks. -/
def parse? (s : String) : Option Json :=
  match scan s.toList with
  | none => none
  | some ts =>
    match readValue ts.length ts with
    | some (v, []) => some v
    | _ => none

end QuantumCircuit.Json
