import QuantumCircuit.Json.Decode
import QuantumCircuit.Json.Parse
import QuantumCircuit.Snapshot.Encode

/-! Circuits from text. Nothing about the circuit is checked beyond the types of its fields.
Each reader is told how many more containers may be opened, and opening one uses up one of
them. Snapshots are JSON. -/
namespace QuantumCircuit

namespace Format
variable (F : Format)

def qubit? (v : F.Value) : Option Qubit := (F.natural? wordBound v).map Qubit.mk

def clbit? (v : F.Value) : Option Clbit := (F.natural? wordBound v).map Clbit.mk

/-- The items of a list, each read with one container less. -/
def list? {α : Type} (item? : Nat → F.Value → Option α) : Nat → F.Value → Option (List α)
  | 0, _ => none
  | room + 1, v => (F.items? v).bind (·.mapM (item? room))

/-- The required fields of a record, with one container less for each. -/
def record? (names : List String) : Nat → F.Value → Option (Nat × List F.Value)
  | 0, _ => none
  | room + 1, v => (F.fields? names v).map fun fs => (room, fs)

def kind? (room : Nat) (v : F.Value) : Option Kind := (F.symbol? room v).bind Kind.ofTag?

def polarity? (room : Nat) (v : F.Value) : Option Polarity :=
  match F.symbol? room v with
  | some "Neg" => some .negative
  | some "Pos" => some .positive
  | _ => none

def control? (room : Nat) (v : F.Value) : Option Control :=
  match F.record? ["qubit", "kind"] room v with
  | some (room, [q, p]) => do return ⟨← F.qubit? q, ← F.polarity? room p⟩
  | _ => none

def gate? (room : Nat) (v : F.Value) : Option Gate :=
  match F.record? ["op_type", "controls", "targets", "params"] room v with
  | some (room, [k, cs, ts, ps]) => do
    return {
      kind := ← F.kind? room k
      controls := .ofList (← F.list? F.control? room cs)
      targets := ← F.list? (fun _ => F.qubit?) room ts
      params := ← F.list? (fun _ => F.double?) room ps }
  | _ => none

def effect? (room : Nat) (v : F.Value) : Option Effect :=
  match F.record? ["op_type", "targets", "classics"] room v with
  | some (room, [k, ts, bs]) => do
    return {
      kind := ← F.kind? room k
      targets := ← F.list? (fun _ => F.qubit?) room ts
      clbits := ← F.list? (fun _ => F.clbit?) room bs }
  | _ => none

def register? (room : Nat) (v : F.Value) : Option Register :=
  match F.record? ["start", "size"] room v with
  | some (_, [start, size]) => do return ⟨← F.clbit? start, ← F.natural? wordBound size⟩
  | _ => none

/-- An operation. Its children lie three containers deeper, the body of a
conditional one two. -/
def operation? : Nat → F.Value → Option Operation
  | 0, _ => none
  | room + 1, v =>
    match F.tagged? v with
    | some ("Standard", v) => (F.gate? room v).map .gate
    | some ("NonUnitary", v) => (F.effect? room v).map .effect
    | some ("Compound", v) =>
      match room, F.fields? ["ops"] v with
      | room + 2, some [ops] =>
        ((F.items? ops).bind (·.mapM (operation? room))).map .compound
      | _, _ => none
    | some ("ClassicControlled", v) =>
      match room, F.fields? ["op", "register", "expected_value"] v with
      | room + 1, some [op, reg, value] => do
        let body ← operation? room op
        let register ← F.register? room reg
        let value ← F.natural? UInt64.size value
        return .conditional ⟨register, .ofNat value⟩ body
      | _, _ => none
    | _ => none

def pair? : Nat → F.Value → Option (Qubit × Qubit)
  | 0, _ => none
  | _ + 1, v =>
    match F.items? v with
    | some [p, l] => do return (← F.qubit? p, ← F.qubit? l)
    | _ => none

def layout? (room : Nat) (v : F.Value) : Option Layout :=
  (F.list? F.pair? room v).map .ofList

def circuit? (v : F.Value) : Option Circuit :=
  let names :=
    ["name", "num_qubits", "num_clbits", "ops", "initial_layout", "output_permutation"]
  match F.record? names F.limit v with
  | some (room, [name, qubits, clbits, ops, initial, output]) => do
    return {
      name := ← F.text? name
      numQubits := ← F.natural? wordBound qubits
      numClbits := ← F.natural? wordBound clbits
      ops := ← F.list? F.operation? room ops
      initial := ← F.layout? room initial
      output := ← F.layout? room output }
  | _ => none

/-- The circuit that a text describes. -/
def decode? (text : String) : Option Circuit := (F.read? text).bind F.circuit?

end Format

/-! ## Snapshots in JSON -/

namespace Json

/-- A number that is not finite is written as null. -/
def binary64 (x : Binary64) : Json :=
  if x.isFinite then .number (.ofBinary64 x) else .null

def binary64? : Json → Option Binary64
  | .number n => n.toBinary64?
  | _ => none

/-- A name without content: a text, or a member whose content is null. -/
def symbol? (room : Nat) (v : Json) : Option String :=
  match v with
  | .string s => s
  | v =>
    match room, alternative? v with
    | _ + 1, some (name, .null) => some name
    | _, _ => none

/-- JSON as a format for snapshots. An alternative is an object of one member, which is named
for it. -/
def format : Format where
  Value := Json
  natural := nat
  double := binary64
  text := text
  list := array
  record := record
  symbol := text
  tagged name v := record [(name, v)]
  natural? := natBelow?
  double? := binary64?
  text? := text?
  items? := items?
  fields? := fields?
  symbol? := symbol?
  tagged? := alternative?
  limit := 127
  write := write
  read? := parse?

end Json

namespace Circuit

/-- The snapshot text of a circuit. -/
def snapshot (c : Circuit) : String := Json.format.encode c

/-- The circuit that a snapshot text describes. -/
def ofSnapshot? (text : String) : Option Circuit := Json.format.decode? text

/-- Whether the snapshot of a circuit describes that circuit; none if it
describes no circuit at all. -/
def roundTrips? (c : Circuit) : Option Bool := (ofSnapshot? c.snapshot).map (· = c)

end Circuit
end QuantumCircuit
