import QuantumCircuit.Yaml.Anchor
import QuantumCircuit.Yaml.Token

/-! Nodes: the trees that the tokens of a document spell. -/
namespace QuantumCircuit.Yaml

/-- A node. A reference has the number of an anchor. -/
inductive Node where
  | scalar (s : Scalar)
  | sequence (items : List Node)
  | mapping (members : List (Node × Node))
  | reference (number : Nat)
deriving Repr

/-- What stands where a node is left out. -/
def Node.absent : Node := .scalar {}

/-! ## Tokens to come -/

/-- The tokens to come, with the anchors so far and the texts of tag handles. -/
structure Source where
  tokens : List Token
  anchors : Anchors := {}
  handles : List (String × String) := []
deriving Repr

abbrev Parse := StateT Source Option

namespace Parse

def peek : Parse (Option Token) := return (← get).tokens.head?

def skip : Parse Unit := modify fun s => { s with tokens := s.tokens.drop 1 }

/-- Skips a token if it comes next, and tells whether it did. -/
def accept (t : Token) : Parse Bool := do
  if (← peek) = some t then skip; return true
  else return false

/-- Whether one of the given tokens comes next. -/
def sees (ts : List Token) : Parse Bool := return (← peek).any (ts.contains ·)

/-- Skips the comma in front of an entry of a flow collection, and tells whether
it was there. The first entry has none. -/
def separated (isFirst : Bool) : Parse Bool :=
  if isFirst then return true else accept .comma

/-- An anchor, if one comes next. -/
def anchor : Parse (Option String) := do
  match ← peek with
  | some (.anchor name) => skip; return some name
  | _ => return none

/-- A tag, if one comes next; its handle must be known. -/
def tag : Parse (Option String) := do
  match ← peek with
  | some (.tag handle suffix) =>
    skip
    if handle.isEmpty then return some suffix
    else
      match (← get).handles.lookup handle with
      | some uri => return some (uri ++ suffix)
      | none => failure
  | _ => return none

/-- An anchor and a tag, in either order. -/
def properties : Parse (Option String × Option String) := do
  match ← anchor with
  | some name => return (some name, ← tag)
  | none =>
    let t ← tag
    if t.isSome then return (← anchor, t) else return (none, none)

/-- Gives a node the name of its anchor, if it has one. -/
def define (name : Option String) (target : Option Scalar) : Parse Unit :=
  match name with
  | some n => modify fun s => { s with anchors := s.anchors.define n target }
  | none => return ()

/-! ## Nodes -/

mutual

/-- A node. Block collections may start only where `inBlock` holds, and a
sequence without indentation only as a key or value of a block mapping. -/
def node (fuel : Nat) (inBlock asMember : Bool) : Parse Node := do
  match fuel with
  | 0 => failure
  | fuel + 1 =>
    match ← peek with
    | some (.reference name) =>
      skip
      match (← get).anchors.number? name with
      | some number => return .reference number
      | none => failure
    | _ =>
      let (name, tag) ← properties
      match ← peek, inBlock, asMember with
      | some (.scalar style text), _, _ =>
        skip
        define name (some ⟨style, text, tag⟩)
        return .scalar ⟨style, text, tag⟩
      | some .flowSequence, _, _ => skip; define name none; .sequence <$> flowItems fuel true
      | some .flowMapping, _, _ => skip; define name none; .mapping <$> flowMembers fuel true
      | some .blockSequence, true, _ => skip; define name none; .sequence <$> blockItems fuel
      | some .blockMapping, true, _ => skip; define name none; .mapping <$> blockMembers fuel
      | some .item, _, true => define name none; .sequence <$> bareItems fuel
      | _, _, _ =>
        if name.isSome || tag.isSome then
          define name (some { tag })
          return .scalar { tag }
        else failure

/-- A node, or nothing in front of one of the given tokens. -/
def nodeBefore (fuel : Nat) (inBlock asMember : Bool) (ends : List Token) : Parse Node := do
  match fuel with
  | 0 => failure
  | fuel + 1 => if ← sees ends then return .absent else node fuel inBlock asMember

/-- The value after a key, which may be left out with its colon. -/
def value (fuel : Nat) (inBlock : Bool) (ends : List Token) : Parse Node := do
  match fuel with
  | 0 => failure
  | fuel + 1 =>
    if ← accept .value then nodeBefore fuel inBlock inBlock ends else return .absent

/-- The items of a block sequence up to its end. -/
def blockItems (fuel : Nat) : Parse (List Node) := do
  match fuel with
  | 0 => failure
  | fuel + 1 =>
    if ← accept .item then
      let n ← nodeBefore fuel true false [.item, .blockEnd]
      return n :: (← blockItems fuel)
    else if ← accept .blockEnd then return []
    else failure

/-- The items of a sequence that is no deeper than the mapping around it. -/
def bareItems (fuel : Nat) : Parse (List Node) := do
  match fuel with
  | 0 => failure
  | fuel + 1 =>
    if ← accept .item then
      let n ← nodeBefore fuel true false [.item, .key, .value, .blockEnd]
      return n :: (← bareItems fuel)
    else return []

/-- The entries of a block mapping up to its end. -/
def blockMembers (fuel : Nat) : Parse (List (Node × Node)) := do
  match fuel with
  | 0 => failure
  | fuel + 1 =>
    if ← accept .key then
      let k ← nodeBefore fuel true true [.key, .value, .blockEnd]
      let v ← value fuel true [.key, .value, .blockEnd]
      return (k, v) :: (← blockMembers fuel)
    else if ← accept .blockEnd then return []
    else failure

/-- The items of a flow sequence up to its end. An item may be one entry of a
mapping; if its key is left out, the token behind goes with it. -/
def flowItems (fuel : Nat) (isFirst : Bool) : Parse (List Node) := do
  match fuel with
  | 0 => failure
  | fuel + 1 =>
    if ← accept .flowSequenceEnd then return []
    else if !(← separated isFirst) then failure
    else if ← accept .key then
      let bare ← sees [.value, .comma, .flowSequenceEnd]
      let k ← if bare then skip *> pure .absent else node fuel false false
      let v ← value fuel false [.comma, .flowSequenceEnd]
      return .mapping [(k, v)] :: (← flowItems fuel false)
    else if ← accept .flowSequenceEnd then return []
    else
      let n ← node fuel false false
      return n :: (← flowItems fuel false)

/-- The entries of a flow mapping up to its end. An entry may be a key alone. -/
def flowMembers (fuel : Nat) (isFirst : Bool) : Parse (List (Node × Node)) := do
  match fuel with
  | 0 => failure
  | fuel + 1 =>
    if ← accept .flowMappingEnd then return []
    else if !(← separated isFirst) then failure
    else if ← accept .key then
      let k ← nodeBefore fuel false false [.value, .comma, .flowMappingEnd]
      let v ← value fuel false [.comma, .flowMappingEnd]
      return (k, v) :: (← flowMembers fuel false)
    else if ← accept .flowMappingEnd then return []
    else
      let k ← node fuel false false
      return (k, .absent) :: (← flowMembers fuel false)

end

end Parse
end QuantumCircuit.Yaml
