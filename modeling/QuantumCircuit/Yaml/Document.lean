import QuantumCircuit.Yaml.Node

/-! Documents: what directives say, and the only document of a text. -/
namespace QuantumCircuit.Yaml

/-- The handles that every document knows. -/
def standardHandles : List (String × String) :=
  [("!", "!"), ("!!", "tag:yaml.org,2002:")]

namespace Parse

/-- Reads directives. There is at most one version, which must be known, and no
handle has two meanings. -/
def directives (hasVersion : Bool) (handles : List (String × String)) :
    List Token → Option (List (String × String) × List Token)
  | .version major minor :: rest =>
    if !hasVersion && major = 1 && (minor = 1 || minor = 2) then directives true handles rest
    else none
  | .handle name uri :: rest =>
    if (handles.lookup name).isSome then none
    else directives hasVersion (handles ++ [(name, uri)]) rest
  | tokens => some (handles, tokens)

/-- Whether a token comes before a document rather than in it. -/
def isPreamble : Token → Bool
  | .version _ _ => true
  | .handle _ _ => true
  | .documentStart => true
  | _ => false

/-- The node of a document. It may be left out after a start mark. -/
def content (mayBeAbsent : Bool) : Parse Node := do
  let tokens := (← get).tokens
  if mayBeAbsent && tokens.head?.all (fun t => isPreamble t || t = .documentEnd) then
    return .absent
  else node (4 * tokens.length + 1) true false

/-- The first document, if there is one. It has a start mark if it has
directives. -/
def document : Parse (Option Node) := do
  let tokens := (← get).tokens
  if tokens.isEmpty then return none
  else if tokens.head?.any isPreamble then
    match directives false [] tokens with
    | some (handles, .documentStart :: rest) =>
      set ({ tokens := rest, handles := handles ++ standardHandles } : Source)
      some <$> content true
    | _ => failure
  else
    set ({ tokens, handles := standardHandles } : Source)
    some <$> content false

end Parse

/-- A document: its node, if there is one, and its anchors. -/
structure Document where
  root : Option Node
  anchors : Anchors
deriving Repr

/-- The document of a text; after it only end marks may come. -/
def document? (text : String) : Option Document :=
  match tokens? text with
  | none => none
  | some tokens =>
    match Parse.document.run { tokens } with
    | some (root, rest) =>
      if rest.tokens.all (· = .documentEnd) then some ⟨root, rest.anchors⟩ else none
    | none => none

namespace Document

/-- The scalar that a node is or refers to. -/
def scalar? (d : Document) : Node → Option Scalar
  | .scalar s => some s
  | .reference number => d.anchors.scalar? number
  | _ => none

/-- The entries of a document that is a mapping with scalars for keys, with the
scalars among its values. An empty document has no entries. -/
def members? (d : Document) : Option (List (String × Option Scalar)) :=
  match d.root with
  | none => some []
  | some (.mapping members) =>
    members.mapM fun m => (d.scalar? m.1).map fun k => (k.text, d.scalar? m.2)
  | some (.scalar s) => if s.style = .plain && s.text.isEmpty then some [] else none
  | some _ => none

end Document
end QuantumCircuit.Yaml
