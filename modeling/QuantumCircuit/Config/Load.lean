import QuantumCircuit.Config.Override
import QuantumCircuit.Json.Decode
import QuantumCircuit.Json.Parse
import QuantumCircuit.Yaml.Document

/-! Configurations from JSON and YAML text and from files. -/
namespace QuantumCircuit
namespace Config

/-! ## JSON -/

/-- A configuration from a value; fields may be left out. -/
def ofJson? (v : Json) : Option Config :=
  (v.slots? fieldNames).bind (ofFields? Json.natBelow? Json.bool?)

/-! ## YAML -/

def digitIn? (radix : Nat) (c : Char) : Option Nat := (Json.hexValue? c).filter (· < radix)

/-- The value of digits in a radix; there must be some. -/
def valueIn? (radix : Nat) (cs : List Char) : Option Nat :=
  if cs.isEmpty then none
  else (cs.mapM (digitIn? radix)).map (·.foldl (fun n d => radix * n + d) 0)

/-- A whole number: decimal without leading zeros, or after `0x`, `0o` or `0b`
in that radix. A plus sign may come first. -/
def yamlNumber? (text : String) : Option Nat :=
  let cs := match text.toList with | '+' :: rest => rest | cs => cs
  match cs with
  | '0' :: 'x' :: rest => valueIn? 16 rest
  | '0' :: 'o' :: rest => valueIn? 8 rest
  | '0' :: 'b' :: rest => valueIn? 2 rest
  | '0' :: _ :: _ => none
  | cs => valueIn? 10 cs

/-- The text of a scalar that is read as a value of the type with the given
tag: a plain one, or a literal one with that tag. -/
def yamlText? (type : String) (value : Option Yaml.Scalar) : Option String :=
  value.bind fun s =>
    if s.style = .plain || (s.style = .literal && s.tag = some ("tag:yaml.org,2002:" ++ type)) then
      some s.text
    else none

def yamlNat? (bound : Nat) (value : Option Yaml.Scalar) : Option Nat :=
  ((yamlText? "int" value).bind yamlNumber?).filter (· < bound)

def yamlBool? (value : Option Yaml.Scalar) : Option Bool :=
  (yamlText? "bool" value).bind fun s =>
    if ["true", "True", "TRUE"].contains s then some true
    else if ["false", "False", "FALSE"].contains s then some false
    else none

/-- The value at a name; none if the name is repeated. -/
def yamlSlot? (members : List (String × Option Yaml.Scalar)) (name : String) :
    Option (Option (Option Yaml.Scalar)) :=
  match members.filter (·.1 = name) with
  | [] => some none
  | [m] => some (some m.2)
  | _ => none

def ofYamlMembers? (members : List (String × Option Yaml.Scalar)) : Option Config :=
  (fieldNames.mapM (yamlSlot? members)).bind (ofFields? yamlNat? yamlBool?)

/-! ## Text and files -/

/-- A configuration that was read, if it obeys the rules. -/
def check : Option Config → Except ConfigError Config
  | some c => c.validated
  | none => .error .malformed

def ofJsonText (text : String) : Except ConfigError Config :=
  check ((Json.parse? text).bind ofJson?)

def ofYamlText (text : String) : Except ConfigError Config :=
  check (((Yaml.document? text).bind Yaml.Document.members?).bind ofYamlMembers?)

/-- What stands after the last point of a file name. A point at the very start
does not count. -/
def extension? (path : String) : Option (List Char) :=
  let name := (path.toList.reverse.takeWhile (· ≠ '/')).reverse
  let ending := (name.reverse.takeWhile (· ≠ '.')).reverse
  if ending.length + 1 < name.length then some ending else none

/-- A configuration from a file with the given contents, if it could be read. A
file with the extension `json` holds JSON, any other YAML. -/
def ofFile (path : String) (contents : Option String) : Except ConfigError Config :=
  match contents with
  | none => .error .unreadable
  | some text =>
    if (extension? path).map (·.map Char.toLower) = some "json".toList then ofJsonText text
    else ofYamlText text

/-- A configuration from a file, or the default one, with the values that are
set from outside. -/
def load (file : Option (String × Option String)) (lookup : String → Option String) :
    Except ConfigError Config :=
  match (match file with | some (path, contents) => ofFile path contents | none => .ok {}) with
  | .ok c => (c.override lookup).validated
  | .error e => .error e

end Config
end QuantumCircuit
