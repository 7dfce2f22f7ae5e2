/-! Places in a YAML text, and the characters that divide it. -/
namespace QuantumCircuit.Yaml

/-! ## Characters -/

def isBlank (c : Char) : Bool := c = ' ' || c = '\t'

/-- Characters that end a line, once the text is uniform (see `uniform`). -/
def isBreak (c : Char) : Bool := c = '\n' || c = '\u2028' || c = '\u2029'

def isSpace (c : Char) : Bool := isBlank c || isBreak c

/-- Whether nothing, or a blank or break, comes next. -/
def standsAlone : List Char → Bool
  | [] => true
  | c :: _ => isSpace c

/-- Characters of the names of anchors, handles and directives. -/
def isNameChar (c : Char) : Bool := c.isAlphanum || c = '_' || c = '-'

/-- Characters that a document may hold. -/
def isPrintable (c : Char) : Bool :=
  let n := c.toNat
  c = '\t' || c = '\n' || c = '\r' || (0x20 ≤ n && n ≤ 0x7E) || n = 0x85 ||
    (0xA0 ≤ n && n ≤ 0xFFFD) || 0x10000 ≤ n

/-- Drops a byte order mark, which may come before a line. -/
def dropMark : List Char → List Char
  | '\ufeff' :: rest => rest
  | cs => cs

/-- The text with one spelling for the breaks that are read as a line feed. -/
def uniform : List Char → List Char
  | [] => []
  | '\r' :: '\n' :: rest => '\n' :: uniform rest
  | c :: rest => (if c = '\r' || c = '\u0085' then '\n' else c) :: uniform rest

/-! ## Places -/

/-- A place in a text: how many bytes and lines come before it, and how many
characters on its line. -/
structure Place where
  offset : Nat := 0
  line : Nat := 0
  column : Nat := 0
deriving DecidableEq, Repr

/-- The place behind a character. -/
def Place.after (p : Place) (c : Char) : Place :=
  let offset := p.offset + c.utf8Size
  if isBreak c then ⟨offset, p.line + 1, 0⟩ else ⟨offset, p.line, p.column + 1⟩

/-- What is left of a text, and where it starts. -/
structure Cursor where
  rest : List Char
  place : Place := {}
deriving DecidableEq, Repr

namespace Cursor

def column (c : Cursor) : Nat := c.place.column

def drop (c : Cursor) (n : Nat) : Cursor :=
  ⟨c.rest.drop n, (c.rest.take n).foldl Place.after c.place⟩

/-- Moves on to a given end of the text. -/
def moveTo (c : Cursor) (rest : List Char) : Cursor := c.drop (c.rest.length - rest.length)

def dropWhile (c : Cursor) (p : Char → Bool) : Cursor := c.moveTo (c.rest.dropWhile p)

/-- Whether three of the given character stand alone at the start of a line. -/
def atMark (c : Cursor) (mark : Char) : Bool :=
  c.column = 0 && c.rest.take 3 = [mark, mark, mark] && standsAlone (c.rest.drop 3)

/-- Whether a document starts or ends here. -/
def atDocumentMark (c : Cursor) : Bool := c.atMark '-' || c.atMark '.'

end Cursor
end QuantumCircuit.Yaml
