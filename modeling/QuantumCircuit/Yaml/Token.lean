import QuantumCircuit.Yaml.Scalar

/-! Tokens: the marks, names and scalars of a text, with the ends of its blocks
made explicit. -/
namespace QuantumCircuit.Yaml

inductive Token where
  | version (major minor : Nat)
  | handle (name uri : String)
  | documentStart
  | documentEnd
  | blockSequence
  | blockMapping
  | blockEnd
  | flowSequence
  | flowSequenceEnd
  | flowMapping
  | flowMappingEnd
  | item
  | comma
  | key
  | value
  | reference (name : String)
  | anchor (name : String)
  | tag (handle suffix : String)
  | scalar (style : Style) (text : String)
deriving DecidableEq, Repr

/-! ## Names, tags and directives -/

/-- The name of an anchor, or of a reference to one. -/
def anchorName? (cs : List Char) : Option (List Char × List Char) :=
  let name := cs.takeWhile isNameChar
  let rest := cs.dropWhile isNameChar
  let ends := standsAlone rest || rest.head?.any ("?:,]\x7d%@\x60".toList.contains ·)
  if !name.isEmpty && ends then some (name, rest) else none

/-- The handle of a tag. Outside of a directive it may lack its second mark. -/
def tagHandle? (inDirective : Bool) : List Char → Option (List Char × List Char)
  | '!' :: cs =>
    let name := cs.takeWhile isNameChar
    match cs.dropWhile isNameChar with
    | '!' :: rest => some ('!' :: name ++ ['!'], rest)
    | rest => if inDirective && !name.isEmpty then none else some ('!' :: name, rest)
  | _ => none

/-- A byte as a percent sign and two hexadecimal digits. -/
def octet? : List Char → Option (Nat × List Char)
  | '%' :: a :: b :: rest => (hexNumber? [a, b]).map fun n => (n, rest)
  | _ => none

/-- Adds so many continuation bytes to a code. -/
def continuation? : Nat → Nat → List Char → Option (Nat × List Char)
  | 0, code, cs => some (code, cs)
  | n + 1, code, cs =>
    match octet? cs with
    | none => none
    | some (o, rest) =>
      if 0x80 ≤ o && o < 0xC0 then continuation? n (64 * code + (o - 0x80)) rest else none

/-- The character of a code that was spelled with so many bytes. A longer
spelling than needed, or one that is no character, does not count as such. -/
def spelledChar (width code : Nat) : Char :=
  let c := Char.ofNat code
  if code.isValidChar && c.utf8Size = width then c else '\ufffd'

/-- A character as the bytes of its encoding. -/
def encodedChar? (cs : List Char) : Option (Char × List Char) :=
  match octet? cs with
  | none => none
  | some (o, rest) =>
    let read (more code : Nat) : Option (Char × List Char) :=
      (continuation? more code rest).map fun r => (spelledChar (more + 1) r.1, r.2)
    if o < 0x80 then read 0 o
    else if o < 0xC0 then none
    else if o < 0xE0 then read 1 (o - 0xC0)
    else if o < 0xF0 then read 2 (o - 0xE0)
    else if o < 0xF8 then read 3 (o - 0xF0)
    else none

/-- Characters of a tag; some only where flow indicators have no meaning. -/
def isTagChar (isVerbatim : Bool) (c : Char) : Bool :=
  isNameChar c || ";/?:@&=+$.!~*'()".toList.contains c ||
    (isVerbatim && ",[]".toList.contains c)

def tagText (isVerbatim : Bool) : Nat → List Char → Option (List Char × List Char)
  | 0, cs => some ([], cs)
  | _ + 1, [] => some ([], [])
  | fuel + 1, c :: rest =>
    if c = '%' then
      match encodedChar? (c :: rest) with
      | none => none
      | some (d, rest) => (tagText isVerbatim fuel rest).map fun r => (d :: r.1, r.2)
    else if isTagChar isVerbatim c then
      (tagText isVerbatim fuel rest).map fun r => (c :: r.1, r.2)
    else some ([], c :: rest)

/-- What a tag keeps of its text: nothing from a zero character on. -/
def kept (text : List Char) : List Char := text.takeWhile (· ≠ '\x00')

/-- The text of a tag, which may not be empty. -/
def tagText? (isVerbatim : Bool) (cs : List Char) : Option (List Char × List Char) :=
  ((tagText isVerbatim cs.length cs).filter (!·.1.isEmpty)).map fun r => (kept r.1, r.2)

/-- A tag as handle and suffix. A verbatim tag has no handle, and neither has a
lone mark. -/
def tagParts? (cs : List Char) : Option ((List Char × List Char) × List Char) :=
  match cs with
  | '!' :: '<' :: rest =>
    match tagText? true rest with
    | some (uri, '>' :: rest) => some (([], uri), rest)
    | _ => none
  | _ =>
    match tagHandle? false cs with
    | none => none
    | some (handle, rest) =>
      if 1 < handle.length && handle.getLast? = some '!' then
        (tagText? false rest).map fun r => ((handle, r.1), r.2)
      else
        (tagText false rest.length rest).map fun r =>
          let suffix := handle.drop 1 ++ kept r.1
          (if suffix.isEmpty then ([], ['!']) else (['!'], suffix), r.2)

/-- A tag; in a flow collection a comma may follow it directly. -/
def tag? (inFlow : Bool) (cs : List Char) : Option (Token × List Char) :=
  match tagParts? cs with
  | none => none
  | some ((handle, suffix), rest) =>
    if standsAlone rest || (inFlow && rest.head? = some ',') then
      some (.tag (String.ofList handle) (String.ofList suffix), rest)
    else none

/-- A number of one to nine digits. -/
def versionNumber? (cs : List Char) : Option (Nat × List Char) :=
  let digits := cs.takeWhile Char.isDigit
  if digits.isEmpty || 9 < digits.length then none
  else some (digits.foldl (fun n d => 10 * n + (d.toNat - '0'.toNat)) 0, cs.dropWhile Char.isDigit)

def versionDirective? (cs : List Char) : Option (Token × List Char) :=
  match versionNumber? (cs.dropWhile isBlank) with
  | some (major, '.' :: rest) =>
    (versionNumber? rest).map fun r => (.version major r.1, r.2)
  | _ => none

def handleDirective? (cs : List Char) : Option (Token × List Char) :=
  match tagHandle? true (cs.dropWhile isBlank) with
  | none => none
  | some (name, rest) =>
    if !rest.head?.any isBlank then none
    else
      match tagText? true (rest.dropWhile isBlank) with
      | none => none
      | some (uri, rest) =>
        if standsAlone rest then some (.handle (String.ofList name) (String.ofList uri), rest)
        else none

/-- A directive with its line; the text starts behind the percent sign. -/
def directive? (cs : List Char) : Option (Token × List Char) :=
  let name := cs.takeWhile isNameChar
  let rest := cs.dropWhile isNameChar
  let read :=
    if !standsAlone rest then none
    else if name = "YAML".toList then versionDirective? rest
    else if name = "TAG".toList then handleDirective? rest
    else none
  match read with
  | none => none
  | some (t, rest) => (lineEnd? rest).map fun rest => (t, rest)

/-! ## Blocks and keys -/

/-- A token that turns out to be a key if a colon follows on its line: the
number of tokens before it and its place. If it is required, a colon has to
follow. -/
structure KeyStart where
  position : Nat
  place : Place
  required : Bool
deriving DecidableEq, Repr

/-- The longest distance in bytes between the start of a key and its colon. -/
def longestKey : Nat := 1024

/-- Whether a key can no longer start there. -/
def KeyStart.isStale (k : KeyStart) (now : Place) : Bool :=
  k.place.line < now.line || k.place.offset + longestKey < now.offset

/-- Tokens under way. `blocks` has the columns of the open blocks, innermost
first. `key` may become a key at this level, and `outerKeys` has the same for
the levels around the open flow collections. -/
structure Reader where
  cursor : Cursor
  tokens : List Token := []
  blocks : List Nat := []
  keyAllowed : Bool := true
  key : Option KeyStart := none
  outerKeys : List (Option KeyStart) := []
deriving Repr

namespace Reader

def inFlow (r : Reader) : Bool := !r.outerKeys.isEmpty

def column (r : Reader) : Nat := r.cursor.column

/-- The least column of the lines inside the innermost block. -/
def inner (r : Reader) : Nat :=
  match r.blocks with
  | [] => 0
  | n :: _ => n + 1

def emit (r : Reader) (t : Token) : Reader := { r with tokens := r.tokens ++ [t] }

def allowKey (r : Reader) (allowed : Bool) : Reader := { r with keyAllowed := allowed }

/-- A token of the given length. -/
def mark (r : Reader) (t : Token) (length : Nat) : Reader :=
  { r.emit t with cursor := r.cursor.drop length }

/-- Inserts a token at a position. -/
def insert (r : Reader) (position : Nat) (t : Token) : Reader :=
  { r with tokens := r.tokens.take position ++ t :: r.tokens.drop position }

/-- Opens a block at a column that is deeper than all open ones; its token
stands at the given position. -/
def openBlock (r : Reader) (column position : Nat) (t : Token) : Reader :=
  if r.inFlow || column < r.inner then r
  else { r.insert position t with blocks := column :: r.blocks }

/-- Opens a block here. -/
def openHere (r : Reader) (t : Token) : Reader := r.openBlock r.column r.tokens.length t

/-- Closes the innermost blocks up to one that is to stay. -/
def closeBlocks (r : Reader) (stays : Nat → Bool) : Reader :=
  if r.inFlow then r
  else
    { r with
      tokens := r.tokens ++ (r.blocks.takeWhile (!stays ·)).map fun _ => .blockEnd
      blocks := r.blocks.dropWhile (!stays ·) }

/-- Gives up the key at this level, unless it is required. -/
def dropKey (r : Reader) : Option Reader :=
  if r.key.any (·.required) then none else some { r with key := none }

/-- Takes the next token for a key at this level, where one is allowed. -/
def startKey (r : Reader) : Option Reader :=
  if r.keyAllowed then
    let required := !r.inFlow && r.blocks.head? = some r.column
    r.dropKey.map ({ · with key := some ⟨r.tokens.length, r.cursor.place, required⟩ })
  else some r

/-- Gives up the keys that are stale, unless one of them is required. -/
def expireKeys (r : Reader) : Option Reader :=
  let isStale (k : KeyStart) := k.isStale r.cursor.place
  if (r.key :: r.outerKeys).any (·.any fun k => isStale k && k.required) then none
  else
    some { r with
      key := r.key.filter (!isStale ·)
      outerKeys := r.outerKeys.map (·.filter (!isStale ·)) }

/-! ## Reading -/

/-- Skips blanks, comments and breaks. In a block a new line allows a key, and
where a key is allowed tabs are no blanks. -/
def skipSpace : Nat → Reader → Reader
  | 0, r => r
  | fuel + 1, r =>
    let c := if r.column = 0 then r.cursor.moveTo (dropMark r.cursor.rest) else r.cursor
    let tabs := r.inFlow || !r.keyAllowed
    let c := c.dropWhile fun d => d = ' ' || (tabs && d = '\t')
    let c := if c.rest.head? = some '#' then c.dropWhile (!isBreak ·) else c
    if c.rest.head?.any isBreak then
      skipSpace fuel { r with cursor := c.drop 1, keyAllowed := r.keyAllowed || !r.inFlow }
    else { r with cursor := c }

/-- The start or end of a document. -/
def documentMark (r : Reader) (t : Token) : Option Reader :=
  (r.closeBlocks fun _ => false).dropKey.map fun r => (r.mark t 3).allowKey false

def directive (r : Reader) (cs : List Char) : Option Reader :=
  match (r.closeBlocks fun _ => false).dropKey, directive? cs with
  | some r, some (t, rest) =>
    some { (r.emit t).allowKey false with cursor := r.cursor.moveTo rest }
  | _, _ => none

def openFlow (r : Reader) (t : Token) : Option Reader :=
  r.startKey.map fun r =>
    { (r.mark t 1).allowKey true with key := none, outerKeys := r.key :: r.outerKeys }

def closeFlow (r : Reader) (t : Token) : Option Reader :=
  r.dropKey.map fun r =>
    let r := (r.mark t 1).allowKey false
    match r.outerKeys with
    | [] => r
    | k :: ks => { r with key := k, outerKeys := ks }

def comma (r : Reader) : Option Reader := r.dropKey.map fun r => (r.mark .comma 1).allowKey true

/-- An item of a block sequence, or a key that is marked as one. In a block it
must stand where a key is allowed. -/
def entry (r : Reader) (block t : Token) (allowed : Bool) : Option Reader :=
  if !r.inFlow && !r.keyAllowed then none
  else (r.openHere block).dropKey.map fun r => (r.mark t 1).allowKey allowed

/-- The colon of a value. What may be a key becomes one. -/
def value (r : Reader) : Option Reader :=
  match r.key with
  | some k =>
    let r := (r.insert k.position .key).openBlock k.place.column k.position .blockMapping
    some (({ r with key := none }.mark .value 1).allowKey false)
  | none =>
    if !r.inFlow && !r.keyAllowed then none
    else some (((r.openHere .blockMapping).mark .value 1).allowKey !r.inFlow)

/-- A token that may be a key, from its reading. -/
def node (r : Reader) (read : Option (Token × List Char)) : Option Reader :=
  match r.startKey, read with
  | some r, some (t, rest) =>
    some { (r.emit t).allowKey false with cursor := r.cursor.moveTo rest }
  | _, _ => none

def anchor (r : Reader) (make : String → Token) : Option Reader :=
  r.node ((anchorName? (r.cursor.rest.drop 1)).map fun n => (make (String.ofList n.1), n.2))

def quoted (r : Reader) (quote : Char) : Option Reader :=
  r.node ((quotedText quote (r.cursor.drop 1)).map fun q =>
    (.scalar .quoted (String.ofList q.1), q.2.rest))

/-- A plain scalar. A new line behind it allows a key. -/
def plain (r : Reader) : Option Reader :=
  match plainText r.inFlow r.inner r.cursor with
  | none => none
  | some (text, broken, c) =>
    (r.node (some (.scalar .plain (String.ofList text), c.rest))).map (·.allowKey broken)

def block (r : Reader) (isFolded : Bool) : Option Reader :=
  match r.dropKey, blockText isFolded r.inner (r.cursor.drop 1) with
  | some r, some (text, c) =>
    let style := if isFolded then Style.folded else Style.literal
    some { (r.emit (.scalar style (String.ofList text))).allowKey true with cursor := c }
  | _, _ => none

/-- Whether a plain scalar can start here. -/
def startsPlain (inFlow : Bool) : List Char → Bool
  | [] => false
  | c :: rest =>
    if c = '-' then !rest.head?.any isBlank
    else if c = '?' || c = ':' then !inFlow && !standsAlone rest
    else !isSpace c && !isFlowIndicator c && !"#&*!|>'\"%@\x60".toList.contains c

/-- Reads a token. -/
def next (r : Reader) : Option Reader :=
  match r.cursor.rest with
  | [] => none
  | c :: rest =>
    let alone := r.inFlow || standsAlone rest
    if r.column = 0 && c = '%' then r.directive rest
    else if r.cursor.atMark '-' then r.documentMark .documentStart
    else if r.cursor.atMark '.' then r.documentMark .documentEnd
    else if c = '[' then r.openFlow .flowSequence
    else if c = '\x7b' then r.openFlow .flowMapping
    else if c = ']' then r.closeFlow .flowSequenceEnd
    else if c = '\x7d' then r.closeFlow .flowMappingEnd
    else if c = ',' then r.comma
    else if c = '-' && standsAlone rest then r.entry .blockSequence .item true
    else if c = '?' && alone then r.entry .blockMapping .key !r.inFlow
    else if c = ':' && alone then r.value
    else if c = '*' then r.anchor .reference
    else if c = '&' then r.anchor .anchor
    else if c = '!' then r.node (tag? r.inFlow r.cursor.rest)
    else if (c = '|' || c = '>') && !r.inFlow then r.block (c = '>')
    else if c = '\'' || c = '"' then r.quoted c
    else if startsPlain r.inFlow r.cursor.rest then r.plain
    else none

/-- Reads all tokens. A token closes the blocks that are deeper than it. -/
def run : Nat → Reader → Option (List Token)
  | 0, _ => none
  | fuel + 1, r =>
    match (r.skipSpace (r.cursor.rest.length + 1)).expireKeys with
    | none => none
    | some r =>
      if r.cursor.rest.isEmpty then (r.closeBlocks fun _ => false).dropKey.map (·.tokens)
      else ((r.closeBlocks (· ≤ r.column)).next).bind (run fuel)

end Reader

/-- The tokens of a text. -/
def tokens? (text : String) : Option (List Token) :=
  let cs := text.toList
  if cs.all isPrintable then
    let cs := uniform cs
    Reader.run (cs.length + 1) { cursor := ⟨cs, {}⟩ }
  else none

end QuantumCircuit.Yaml
