import QuantumCircuit.Json.Scan
import QuantumCircuit.Yaml.Cursor

/-! Scalars: plain, in quotes, and as blocks of lines. -/
namespace QuantumCircuit.Yaml

inductive Style where
  | plain
  | quoted
  | literal
  | folded
deriving DecidableEq, Repr

/-- A scalar with its tag, if it has one. -/
structure Scalar where
  style : Style := .plain
  text : String := ""
  tag : Option String := none
deriving DecidableEq, Repr

/-! ## Gaps -/

/-- What blanks and breaks between two words stand for. Blanks alone stay. A
single line feed becomes a blank; of several, the first one goes. Blanks around
breaks go. -/
def gapText (gap : List Char) : List Char :=
  match gap.filter isBreak with
  | [] => gap
  | ['\n'] => [' ']
  | '\n' :: more => more
  | breaks => breaks

/-- Whether some line after the first has a tab left of the given column. -/
def hasShallowTab (limit : Nat) : Option Nat → List Char → Bool
  | _, [] => false
  | column, c :: rest =>
    if isBreak c then hasShallowTab limit (some 0) rest
    else (c = '\t' && column.any (· < limit)) || hasShallowTab limit (column.map (· + 1)) rest

/-! ## Plain scalars -/

def isFlowIndicator (c : Char) : Bool :=
  c = ',' || c = '[' || c = ']' || c = '\x7b' || c = '\x7d'

/-- A word of a plain scalar, and what comes after it. A colon that stands alone
ends it, and inside a flow collection so does an indicator. There, no indicator
may follow a colon. -/
def plainWord (inFlow : Bool) : List Char → Option (List Char × List Char)
  | [] => some ([], [])
  | c :: rest =>
    if isSpace c then some ([], c :: rest)
    else if inFlow && c = ':' && rest.head?.any (fun d => isFlowIndicator d || d = '?') then none
    else if (c = ':' && standsAlone rest) || (inFlow && isFlowIndicator c) then
      some ([], c :: rest)
    else (plainWord inFlow rest).map fun r => (c :: r.1, r.2)

/-- The words of a plain scalar from here on, with what the gaps between them
stand for; whether a line ended behind the last word; and the place reached. In
a block, a line that starts left of `limit` is not part of the scalar. -/
def plainWords (inFlow : Bool) (limit : Nat) :
    Nat → Cursor → Option (List Char × Bool × Cursor)
  | 0, _ => none
  | fuel + 1, c =>
    if c.atDocumentMark || c.rest.head? = some '#' then some ([], false, c)
    else
      match plainWord inFlow c.rest with
      | none => none
      | some (word, rest) =>
        let gap := rest.takeWhile isSpace
        let next := (c.moveTo rest).drop gap.length
        let broken := gap.any isBreak
        if word.isEmpty || gap.isEmpty then some (word, false, next)
        else if hasShallowTab limit none gap then none
        else if !inFlow && next.column < limit then some (word, broken, next)
        else
          (plainWords inFlow limit fuel next).map fun r =>
            if r.1.isEmpty then (word, broken, r.2.2) else (word ++ gapText gap ++ r.1, r.2)

/-- A plain scalar; `plainWords` says what is returned. -/
def plainText (inFlow : Bool) (limit : Nat) (c : Cursor) : Option (List Char × Bool × Cursor) :=
  plainWords inFlow limit (c.rest.length + 1) c

/-! ## Quoted scalars -/

/-- What a character means after a backslash. -/
def escape? : Char → Option Char
  | '0' => some '\x00'
  | 'a' => some '\x07'
  | 'b' => some '\x08'
  | 't' => some '\t'
  | '\t' => some '\t'
  | 'n' => some '\n'
  | 'v' => some '\x0b'
  | 'f' => some '\x0c'
  | 'r' => some '\r'
  | 'e' => some '\x1b'
  | ' ' => some ' '
  | '"' => some '"'
  | '/' => some '/'
  | '\\' => some '\\'
  | 'N' => some '\u0085'
  | '_' => some '\u00a0'
  | 'L' => some '\u2028'
  | 'P' => some '\u2029'
  | _ => none

/-- The value of hexadecimal digits. -/
def hexNumber? (digits : List Char) : Option Nat :=
  (digits.mapM Json.hexValue?).map (·.foldl (fun n d => 16 * n + d) 0)

/-- The character with the code that so many hexadecimal digits spell. -/
def codedChar? (width : Nat) (cs : List Char) : Option (Char × List Char) :=
  if cs.length < width then none
  else
    match hexNumber? (cs.take width) with
    | none => none
    | some n => if n.isValidChar then some (Char.ofNat n, cs.drop width) else none

/-- The character that a backslash and the following ones stand for. -/
def escapedChar? : List Char → Option (Char × List Char)
  | [] => none
  | 'x' :: rest => codedChar? 2 rest
  | 'u' :: rest => codedChar? 4 rest
  | 'U' :: rest => codedChar? 8 rest
  | c :: rest => (escape? c).map fun d => (d, rest)

/-- How a word in quotes ends: at a quote, a blank or a break, or at a break
that a backslash hides. -/
structure QuotedWord where
  text : List Char
  rest : List Char
  joined : Bool := false
deriving Repr

def QuotedWord.cons (c : Char) (w : QuotedWord) : QuotedWord := { w with text := c :: w.text }

def singleQuotedWord : List Char → QuotedWord
  | [] => ⟨[], [], false⟩
  | '\'' :: '\'' :: rest => (singleQuotedWord rest).cons '\''
  | c :: rest =>
    if isSpace c || c = '\'' then ⟨[], c :: rest, false⟩ else (singleQuotedWord rest).cons c

def doubleQuotedWord : Nat → List Char → Option QuotedWord
  | 0, cs => some ⟨[], cs, false⟩
  | _ + 1, [] => some ⟨[], [], false⟩
  | fuel + 1, c :: rest =>
    if isSpace c || c = '"' then some ⟨[], c :: rest, false⟩
    else if c = '\\' then
      if rest.head?.any isBreak then some ⟨[], rest.drop 1, true⟩
      else
        match escapedChar? rest with
        | none => none
        | some (d, rest) => (doubleQuotedWord fuel rest).map (·.cons d)
    else (doubleQuotedWord fuel rest).map (·.cons c)

def quotedWord (quote : Char) (cs : List Char) : Option QuotedWord :=
  if quote = '"' then doubleQuotedWord cs.length cs else some (singleQuotedWord cs)

/-- The words up to the closing quote, with what the gaps between them stand
for. No document may start or end in between. -/
def quotedWords (quote : Char) : Nat → Cursor → Option (List Char × Cursor)
  | 0, _ => none
  | fuel + 1, c =>
    if c.atDocumentMark then none
    else
      match quotedWord quote c.rest with
      | none => none
      | some w =>
        match w.rest with
        | [] => none
        | d :: _ =>
          let reached := c.moveTo w.rest
          if d = quote then some (w.text, reached.drop 1)
          else
            let gap := w.rest.takeWhile isSpace
            let joint := if w.joined then gap.filter isBreak else gapText gap
            (quotedWords quote fuel (reached.drop gap.length)).map fun r =>
              (w.text ++ joint ++ r.1, r.2)

/-- A scalar in quotes; the cursor is behind the opening one. -/
def quotedText (quote : Char) (c : Cursor) : Option (List Char × Cursor) :=
  quotedWords quote (c.rest.length + 1) c

/-! ## Block scalars -/

/-- What becomes of the breaks at the end of a block scalar: none stays, one
stays, or all stay. -/
inductive Chomp where
  | strip
  | clip
  | keep
deriving DecidableEq, Repr

def chomp? : Char → Option Chomp
  | '+' => some .keep
  | '-' => some .strip
  | _ => none

/-- An optional mark for the breaks at the end. -/
def chompMark : List Char → Chomp × List Char
  | [] => (.clip, [])
  | c :: rest =>
    match chomp? c with
    | some m => (m, rest)
    | none => (.clip, c :: rest)

/-- An optional indentation, which is not zero. -/
def indentMark : List Char → Option (Option Nat × List Char)
  | [] => some (none, [])
  | c :: rest =>
    if c = '0' then none
    else if c.isDigit then some (some (c.toNat - '0'.toNat), rest)
    else some (none, c :: rest)

/-- The marks in front of a block scalar, in either order. -/
def blockMarks (cs : List Char) : Option (Chomp × Option Nat × List Char) :=
  if (cs.head?.bind chomp?).isSome then
    let m := chompMark cs
    (indentMark m.2).map fun i => (m.1, i)
  else
    match indentMark cs with
    | none => none
    | some (none, rest) => some (.clip, none, rest)
    | some (some n, rest) =>
      let m := chompMark rest
      some (m.1, some n, m.2)

/-- Skips blanks and a comment, which must fill the line. -/
def lineEnd? (cs : List Char) : Option (List Char) :=
  let cs := cs.dropWhile isBlank
  let cs := if cs.head? = some '#' then cs.dropWhile (!isBreak ·) else cs
  match cs with
  | [] => some []
  | c :: rest => if isBreak c then some rest else none

/-- The breaks of empty lines, the widest indentation on the way, and the place
of the first character that is no indentation. No tab may be part of it. -/
def emptyLines (indent : Option Nat) : Nat → Cursor → Option (List Char × Nat × Cursor)
  | 0, _ => none
  | fuel + 1, c =>
    let spaces := (c.rest.takeWhile (· = ' ')).length
    let c := c.drop (match indent with | none => spaces | some n => min spaces (n - c.column))
    let isOpen := indent.all (c.column < ·)
    match c.rest with
    | [] => some ([], c.column, c)
    | d :: _ =>
      if isOpen && d = '\t' then none
      else if isBreak d then
        (emptyLines indent fuel (c.drop 1)).map fun r => (d :: r.1, max c.column r.2.1, r.2.2)
      else some ([], c.column, c)

/-- A block scalar under way: its text so far, the break of its last line,
whether that line started with a blank, and the breaks of the empty lines after
it. -/
structure Block where
  text : List Char := []
  last : List Char := []
  indented : Bool := false
  empty : List Char := []
deriving Repr

/-- Takes in a line. In the folded style a line feed between two lines that
start with no blank becomes a blank, or goes if empty lines follow. -/
def Block.push (isFolded : Bool) (b : Block) (line last empty : List Char) : Block :=
  let indented := line.head?.any isBlank
  let joint :=
    if isFolded && b.last = ['\n'] && !b.indented && !indented then
      if b.empty.isEmpty then [' '] else []
    else b.last
  ⟨b.text ++ joint ++ b.empty ++ line, last, indented, empty⟩

def Block.finish (b : Block) : Chomp → List Char
  | .strip => b.text
  | .clip => b.text ++ b.last
  | .keep => b.text ++ b.last ++ b.empty

/-- The lines that start at the given column. -/
def blockLines (isFolded : Bool) (indent : Nat) : Nat → Block → Cursor → Option (Block × Cursor)
  | 0, _, _ => none
  | fuel + 1, b, c =>
    if c.column ≠ indent || c.rest.isEmpty then some (b, c)
    else
      let line := c.rest.takeWhile (!isBreak ·)
      let after := c.drop line.length
      match emptyLines (some indent) (after.rest.length + 1) (after.drop 1) with
      | none => none
      | some (empty, _, next) =>
        blockLines isFolded indent fuel (b.push isFolded line (after.rest.take 1) empty) next

/-- A block scalar; the cursor is behind its indicator. Its lines are at least
as deep as `least`, and as deep as the first one with text if the indentation is
not given. -/
def blockText (isFolded : Bool) (least : Nat) (c : Cursor) : Option (List Char × Cursor) :=
  match blockMarks c.rest with
  | none => none
  | some (chomp, increment, rest) =>
    match lineEnd? rest with
    | none => none
    | some rest =>
      let given := increment.map (least - 1 + ·)
      match emptyLines given (rest.length + 1) (c.moveTo rest) with
      | none => none
      | some (empty, widest, next) =>
        let indent := given.getD (max widest (max least 1))
        (blockLines isFolded indent (next.rest.length + 1) ⟨[], [], false, empty⟩ next).map
          fun r => (r.1.finish chomp, r.2)

end QuantumCircuit.Yaml
