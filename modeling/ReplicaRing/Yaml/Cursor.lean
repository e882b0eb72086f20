/-!
# Positions in YAML text

YAML text is read through a `Cursor`, which knows its line and column: the nesting
of collections depends on the columns at which their parts begin.
-/

namespace ReplicaRing.Yaml

/-- The character may stand in YAML text; control characters may not. -/
def isAllowed (c : Char) : Bool :=
  let n := c.toNat
  n = 0x09 || n = 0x0A || n = 0x0D || (0x20 ≤ n && n ≤ 0x7E) || n = 0x85 ||
    (0xA0 ≤ n && n ≤ 0xFFFD && n ≠ 0xFEFF) || 0x10000 ≤ n

/-- A space or a tab. -/
def isBlank (c : Char) : Bool := c = ' ' || c = '\t'

/-- A character that ends a line. -/
def isBreak (c : Char) : Bool :=
  c = '\n' || c = '\r' || c = '\u0085' || c = '\u2028' || c = '\u2029'

/-- A character of a name, as of an anchor. -/
def isWord (c : Char) : Bool := c.isAlphanum || c = '_' || c = '-'

/-- A position in a text and the text from there on. -/
structure Cursor where
  rest : List Char
  /-- The number of characters before the position. -/
  index : Nat
  /-- The number of lines before that of the position. -/
  line : Nat
  /-- The number of characters before the position in its line. -/
  column : Nat

namespace Cursor

/-- The beginning of a text. -/
def start (s : List Char) : Cursor := ⟨s, 0, 0, 0⟩

/-- The text is at its end. -/
def atEnd (c : Cursor) : Bool := c.rest.isEmpty

/-- The next character is `ch`. -/
def sees (c : Cursor) (ch : Char) : Bool := c.rest.head? = some ch

/-- Behind `n` characters of the same line. -/
def skip (c : Cursor) (n : Nat) : Cursor :=
  ⟨c.rest.drop n, c.index + n, c.line, c.column + n⟩

/-- The longest piece of text whose characters satisfy `p`, none of them a line
    break, and the position behind it. -/
def span (c : Cursor) (p : Char → Bool) : List Char × Cursor :=
  let piece := c.rest.takeWhile p
  (piece, c.skip piece.length)

/-- The end of the text, a blank or a line break is `k` characters ahead. -/
def endsAt (c : Cursor) (k : Nat) : Bool :=
  match c.rest[k]? with
  | none => true
  | some ch => isBlank ch || isBreak ch

/-- The line is at its end. -/
def atLineEnd (c : Cursor) : Bool :=
  match c.rest with
  | [] => true
  | ch :: _ => isBreak ch

/-- The line break at a position, as it counts in a scalar, and the position behind it.
    At the end of the text there is none. -/
def newline (c : Cursor) : List Char × Cursor :=
  match c.rest with
  | '\r' :: '\n' :: rest => (['\n'], ⟨rest, c.index + 2, c.line + 1, 0⟩)
  | ch :: rest =>
    if isBreak ch then
      (if ch = '\u2028' || ch = '\u2029' then [ch] else ['\n'],
        ⟨rest, c.index + 1, c.line + 1, 0⟩)
    else ([], c)
  | [] => ([], c)

/-- The line begins with three times the character `ch`, and nothing directly behind. -/
def marks (c : Cursor) (ch : Char) : Bool :=
  c.column = 0 && c.rest.take 3 = [ch, ch, ch] && c.endsAt 3

/-- The line is one that begins or ends a document. -/
def atDocumentMark (c : Cursor) : Bool := c.marks '-' || c.marks '.'

/-- Behind blanks and a comment; nothing else may be left in the line. -/
def lineEnd? (c : Cursor) : Option Cursor :=
  let (_, c) := c.span isBlank
  let (_, c) := if c.sees '#' then c.span fun ch => !isBreak ch else ([], c)
  if c.atLineEnd then some c.newline.2 else none

end Cursor

end ReplicaRing.Yaml
