import ReplicaRing.Digits
import ReplicaRing.Yaml.Cursor

/-!
# YAML scalars

A scalar is text that is written plainly, between quotes, or as a block of lines
with a common indentation. A scalar that is written over several lines is *folded*
(`Gap.text`): a line break counts as a space, and of several line breaks in a row
the first counts for nothing. Only a literal block keeps its lines.
-/

namespace ReplicaRing.Yaml

/-- How a scalar is written. -/
inductive Style
  | plain
  | quoted
  | literal
  | folded
deriving DecidableEq, Repr

/-! ## Gaps -/

/-- What lies between two pieces of a scalar. -/
structure Gap where
  /-- The blanks, as long as there is no line break. -/
  blanks : List Char
  breaks : List Char
  /-- A line break in front is escaped and counts for nothing. -/
  escaped : Bool

namespace Gap

/-- Nothing in between. -/
def none : Gap := ⟨[], [], false⟩

/-- There is nothing in between. -/
def isEmpty (g : Gap) : Bool := g.blanks.isEmpty && g.breaks.isEmpty

/-- The pieces are on different lines. -/
def hasBreak (g : Gap) : Bool := g.escaped || !g.breaks.isEmpty

/-- The text that a gap counts for. -/
def text (g : Gap) : List Char :=
  if g.escaped then g.breaks
  else match g.breaks with
    | [] => g.blanks
    | ['\n'] => [' ']
    | '\n' :: more => more
    | breaks => breaks

/-- The gap from a position on, which goes on with `g`. A tab left of column `indent`
    that indents a line is an error. -/
def read? (indent : Nat) : (fuel : Nat) → Gap → Cursor → Option (Gap × Cursor)
  | 0, g, c => some (g, c)
  | fuel + 1, g, c =>
    match c.rest with
    | [] => some (g, c)
    | ch :: _ =>
      if isBlank ch then
        if !g.hasBreak then read? indent fuel { g with blanks := g.blanks ++ [ch] } (c.skip 1)
        else if ch = '\t' && c.column < indent then .none
        else read? indent fuel g (c.skip 1)
      else if isBreak ch then
        let (b, c) := c.newline
        read? indent fuel { g with blanks := [], breaks := g.breaks ++ b } c
      else some (g, c)

end Gap

/-! ## Quoted scalars -/

/-- The characters that a letter behind a backslash stands for. -/
def letterEscapes : List (Char × Char) :=
  [('0', '\x00'), ('a', '\x07'), ('b', '\x08'), ('t', '\t'), ('\t', '\t'), ('n', '\n'),
    ('v', '\x0b'), ('f', '\x0c'), ('r', '\r'), ('e', '\x1b'), (' ', ' '), ('"', '"'),
    ('/', '/'), ('\\', '\\'), ('N', '\u0085'), ('_', '\u00a0'), ('L', '\u2028'),
    ('P', '\u2029')]

/-- How many hexadecimal digits follow a letter behind a backslash. -/
def digitEscapes : List (Char × Nat) := [('x', 2), ('u', 4), ('U', 8)]

/-- The character that an escape stands for, and the position behind it. The escape's
    backslash is passed already. -/
def escape? (c : Cursor) : Option (Char × Cursor) :=
  match c.rest with
  | [] => none
  | ch :: rest =>
    match letterEscapes.lookup ch, digitEscapes.lookup ch with
    | some meant, _ => some (meant, c.skip 1)
    | none, some width => do
      let digits := rest.take width
      let n ← Digits.number? 16 digits
      if digits.length = width ∧ n.isValidChar then
        return (Char.ofNat n, c.skip (width + 1))
      else none
    | none, none => none

/-- The text from a position on to the closing quote, and the position behind that. -/
def quoted? (single : Bool) : (fuel : Nat) → List Char → Cursor → Option (List Char × Cursor)
  | 0, _, _ => none
  | fuel + 1, text, c =>
    if c.atDocumentMark then none
    else match c.rest with
    | [] => none
    | '\'' :: rest =>
      if !single then quoted? single fuel (text ++ ['\'']) (c.skip 1)
      else if rest.head? = some '\'' then quoted? single fuel (text ++ ['\'']) (c.skip 2)
      else some (text, c.skip 1)
    | '"' :: _ =>
      if single then quoted? single fuel (text ++ ['"']) (c.skip 1)
      else some (text, c.skip 1)
    | ch :: rest =>
      if isBlank ch || isBreak ch then do
        let (g, c) ← Gap.read? 0 c.rest.length .none c
        quoted? single fuel (text ++ g.text) c
      else if ch = '\\' && !single then
        if rest.head?.any isBreak then do
          let c := (c.skip 1).newline.2
          let (g, c) ← Gap.read? 0 c.rest.length ⟨[], [], true⟩ c
          quoted? single fuel (text ++ g.text) c
        else do
          let (meant, c) ← escape? (c.skip 1)
          quoted? single fuel (text ++ [meant]) c
      else quoted? single fuel (text ++ [ch]) (c.skip 1)

/-! ## Plain scalars -/

/-- The brackets and the comma of flow collections. -/
def isFlowMark (c : Char) : Bool := c = ',' || c = '[' || c = ']' || c = '{' || c = '}'

/-- A plain scalar ends here: in front of a colon with nothing directly behind, or,
    within a flow collection, of a mark of that. -/
def endsPlain (flow : Bool) (c : Cursor) : Bool :=
  match c.rest with
  | [] => true
  | ch :: _ => (ch = ':' && c.endsAt 1) || (flow && isFlowMark ch)

/-- Within a flow collection a mark of that may not follow directly upon a colon. -/
def clashes (flow : Bool) (c : Cursor) : Bool :=
  flow && c.sees ':' && (c.rest[1]?).any fun ch => isFlowMark ch || ch = '?'

/-- The text from a position on to the end of a plain scalar, the gap behind it, and
    the position behind that. In the block context its lines are indented at least to
    column `indent`. -/
def plain? (flow : Bool) (indent : Nat) :
    (fuel : Nat) → List Char → Gap → Cursor → Option (List Char × Gap × Cursor)
  | 0, text, g, c => some (text, g, c)
  | fuel + 1, text, g, c =>
    match c.rest with
    | [] => some (text, g, c)
    | ch :: _ =>
      if c.atDocumentMark || (ch = '#' && !g.isEmpty) then some (text, g, c)
      else if isBlank ch || isBreak ch then do
        let (g, c) ← Gap.read? indent c.rest.length .none c
        if !flow && c.column < indent then some (text, g, c)
        else plain? flow indent fuel text g c
      else if clashes flow c then none
      else if endsPlain flow c then some (text, g, c)
      else plain? flow indent fuel (text ++ g.text ++ [ch]) .none (c.skip 1)

/-! ## Blocks -/

/-- What becomes of the line breaks at the end of a block. -/
inductive Chomping
  | strip
  | clip
  | keep
deriving DecidableEq

/-- The indications behind the bar or angle that opens a block: what becomes of the
    last line breaks, and by how many columns the block is indented. -/
def blockHeader? (c : Cursor) : Option (Chomping × Option Nat × Cursor) :=
  let chomping (c : Cursor) : Option Chomping × Cursor :=
    if c.sees '+' then (some .keep, c.skip 1)
    else if c.sees '-' then (some .strip, c.skip 1)
    else (none, c)
  let (before, c) := chomping c
  match c.rest.head?.bind (Digits.value? 10) with
  | some 0 => none
  | some n =>
    let c := c.skip 1
    let (after, c) := if before.isNone then chomping c else (none, c)
    some ((before.or after).getD .clip, some n, c)
  | none => some (before.getD .clip, none, c)

/-- Passes empty lines and the indentation of the first line that is not empty; `indent`
    is zero if it is not known yet. The line breaks passed, the greatest column reached
    and the position. -/
def blockBreaks? (indent : Nat) :
    (fuel : Nat) → List Char → Nat → Cursor → Option (List Char × Nat × Cursor)
  | 0, breaks, reached, c => some (breaks, reached, c)
  | fuel + 1, breaks, reached, c =>
    let spaces := (c.rest.takeWhile (· = ' ')).length
    let c := c.skip (if indent = 0 then spaces else min spaces (indent - c.column))
    let reached := max reached c.column
    if c.sees '\t' && (indent = 0 || c.column < indent) then none
    else if c.rest.head?.any isBreak then
      let (b, c) := c.newline
      blockBreaks? indent fuel (breaks ++ b) reached c
    else some (breaks, reached, c)

/-- What is known of a block whose lines are being read. -/
structure Block where
  text : List Char
  /-- The line break behind the last line. -/
  last : List Char
  /-- The line breaks of the empty lines behind that. -/
  empty : List Char
  /-- The last line begins with a blank. -/
  blank : Bool

/-- The line breaks between the lines of a block and the next line; `blank` says whether
    that begins with a blank. Folding spares lines that begin with a blank. -/
def Block.joint (b : Block) (literal blank : Bool) : List Char :=
  if !literal && b.last = ['\n'] && !b.blank && !blank then
    if b.empty.isEmpty then [' '] else b.empty
  else b.last ++ b.empty

/-- Reads the lines of a block that is indented to column `indent`. -/
def blockLines? (literal : Bool) (indent : Nat) :
    (fuel : Nat) → Block → Cursor → Option (Block × Cursor)
  | 0, b, c => some (b, c)
  | fuel + 1, b, c =>
    if c.column ≠ indent || c.atEnd then some (b, c)
    else do
      let blank := c.rest.head?.any isBlank
      let text := b.text ++ b.joint literal blank
      let (line, c) := c.span fun ch => !isBreak ch
      let (last, c) := c.newline
      let (empty, _, c) ← blockBreaks? indent (c.rest.length + 1) [] 0 c
      blockLines? literal indent fuel ⟨text ++ line, last, empty, blank⟩ c

/-- A block behind the bar or angle that opens it, within a collection at the column
    `outer`: its text, and the position behind it. -/
def block? (literal : Bool) (outer : Option Nat) (c : Cursor) :
    Option (List Char × Cursor) := do
  let (chomping, deeper, c) ← blockHeader? c
  let c ← c.lineEnd?
  let given := match deeper with
    | some n => (outer.getD 0) + n
    | none => 0
  let (empty, reached, c) ← blockBreaks? given (c.rest.length + 1) [] 0 c
  let least := match outer with
    | some n => n + 1
    | none => 0
  let indent := if given = 0 then max (max reached least) 1 else given
  let (b, c) ← blockLines? literal indent (c.rest.length + 1) ⟨[], [], empty, false⟩ c
  let last := if chomping = .strip then [] else b.last
  let tail := if chomping = .keep then b.empty else []
  return (b.text ++ last ++ tail, c)

end ReplicaRing.Yaml
