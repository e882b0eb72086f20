import ReplicaRing.Bytes
import ReplicaRing.Yaml.Scalar

/-!
# YAML tokens

The marks and scalars of a text, one after the other (`Token.read?`). Indentation shows
in the tokens: a collection in the block context begins and ends with a token of its own.

That something is a key is known only from the colon behind it. So while tokens are
gathered (`Draft`) the place is kept in mind where a key may have begun, a *candidate*
for the block context and one for each open flow collection. When the colon comes, the
token of the key, and of the mapping if it is the first key of one, are put in front of
the candidate. A candidate lapses at the end of its line; in the block context a line
that begins at the column of its mapping has to have a key, and is an error without.
-/

namespace ReplicaRing.Yaml

/-- A mark or a scalar. -/
inductive Token
  /-- The version of YAML that a document claims to be written in. -/
  | version (major minor : Nat)
  /-- The name space that a handle of tags stands for. -/
  | handle (name space : String)
  | documentStart
  | documentEnd
  | blockSequence
  | blockMapping
  | blockEnd
  | flowSequence
  | flowSequenceEnd
  | flowMapping
  | flowMappingEnd
  /-- A dash in front of an item. -/
  | dash
  | comma
  | key
  | value
  | alias (name : String)
  | anchor (name : String)
  /-- A tag: a handle, empty for a tag written in full, and what stands behind. -/
  | tag (handle rest : String)
  | scalar (style : Style) (text : String)
deriving DecidableEq, Repr

/-- A place where a key may have begun. -/
structure Candidate where
  /-- The number of tokens before the place. -/
  before : Nat
  index : Nat
  line : Nat
  column : Nat
  /-- There has to be a key. -/
  required : Bool

/-- The tokens gathered so far. -/
structure Draft where
  cursor : Cursor
  /-- The tokens, the last one first. -/
  tokens : List Token
  /-- The columns of the open block collections, the innermost first. -/
  columns : List Nat
  /-- The candidates, that of the innermost flow collection first and that of the block
      context last. -/
  candidates : List (Option Candidate)
  /-- A key may begin at the next token. -/
  keyAllowed : Bool

namespace Draft

/-- No tokens yet. -/
def start (s : List Char) : Draft := ⟨.start s, [], [], [none], true⟩

/-- Within a flow collection. -/
def inFlow (d : Draft) : Bool := 1 < d.candidates.length

/-- One more token, `n` characters long. -/
def add (d : Draft) (t : Token) (n : Nat) : Draft :=
  { d with tokens := t :: d.tokens, cursor := d.cursor.skip n }

/-- A token behind the first `before` tokens. -/
def addBehind (d : Draft) (before : Nat) (t : Token) : Draft :=
  let later := d.tokens.length - before
  { d with tokens := d.tokens.take later ++ t :: d.tokens.drop later }

/-! ## Candidates -/

/-- The candidate of the innermost collection lapses; one that is required may not. -/
def dropCandidate? (d : Draft) : Option Draft :=
  match d.candidates with
  | some k :: outer => if k.required then none else some { d with candidates := none :: outer }
  | _ => some d

/-- The place is a candidate from now on, if a key may begin here. -/
def saveCandidate? (d : Draft) : Option Draft :=
  if d.keyAllowed then do
    let d ← d.dropCandidate?
    let c := d.cursor
    let required := !d.inFlow && d.columns.head? = some c.column
    let k : Candidate := ⟨d.tokens.length, c.index, c.line, c.column, required⟩
    return { d with candidates := some k :: d.candidates.drop 1 }
  else some d

/-- A key takes up one line, and no more than 1024 characters of it. -/
def isStale (d : Draft) (k : Candidate) : Bool :=
  k.line < d.cursor.line || k.index + 1024 < d.cursor.index

/-- Candidates that the text has left behind lapse. -/
def dropStale? (d : Draft) : Option Draft :=
  let stale (k : Candidate) : Bool := d.isStale k
  if d.candidates.any fun k => k.any fun k => stale k && k.required then none
  else some { d with candidates := d.candidates.map fun k => k.filter fun k => !stale k }

/-! ## Nesting -/

/-- Block collections end whose columns satisfy `p`. -/
def closeWhile (d : Draft) (p : Nat → Bool) : Draft :=
  let n := (d.columns.takeWhile p).length
  { d with
    tokens := List.replicate n .blockEnd ++ d.tokens
    columns := d.columns.drop n }

/-- Block collections end that lie further to the right than the position. -/
def unindent (d : Draft) : Draft :=
  if d.inFlow then d else d.closeWhile fun column => d.cursor.column < column

/-- A block collection begins at `column`, with the token `t` behind the first `before`
    tokens, unless it is open already. -/
def indent (d : Draft) (column before : Nat) (t : Token) : Draft :=
  if !d.inFlow && d.columns.head?.all fun outer => outer < column then
    { d with columns := column :: d.columns }.addBehind before t
  else d

/-- Behind blanks, comments and line breaks. A tab is no blank where a key may begin. -/
def skipBlank : (fuel : Nat) → Draft → Draft
  | 0, d => d
  | fuel + 1, d =>
    let tabs := d.inFlow || !d.keyAllowed
    let (_, c) := d.cursor.span fun ch => ch = ' ' || (tabs && ch = '\t')
    let (_, c) := if c.sees '#' then c.span fun ch => !isBreak ch else ([], c)
    if c.rest.head?.any isBreak then
      skipBlank fuel { d with cursor := c.newline.2, keyAllowed := d.keyAllowed || !d.inFlow }
    else { d with cursor := c }

/-! ## Marks -/

/-- All block collections end, and no key has begun. -/
def closeAll? (d : Draft) : Option Draft := do
  let d ← (if d.inFlow then d else d.closeWhile fun _ => true).dropCandidate?
  return { d with keyAllowed := false }

/-- A flow collection begins. -/
def openFlow? (d : Draft) (t : Token) : Option Draft := do
  let d ← d.saveCandidate?
  return { d.add t 1 with candidates := none :: d.candidates, keyAllowed := true }

/-- A flow collection ends. -/
def closeFlow? (d : Draft) (t : Token) : Option Draft := do
  let d ← d.dropCandidate?
  let candidates := if d.inFlow then d.candidates.drop 1 else d.candidates
  return { d.add t 1 with candidates, keyAllowed := false }

/-- A comma. -/
def comma? (d : Draft) : Option Draft := do
  let d ← d.dropCandidate?
  return { d.add .comma 1 with keyAllowed := true }

/-- In the block context the part of a collection that begins with the token `t` may only
    stand where a key may, and begins the collection if it is the first. -/
def beginPart? (d : Draft) (t : Token) : Option Draft :=
  if d.inFlow then some d
  else if d.keyAllowed then some (d.indent d.cursor.column d.tokens.length t)
  else none

/-- A dash in front of an item. -/
def dash? (d : Draft) : Option Draft := do
  let d ← (← d.beginPart? .blockSequence).dropCandidate?
  return { d.add .dash 1 with keyAllowed := true }

/-- A question mark in front of a key. -/
def key? (d : Draft) : Option Draft := do
  let d ← (← d.beginPart? .blockMapping).dropCandidate?
  return { d.add .key 1 with keyAllowed := !d.inFlow }

/-- A colon in front of a value. -/
def value? (d : Draft) : Option Draft :=
  match d.candidates with
  | some k :: outer =>
    let d := (d.addBehind k.before .key).indent k.column k.before .blockMapping
    some ({ d with candidates := none :: outer, keyAllowed := false }.add .value 1)
  | _ => do
    let d ← d.beginPart? .blockMapping
    return { d.add .value 1 with keyAllowed := !d.inFlow }

/-! ## Properties -/

/-- A name behind an ampersand or an asterisk. -/
def name? (d : Draft) (token : String → Token) : Option Draft := do
  let d ← d.saveCandidate?
  let (name, c) := (d.cursor.skip 1).span isWord
  if name.isEmpty then none
  else if c.endsAt 0 || (c.rest.head?.any fun ch => "?:,]\x7d%@\x60".toList.contains ch) then
    return { d with
      cursor := c, keyAllowed := false, tokens := token (String.ofList name) :: d.tokens }
  else none

/-- A character of a tag. Commas and brackets are such only in a tag that is written in
    full. -/
def isTagChar (full : Bool) (c : Char) : Bool :=
  isWord c || ";/?:@&=+$.%!~*'()".toList.contains c || (full && ",[]".toList.contains c)

/-- The bytes of a tag: escapes stand for the byte that they spell. -/
def tagBytes? : List Char → Option Bytes
  | [] => some []
  | '%' :: a :: b :: rest => do
    let n ← Digits.number? 16 [a, b]
    return UInt8.ofNat n :: (← tagBytes? rest)
  | '%' :: _ => none
  | c :: rest => do return Bytes.ofString (String.singleton c) ++ (← tagBytes? rest)

/-- The text of a tag. -/
def tagText? (s : List Char) : Option String := (tagBytes? s).bind Bytes.toString?

/-- A handle at a position: an exclamation mark, or a word between two of them. -/
def handleAt (c : Cursor) : List Char × Cursor :=
  let (word, c') := (c.skip 1).span isWord
  if c'.sees '!' then ('!' :: word ++ ['!'], c'.skip 1) else ('!' :: word, c')

/-- The tag at a position, and the position behind it. -/
def tagAt? (c : Cursor) : Option (Token × Cursor) :=
  if (c.skip 1).sees '<' then do
    let (s, c) := (c.skip 2).span (isTagChar true)
    if s.isEmpty || !c.sees '>' then none else return (.tag "" (← tagText? s), c.skip 1)
  else
    let (handle, behind) := handleAt c
    if 1 < handle.length && handle.getLast? = some '!' then do
      let (s, c) := behind.span (isTagChar false)
      if s.isEmpty then none else return (.tag (String.ofList handle) (← tagText? s), c)
    else do
      let (s, c) := (c.skip 1).span (isTagChar false)
      let rest ← tagText? s
      return (if rest.isEmpty then .tag "" "!" else .tag "!" rest, c)

/-- A tag. -/
def tag? (d : Draft) : Option Draft := do
  let d ← d.saveCandidate?
  let (t, c) ← tagAt? d.cursor
  if c.endsAt 0 || (d.inFlow && c.sees ',') then
    return { d with cursor := c, keyAllowed := false, tokens := t :: d.tokens }
  else none

/-- A decimal number of at most nine digits at a position. -/
def decimalAt? (c : Cursor) : Option (Nat × Cursor) := do
  let (digits, c) := c.span Char.isDigit
  if 9 < digits.length then none else return (← Digits.number? 10 digits, c)

/-- The directive at a position, and the position behind it. -/
def directiveAt? (c : Cursor) : Option (Token × Cursor) := do
  let (name, c) := (c.skip 1).span isWord
  if !c.endsAt 0 then none
  let (_, c) := c.span isBlank
  match String.ofList name with
  | "YAML" =>
    let (major, c) ← decimalAt? c
    if !c.sees '.' then none
    let (minor, c) ← decimalAt? (c.skip 1)
    return (.version major minor, c)
  | "TAG" =>
    if !c.sees '!' then none
    let (handle, c) := handleAt c
    if 1 < handle.length && handle.getLast? ≠ some '!' then none
    if !c.rest.head?.any isBlank then none
    let (_, c) := c.span isBlank
    let (space, c) := c.span (isTagChar true)
    if space.isEmpty || !c.endsAt 0 then none
    return (.handle (String.ofList handle) (← tagText? space), c)
  | _ => none

/-- A directive. -/
def directive? (d : Draft) : Option Draft := do
  let d ← d.closeAll?
  let (t, c) ← directiveAt? d.cursor
  return { d with tokens := t :: d.tokens, cursor := ← c.lineEnd? }

/-! ## Scalars -/

/-- A scalar with the text `text` that ends in front of `cursor`. -/
def addScalar (d : Draft) (style : Style) (text : List Char) (cursor : Cursor)
    (keyAllowed : Bool) : Draft :=
  { d with cursor, keyAllowed, tokens := .scalar style (String.ofList text) :: d.tokens }

/-- A block of lines. -/
def block? (d : Draft) (style : Style) : Option Draft := do
  let d ← d.dropCandidate?
  let (text, c) ← Yaml.block? (style = .literal) d.columns.head? (d.cursor.skip 1)
  return d.addScalar style text c true

/-- A scalar between quotes. -/
def quoted? (d : Draft) (single : Bool) : Option Draft := do
  let d ← d.saveCandidate?
  let (text, c) ← Yaml.quoted? single d.cursor.rest.length [] (d.cursor.skip 1)
  return d.addScalar .quoted text c false

/-- A plain scalar. A key may follow on a new line. -/
def plain? (d : Draft) : Option Draft := do
  let d ← d.saveCandidate?
  let indent := match d.columns.head? with
    | some column => column + 1
    | none => 0
  let (text, gap, c) ← Yaml.plain? d.inFlow indent (d.cursor.rest.length + 1) [] .none d.cursor
  return d.addScalar .plain text c gap.hasBreak

/-- A plain scalar may begin with `ch`. -/
def beginsPlain (d : Draft) (ch : Char) : Bool :=
  let next := d.cursor.skip 1
  if ch = '-' then !next.rest.head?.any isBlank
  else if ch = '?' || ch = ':' then !d.inFlow && !next.endsAt 0
  else !isBlank ch && !",[]\x7b\x7d#&*!|>'\"%@\x60".toList.contains ch

/-! ## All tokens -/

/-- The next token, at a position that is not the end. -/
def next? (d : Draft) : Option Draft :=
  let c := d.cursor
  let open_ := d.inFlow || c.endsAt 1
  match c.rest.head? with
  | none => none
  | some ch =>
    if ch = '%' && c.column = 0 then d.directive?
    else if c.marks '-' then do return (← d.closeAll?).add .documentStart 3
    else if c.marks '.' then do return (← d.closeAll?).add .documentEnd 3
    else if ch = '[' then d.openFlow? .flowSequence
    else if ch = '\x7b' then d.openFlow? .flowMapping
    else if ch = ']' then d.closeFlow? .flowSequenceEnd
    else if ch = '\x7d' then d.closeFlow? .flowMappingEnd
    else if ch = ',' then d.comma?
    else if ch = '-' && c.endsAt 1 then d.dash?
    else if ch = '?' && open_ then d.key?
    else if ch = ':' && open_ then d.value?
    else if ch = '*' then d.name? .alias
    else if ch = '&' then d.name? .anchor
    else if ch = '!' then d.tag?
    else if ch = '|' && !d.inFlow then d.block? .literal
    else if ch = '>' && !d.inFlow then d.block? .folded
    else if ch = '\'' then d.quoted? true
    else if ch = '"' then d.quoted? false
    else if d.beginsPlain ch then d.plain?
    else none

/-- The tokens up to the end of the text. -/
def finish? : (fuel : Nat) → Draft → Option (List Token)
  | 0, _ => none
  | fuel + 1, d => do
    let d ← (d.skipBlank (d.cursor.rest.length + 1)).dropStale?
    let d := d.unindent
    if d.cursor.atEnd then return (← d.closeAll?).tokens.reverse
    else finish? fuel (← d.next?)

end Draft

/-- The tokens of a text. -/
def Token.read? (text : String) : Option (List Token) :=
  let s := text.toList
  if s.all isAllowed then (Draft.start s).finish? (s.length + 1) else none

end ReplicaRing.Yaml
