import ReplicaRing.Yaml.Token

/-!
# YAML documents

A document is a tree of scalars, sequences and mappings (`Node`). A node may carry an
anchor, and an alias stands for the node with its anchor; as that may be a node around
the alias, an alias stays in the tree and is looked up when it is needed
(`Document.resolve`).

A node left out where one is due is an empty plain scalar.
-/

namespace ReplicaRing.Yaml

/-- A node of a document. -/
inductive Node
  /-- A scalar, with its tag if it has one. -/
  | scalar (style : Style) (tag : Option String) (text : String)
  | sequence (items : List Node)
  | mapping (members : List (Node × Node))
  /-- The node with the anchor of the given number. -/
  | alias (number : Nat)
deriving Repr

/-- The scalar that stands for a node left out. -/
def Node.empty (tag : Option String) : Node := .scalar .plain tag ""

/-- A document. -/
structure Document where
  root : Node
  /-- The nodes with anchors, by number. -/
  anchored : List (Nat × Node)
deriving Repr

/-- The node itself, or the one that an alias stands for. -/
def Document.resolve (doc : Document) : Node → Node
  | .alias number => (doc.anchored.lookup number).getD (.alias number)
  | node => node

/-! ## Reading -/

/-- How far the tokens of a document have been read. -/
structure Reader where
  tokens : List Token
  /-- The numbers of the anchors so far, the last one first. -/
  numbers : List (String × Nat)
  anchored : List (Nat × Node)
  /-- What the handles of tags stand for. -/
  handles : List (String × String)

namespace Reader

/-- Behind the next token. -/
def skip (r : Reader) : Reader := { r with tokens := r.tokens.drop 1 }

/-- The next token is `t`. -/
def sees (r : Reader) (t : Token) : Bool := r.tokens.head? = some t

/-- The next token is one of `ts`, or there is none. -/
def seesOneOf (r : Reader) (ts : List Token) : Bool := r.tokens.head?.all (ts.contains ·)

/-- The whole text of a tag. -/
def expand? (r : Reader) (handle rest : String) : Option String :=
  if handle.isEmpty then some rest else (r.handles.lookup handle).map (· ++ rest)

/-- The anchor and the tag in front of a node, in any order. -/
def properties? (r : Reader) : Option (Option String × Option String × Reader) :=
  match r.tokens with
  | .anchor name :: .tag handle rest :: _ | .tag handle rest :: .anchor name :: _ => do
    return (name, ← r.expand? handle rest, r.skip.skip)
  | .anchor name :: _ => some (name, none, r.skip)
  | .tag handle rest :: _ => do return (none, ← r.expand? handle rest, r.skip)
  | _ => some (none, none, r)

/-- The reader after an anchor, and the number of the anchor. -/
def number (r : Reader) : Option String → Option Nat × Reader
  | none => (none, r)
  | some name =>
    let n := r.numbers.length
    (some n, { r with numbers := (name, n) :: r.numbers })

/-- The reader after the node with the given anchor. -/
def record (r : Reader) (number : Option Nat) (node : Node) : Reader :=
  { r with anchored := (number.map fun n => (n, node)).toList ++ r.anchored }

/-- A node left out. -/
def omitted (r : Reader) : Option (Node × Reader) := some (.empty none, r)

end Reader

namespace Node

/-- A node left out behind its properties. -/
def missing (tag : Option String) (properties : Bool) (r : Reader) : Option (Node × Reader) :=
  if properties then some (.empty tag, r) else none

mutual

/-- A node. Only in the block context it may be a block collection, and only as part of
    a block mapping a sequence without an indentation of its own. -/
def read? : (fuel : Nat) → (block bare : Bool) → Reader → Option (Node × Reader)
  | 0, _, _, _ => none
  | fuel + 1, block, bare, r =>
    match r.tokens with
    | .alias name :: _ => do return (.alias (← r.numbers.lookup name), r.skip)
    | _ => do
      let (anchor, tag, r) ← r.properties?
      let (number, r) := r.number anchor
      let (node, r) ← content? fuel block bare tag (anchor.isSome || tag.isSome) r
      return (node, r.record number node)

/-- What stands behind the properties of a node, if there are any; then it may be left
    out. -/
def content? : (fuel : Nat) → (block bare : Bool) → (tag : Option String) →
    (properties : Bool) → Reader → Option (Node × Reader)
  | 0, _, _, _, _, _ => none
  | fuel + 1, block, bare, tag, properties, r =>
    match r.tokens, block with
    | .scalar style text :: _, _ => some (.scalar style tag text, r.skip)
    | .flowSequence :: _, _ => flowItems? fuel true [] r.skip
    | .flowMapping :: _, _ => flowMembers? fuel true [] r.skip
    | .blockSequence :: _, true => blockItems? fuel [] r.skip
    | .blockMapping :: _, true => blockMembers? fuel [] r.skip
    | .dash :: _, _ => if bare then bareItems? fuel [] r else missing tag properties r
    | _, _ => missing tag properties r

/-- The items of a block sequence. -/
def blockItems? : (fuel : Nat) → List Node → Reader → Option (Node × Reader)
  | 0, _, _ => none
  | fuel + 1, items, r =>
    match r.tokens with
    | .blockEnd :: _ => some (.sequence items, r.skip)
    | .dash :: _ => do
      let r := r.skip
      let (item, r) ←
        if r.seesOneOf [.dash, .blockEnd] then r.omitted else read? fuel true false r
      blockItems? fuel (items ++ [item]) r
    | _ => none

/-- The items of a sequence without an indentation of its own. -/
def bareItems? : (fuel : Nat) → List Node → Reader → Option (Node × Reader)
  | 0, _, _ => none
  | fuel + 1, items, r =>
    if r.sees .dash then do
      let r := r.skip
      let (item, r) ←
        if r.seesOneOf [.dash, .key, .value, .blockEnd] then r.omitted
        else read? fuel true false r
      bareItems? fuel (items ++ [item]) r
    else some (.sequence items, r)

/-- A key or a value of a block mapping, behind its mark. -/
def blockPart? : (fuel : Nat) → Reader → Option (Node × Reader)
  | 0, _ => none
  | fuel + 1, r =>
    if r.seesOneOf [.key, .value, .blockEnd] then r.omitted else read? fuel true true r

/-- The members of a block mapping. -/
def blockMembers? : (fuel : Nat) → List (Node × Node) → Reader → Option (Node × Reader)
  | 0, _, _ => none
  | fuel + 1, members, r =>
    match r.tokens with
    | .blockEnd :: _ => some (.mapping members, r.skip)
    | .key :: _ => do
      let (key, r) ← blockPart? fuel r.skip
      let (value, r) ← if r.sees .value then blockPart? fuel r.skip else r.omitted
      blockMembers? fuel (members ++ [(key, value)]) r
    | _ => none

/-- The value behind a key in a flow collection that ends with `close`. -/
def flowValue? : (fuel : Nat) → (close : Token) → Reader → Option (Node × Reader)
  | 0, _, _ => none
  | fuel + 1, close, r =>
    if r.sees .value && !r.skip.seesOneOf [.comma, close] then read? fuel false false r.skip
    else if r.sees .value then r.skip.omitted
    else r.omitted

/-- The items of a flow sequence. A key makes an item a mapping with one member. -/
def flowItems? : (fuel : Nat) → (first : Bool) → List Node → Reader → Option (Node × Reader)
  | 0, _, _, _ => none
  | fuel + 1, first, items, r =>
    if r.sees .flowSequenceEnd then some (.sequence items, r.skip)
    else do
      let r ← if first then some r else if r.sees .comma then some r.skip else none
      if r.sees .flowSequenceEnd then return (.sequence items, r.skip)
      if r.sees .key then
        let r := r.skip
        let (key, r) ←
          if r.seesOneOf [.value, .comma, .flowSequenceEnd] then r.omitted
          else read? fuel false false r
        let (value, r) ← flowValue? fuel .flowSequenceEnd r
        flowItems? fuel false (items ++ [.mapping [(key, value)]]) r
      else
        let (item, r) ← read? fuel false false r
        flowItems? fuel false (items ++ [item]) r

/-- The members of a flow mapping. -/
def flowMembers? : (fuel : Nat) → (first : Bool) → List (Node × Node) → Reader →
    Option (Node × Reader)
  | 0, _, _, _ => none
  | fuel + 1, first, members, r =>
    if r.sees .flowMappingEnd then some (.mapping members, r.skip)
    else do
      let r ← if first then some r else if r.sees .comma then some r.skip else none
      if r.sees .flowMappingEnd then return (.mapping members, r.skip)
      if r.sees .key then
        let r := r.skip
        let (key, r) ←
          if r.seesOneOf [.value, .comma, .flowMappingEnd] then r.omitted
          else read? fuel false false r
        let (value, r) ← flowValue? fuel .flowMappingEnd r
        flowMembers? fuel false (members ++ [(key, value)]) r
      else
        let (key, r) ← read? fuel false false r
        flowMembers? fuel false (members ++ [(key, .empty none)]) r

end

end Node

namespace Document

/-- The handles of tags that every document knows. -/
def commonHandles : List (String × String) := [("!", "!"), ("!!", "tag:yaml.org,2002:")]

/-- Reads the directives in front of a document: at most one version, which has to be
    1.1 or 1.2, and no handle twice. -/
def directives? (versioned : Bool) (handles : List (String × String)) :
    List Token → Option (List (String × String) × List Token)
  | .version major minor :: rest =>
    if versioned || major ≠ 1 || (minor ≠ 1 && minor ≠ 2) then none
    else directives? true handles rest
  | .handle name space :: rest =>
    if (handles.lookup name).isSome then none
    else directives? versioned ((name, space) :: handles) rest
  | rest => some (handles ++ commonHandles, rest)

/-- The document that the tokens of a text make up; there has to be exactly one. A mark
    in front of it is needed only behind directives. -/
def ofTokens? (tokens : List Token) : Option Document := do
  let (handles, rest) ← directives? false [] tokens
  let marked := rest.head? = some .documentStart
  if !marked && rest.length < tokens.length then none
  if rest.isEmpty then none
  let r : Reader := ⟨if marked then rest.drop 1 else rest, [], [], handles⟩
  let bare := marked && r.seesOneOf [.documentStart, .documentEnd]
  let (root, r) ← if bare then r.omitted else Node.read? (8 * tokens.length + 8) true false r
  if (r.tokens.dropWhile (· = .documentEnd)).isEmpty then return ⟨root, r.anchored⟩ else none

/-- The document that a text is. -/
def parse? (text : String) : Option Document := (Token.read? text).bind ofTokens?

end Document

end ReplicaRing.Yaml
