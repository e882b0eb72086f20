import ReplicaRing.Yaml.Node

/-!
# Values in YAML documents

What a node says when text, a number, a choice or a section is looked for. Text may be
written in any way; a number has to be a plain scalar, or a literal block that is tagged
as a number. Where a section is looked for a node left out is a section without members.
-/

namespace ReplicaRing.Yaml

/-- The whole number that a text spells: decimal digits without a leading zero, or other
    digits behind `0x`, `0o` or `0b`. A plus may stand in front. -/
def wholeNumber? (s : String) : Option Nat :=
  let s := match s.toList with
    | '+' :: s => s
    | s => s
  match s with
  | '0' :: 'x' :: s => Digits.number? 16 s
  | '0' :: 'o' :: s => Digits.number? 8 s
  | '0' :: 'b' :: s => Digits.number? 2 s
  | ['0'] => some 0
  | '0' :: _ => none
  | s => Digits.number? 10 s

namespace Document

variable (doc : Document)

/-- The text that a node says. -/
def text? (node : Node) : Option String :=
  match doc.resolve node with
  | .scalar _ _ s => some s
  | _ => none

/-- The number below `bound` that a node says. -/
def number? (bound : Nat) (node : Node) : Option Nat :=
  match doc.resolve node with
  | .scalar .plain _ s | .scalar .literal (some "tag:yaml.org,2002:int") s =>
    (wholeNumber? s).filter fun n => n < bound
  | _ => none

/-- The words for nothing. -/
def nullWords : List String := ["~", "null", "Null", "NULL"]

/-- What a node says that may also say nothing. -/
def optional? {α : Type} (read : Node → Option α) (node : Node) : Option (Option α) :=
  match doc.resolve node with
  | .scalar .plain none s =>
    if s.isEmpty || nullWords.contains s then some none else (read node).map some
  | .scalar .plain (some "tag:yaml.org,2002:null") s =>
    if nullWords.contains s then some none else none
  | _ => (read node).map some

/-- The members of a section by their names. -/
def section? (node : Node) : Option (List (String × Node)) :=
  match doc.resolve node with
  | .mapping members => members.mapM fun (key, value) => do return (← doc.text? key, value)
  | .scalar .plain _ "" => some []
  | _ => none

end Document

/-- The value of the member `name`, or `absent` if there is no such member; there may not
    be two. -/
def member? {α : Type} (members : List (String × Node)) (name : String)
    (read : Node → Option α) (absent : Option α) : Option α :=
  match members.filter fun m => m.1 = name with
  | [] => absent
  | [(_, node)] => read node
  | _ => none

/-- A character between double quotes: printable ASCII as it is, everything else by its
    code point. -/
def quoteChar (c : Char) : List Char :=
  if c = '"' || c = '\\' then ['\\', c]
  else if 0x20 ≤ c.toNat && c.toNat ≤ 0x7E then [c]
  else
    let digits := Nat.toDigits 16 c.toNat
    ['\\', 'U'] ++ List.replicate (8 - digits.length) '0' ++ digits

/-- The text as a scalar between double quotes. -/
def quote (s : String) : String :=
  String.ofList ('"' :: (s.toList.flatMap quoteChar ++ ['"']))

end ReplicaRing.Yaml
