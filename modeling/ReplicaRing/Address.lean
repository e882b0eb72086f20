import ReplicaRing.Digits
import ReplicaRing.Space

/-!
# Socket addresses

The address a node listens at: an IPv4 or IPv6 address and a port. A node's
point is the digest of the text of its address, so an address has exactly one
text (`Address.text`), however it was written.

* An IPv4 address is four decimal numbers below 256 without leading zeros.
* An IPv6 address is eight hexadecimal groups of at most four digits; two colons
  stand for one or more groups of zeros, and the last two groups may be written
  as an IPv4 address. It is written between brackets, and a scope number may
  follow behind a percent sign.
-/

namespace ReplicaRing

/-- The address of a host. -/
inductive Host
  | v4 (octets : List Nat)
  /-- Eight groups of sixteen bits. -/
  | v6 (groups : List Nat) (scope : Nat)
deriving DecidableEq, Repr

/-- A host and a port. -/
structure Address where
  host : Host
  port : Nat
deriving DecidableEq, Repr

namespace Address

/-! ## Reading -/

/-- The number below `bound` at the front of a text, and the rest. All digits
    there belong to the number. -/
def number? (radix bound : Nat) (s : List Char) : Option (Nat × List Char) :=
  let digits := s.takeWhile fun c => (Digits.value? radix c).isSome
  ((Digits.number? radix digits).filter fun n => n < bound).map fun n =>
    (n, s.drop digits.length)

/-- The number of digits at the front of a text. -/
def digitCount (radix : Nat) (s : List Char) : Nat :=
  (s.takeWhile fun c => (Digits.value? radix c).isSome).length

/-- The rest of the text behind the character `c`. -/
def behind? (c : Char) : List Char → Option (List Char)
  | d :: rest => if d = c then some rest else none
  | [] => none

/-- A part of an IPv4 address: at most three digits, the first of several not
    zero. -/
def octet? (s : List Char) : Option (Nat × List Char) :=
  if digitCount 10 s > 3 ∨ (digitCount 10 s > 1 ∧ s.head? = some '0') then none
  else number? 10 256 s

/-- The four parts of an IPv4 address at the front of a text, and the rest. -/
def octets? (s : List Char) : Option (List Nat × List Char) := do
  let (a, s) ← octet? s
  let (b, s) ← octet? (← behind? '.' s)
  let (c, s) ← octet? (← behind? '.' s)
  let (d, s) ← octet? (← behind? '.' s)
  return ([a, b, c, d], s)

/-- A group of an IPv6 address. -/
def group? (s : List Char) : Option (Nat × List Char) :=
  if digitCount 16 s > 4 then none else number? 16 UInt16.size s

/-- What stands at the front of a text, behind a colon unless it is the first of
    its kind. -/
def separated? {α : Type} (first : Bool) (item? : List Char → Option (α × List Char))
    (s : List Char) : Option (α × List Char) :=
  if first then item? s else (behind? ':' s).bind item?

/-- At most `limit` groups at the front of a text, the last two of which may be
    an IPv4 address; whether they are, and the rest. -/
def groups (first : Bool) : (limit : Nat) → List Char → List Nat × Bool × List Char
  | 0, s => ([], false, s)
  | limit + 1, s =>
    let embedded := if limit = 0 then none else separated? first octets? s
    match embedded with
    | some ([a, b, c, d], rest) => ([a * 256 + b, c * 256 + d], true, rest)
    | _ =>
      match separated? first group? s with
      | none => ([], false, s)
      | some (g, rest) =>
        let (gs, dotted, rest) := groups false limit rest
        (g :: gs, dotted, rest)

/-- The eight groups of an IPv6 address at the front of a text, and the rest. -/
def v6? (s : List Char) : Option (List Nat × List Char) :=
  let (head, dotted, rest) := groups true 8 s
  if head.length = 8 then some (head, rest)
  else if dotted then none
  else do
    let rest ← behind? ':' (← behind? ':' rest)
    let (tail, _, rest) := groups true (7 - head.length) rest
    return (head ++ List.replicate (8 - head.length - tail.length) 0 ++ tail, rest)

/-- A colon and a port, and nothing after them. -/
def port? (s : List Char) : Option Nat := do
  let (port, rest) ← number? 10 UInt16.size (← behind? ':' s)
  if rest.isEmpty then some port else none

/-- The scope behind a percent sign; zero if there is none. -/
def scope? (s : List Char) : Option (Nat × List Char) :=
  match s with
  | '%' :: rest => number? 10 UInt32.size rest
  | s => some (0, s)

/-- The address that a text is. -/
def parse (text : String) : Option Address :=
  match text.toList with
  | '[' :: s => do
    let (gs, s) ← v6? s
    let (scope, s) ← scope? s
    return ⟨.v6 gs scope, ← port? (← behind? ']' s)⟩
  | s => do
    let (octets, s) ← octets? s
    return ⟨.v4 octets, ← port? s⟩

/-! ## Writing -/

/-- The text of the parts of an IPv4 address. -/
def octetsText (octets : List Nat) : String := ".".intercalate (octets.map toString)

/-- The text of a group: hexadecimal without leading zeros. -/
def groupText (g : Nat) : String := String.ofList (Nat.toDigits 16 g)

/-- Groups with colons between them. -/
def groupsText (gs : List Nat) : String := ":".intercalate (gs.map groupText)

/-- The number of zeros at the front. -/
def zeros (gs : List Nat) : Nat := (gs.takeWhile fun g => g = 0).length

/-- Where the longest run of zeros begins and how long it is; the first one of
    several. -/
def longestZeros (gs : List Nat) : Nat × Nat :=
  (List.range gs.length).foldl
    (fun best i => let n := zeros (gs.drop i); if n > best.2 then (i, n) else best) (0, 0)

/-- The text of an IPv6 address: two colons stand for the longest run of two or
    more zeros, and an IPv4 address in an IPv6 address is written as such. -/
def v6Text (gs : List Nat) : String :=
  match gs with
  | [0, 0, 0, 0, 0, 0xFFFF, x, y] =>
    "::ffff:" ++ octetsText [x / 256, x % 256, y / 256, y % 256]
  | gs =>
    let (start, n) := longestZeros gs
    if n > 1 then groupsText (gs.take start) ++ "::" ++ groupsText (gs.drop (start + n))
    else groupsText gs

/-- The text of the address. -/
def text (a : Address) : String :=
  match a.host with
  | .v4 octets => s!"{octetsText octets}:{a.port}"
  | .v6 gs 0 => s!"[{v6Text gs}]:{a.port}"
  | .v6 gs scope => s!"[{v6Text gs}%{scope}]:{a.port}"

end Address

/-- The point of the node that listens at the address. -/
def Space.node (space : Space) (a : Address) : Point := space.place (Bytes.ofString a.text)

end ReplicaRing
