import ReplicaRing.Checksum

/-!
# The time index of a key

An index tells where in a key's data file the value written at a given time
ends. It is a B+ tree that only grows at its right edge: times strictly
increase, and ends never go back.

The tree's pages live in one array and name each other by number. Leaf pages
hold the entries and are linked to both neighbours; branch pages hold, between
two children, the least time below the child on the right. With `d` the fanout
of the index, at least 2, a page is split as soon as it holds more than `2 * d`
entries or keys; the left page keeps `d` of them, and the right page, a new one,
gets the rest.

A value begins where the one before it ends (`Index.Span`). An index answers
three questions: the span of the last value (`latest`), of the value in force at
a time (`asOf`), and of all values of a stretch of time (`range`).
-/

namespace ReplicaRing

/-- Milliseconds since the epoch. -/
abbrev Time := UInt64

/-- A position in a data file. -/
abbrev Offset := UInt64

namespace Index

/-- One value: when it was written and where its bytes end. -/
structure Entry where
  time : Time
  stop : Offset
deriving DecidableEq, Repr

/-- The bytes of a value in a data file, from `start` up to `stop`. A value of no
    bytes is a tombstone. -/
structure Span where
  start : Offset
  stop : Offset
deriving DecidableEq, Repr

/-- The number of bytes. -/
def Span.length (s : Span) : Offset := s.stop - s.start

/-- There are no bytes. -/
def Span.isEmpty (s : Span) : Bool := s.stop = s.start

/-- What is wrong with an index file. -/
inductive Damage
  | shortHeader (length : Nat)
  | badMagic
  | unsupportedVersion (version : UInt8)
  | recordLength (number length : Nat)
  | recordChecksum (number : Nat) (expected got : UInt32)
  /-- Bytes that make up no whole record. -/
  | trailing (length : Nat)
deriving DecidableEq, Repr

/-- The text of the damage. -/
def Damage.message : Damage → String
  | .shortHeader n => s!"{n} bytes is shorter than the header"
  | .badMagic => "bad magic"
  | .unsupportedVersion v => s!"unsupported version {v}"
  | .recordLength i n => s!"record {i} is {n} bytes"
  | .recordChecksum i expected got =>
    s!"record {i} checksum mismatch: expected {Checksum.text expected}, got {Checksum.text got}"
  | .trailing n => s!"trailing {n} bytes after the last record"

/-- Why an index refuses an entry or a file is no index. -/
inductive Error
  | nonMonotonic (last got : Time)
  | offsetRegression (last got : Offset)
  | corrupt (damage : Damage)
deriving DecidableEq, Repr

/-- The name of the kind of error. -/
def Error.kind : Error → String
  | .nonMonotonic _ _ => "NonMonotonic"
  | .offsetRegression _ _ => "OffsetRegression"
  | .corrupt _ => "Corrupt"

/-- The text of the error. -/
def Error.message : Error → String
  | .nonMonotonic last got =>
    s!"timestamp {got} is not after the latest indexed timestamp {last}"
  | .offsetRegression last got =>
    s!"end offset {got} precedes the latest indexed end offset {last}"
  | .corrupt damage => "corrupt index: " ++ damage.message

/-- A page of the tree. -/
inductive Page
  /-- Entries in order of time, and the neighbouring leaves. -/
  | leaf (entries : List Entry) (prev next : Option Nat)
  /-- One more child than there are keys. -/
  | branch (keys : List Time) (children : List Nat)
deriving DecidableEq, Repr

end Index

/-- A B+ tree of entries. -/
structure Index where
  /-- The least number of entries or keys of a page that is not the root. -/
  fanout : Nat
  pages : Array Index.Page
  root : Nat
  firstLeaf : Nat
  lastLeaf : Nat
  /-- The number of entries. -/
  size : Nat
deriving Repr

namespace Index

/-- The index without entries: one empty leaf. -/
def empty (fanout : Nat) : Index where
  fanout := max fanout 2
  pages := #[.leaf [] none none]
  root := 0
  firstLeaf := 0
  lastLeaf := 0
  size := 0

/-! ## Pages -/

/-- The entries of leaf `i`. -/
def entriesAt (x : Index) (i : Nat) : List Entry :=
  match x.pages[i]? with
  | some (.leaf es _ _) => es
  | _ => []

/-- The leaf before leaf `i`. -/
def prevOf (x : Index) (i : Nat) : Option Nat :=
  match x.pages[i]? with
  | some (.leaf _ prev _) => prev
  | _ => none

/-- The leaf after leaf `i`. -/
def nextOf (x : Index) (i : Nat) : Option Nat :=
  match x.pages[i]? with
  | some (.leaf _ _ next) => next
  | _ => none

/-- The number of levels from page `i` down to the leaves. No way down is longer
    than there are pages. -/
def depthFrom (x : Index) : (fuel : Nat) → Nat → Nat
  | 0, _ => 1
  | fuel + 1, i =>
    match x.pages[i]? with
    | some (.branch _ (c :: _)) => depthFrom x fuel c + 1
    | _ => 1

/-- The number of levels; 1 for a lone leaf. -/
def depth (x : Index) : Nat := x.depthFrom x.pages.size x.root

/-- The last entry. -/
def last? (x : Index) : Option Entry := (x.entriesAt x.lastLeaf).getLast?

/-! ## Growing -/

/-- The pages from the leaf below page `i` whose stretch of time contains `t` up to
    page `i`. -/
def pathFrom (x : Index) (t : Time) : (fuel : Nat) → Nat → List Nat
  | 0, i => [i]
  | fuel + 1, i =>
    match x.pages[i]? with
    | some (.branch keys cs) =>
      match cs[(keys.takeWhile (· ≤ t)).length]? with
      | some c => pathFrom x t fuel c ++ [i]
      | none => [i]
    | _ => [i]

/-- The pages from the leaf whose stretch of time contains `t` up to the root. -/
def path (x : Index) (t : Time) : List Nat := x.pathFrom t x.pages.size x.root

/-- The leaf `next`, if there is one, comes after the leaf `prev` now. -/
def linkBack (pages : Array Page) (next : Option Nat) (prev : Nat) : Array Page :=
  match next with
  | none => pages
  | some j =>
    match pages[j]? with
    | some (.leaf es _ next) => pages.setIfInBounds j (.leaf es (some prev) next)
    | _ => pages

/-- Page `i`, split if it is overfull, with the key that separates the halves and
    the number of the new right half. A page is overfull when it has more than
    twice the fanout; that number has to fit into a word of the machine, as it
    does for every fanout below `2 ^ 63`. An index file holds a fanout in two
    bytes, so one that is read has a far smaller one. -/
def splitPage (x : Index) (i : Nat) : Index × Option (Time × Nat) :=
  let new := x.pages.size
  match x.pages[i]? with
  | some (.leaf es prev next) =>
    if es.length ≤ 2 * x.fanout then (x, none)
    else match es.drop x.fanout with
      | [] => (x, none)
      | e :: rest =>
        let pages := x.pages.setIfInBounds i (.leaf (es.take x.fanout) prev (some new))
        ({ x with
            pages := (linkBack pages next new).push (.leaf (e :: rest) (some i) next)
            lastLeaf := if x.lastLeaf = i then new else x.lastLeaf }, some (e.time, new))
  | some (.branch keys cs) =>
    if keys.length ≤ 2 * x.fanout then (x, none)
    else match keys.drop x.fanout with
      | [] => (x, none)
      | k :: rest =>
        ({ x with
            pages := (x.pages.setIfInBounds i
              (.branch (keys.take x.fanout) (cs.take (x.fanout + 1)))).push
              (.branch rest (cs.drop (x.fanout + 1))) }, some (k, new))
  | none => (x, none)

/-- A key, put in its place among the keys of branch `i`, and the child on its
    right. -/
def addChild (x : Index) (i : Nat) (key : Time) (child : Nat) : Index :=
  match x.pages[i]? with
  | some (.branch keys cs) =>
    let slot := (keys.takeWhile (· ≤ key)).length
    { x with
      pages := x.pages.setIfInBounds i
        (.branch (keys.insertIdx slot key) (cs.insertIdx (slot + 1) child)) }
  | _ => x

/-- Page `i` split if it is overfull, and then the pages above it, given from the
    nearest up. If the root is split, a new root is put above its halves. -/
def splitUp (x : Index) (i : Nat) : List Nat → Index
  | [] =>
    match x.splitPage i with
    | (x, none) => x
    | (x, some (key, right)) =>
      { x with pages := x.pages.push (.branch [key] [i, right]), root := x.pages.size }
  | parent :: above =>
    match x.splitPage i with
    | (x, none) => x
    | (x, some (key, right)) => (x.addChild parent key right).splitUp parent above

/-- Why an entry may not follow the last one: its time has to be later, and its
    end not before. -/
def refusal? (last : Option Entry) (e : Entry) : Option Error :=
  match last with
  | none => none
  | some l =>
    if e.time ≤ l.time then some (.nonMonotonic l.time e.time)
    else if e.stop < l.stop then some (.offsetRegression l.stop e.stop)
    else none

/-- The entry put in its place among those of leaf `i`. -/
def addToLeaf (x : Index) (i : Nat) (e : Entry) : Index :=
  match x.pages[i]? with
  | some (.leaf es prev next) =>
    let pos := (es.takeWhile (·.time < e.time)).length
    { x with
      pages := x.pages.setIfInBounds i (.leaf (es.insertIdx pos e) prev next)
      size := x.size + 1 }
  | _ => x

/-- The index with one more entry. -/
def insert (x : Index) (e : Entry) : Except Error Index :=
  match refusal? x.last? e with
  | some err => .error err
  | none =>
    match x.path e.time with
    | [] => .ok x
    | leaf :: above => .ok ((x.addToLeaf leaf e).splitUp leaf above)

/-! ## Asking -/

/-- The leaf below page `i` whose stretch of time contains `t`. -/
def leafFrom (x : Index) (t : Time) : (fuel : Nat) → Nat → Nat
  | 0, i => i
  | fuel + 1, i =>
    match x.pages[i]? with
    | some (.branch keys cs) =>
      match cs[(keys.takeWhile (· ≤ t)).length]? with
      | some c => leafFrom x t fuel c
      | none => i
    | _ => i

/-- The leaf whose stretch of time contains `t`. -/
def leafFor (x : Index) (t : Time) : Nat := x.leafFrom t x.pages.size x.root

/-- Where the value before the one at position `pos` of leaf `i` ends; zero if
    there is none. -/
def endBefore (x : Index) (i pos : Nat) : Offset :=
  let before := if pos = 0 then (x.prevOf i).bind fun p => (x.entriesAt p).getLast?
    else (x.entriesAt i)[pos - 1]?
  match before with
  | some e => e.stop
  | none => 0

/-- The span of the entry at position `pos` of leaf `i`. -/
def spanAt (x : Index) (i pos : Nat) : Option Span :=
  (x.entriesAt i)[pos]?.map fun e => ⟨x.endBefore i pos, e.stop⟩

/-- The span of the last entry of leaf `i`. -/
def lastSpanAt (x : Index) (i : Nat) : Option Span :=
  match (x.entriesAt i).length with
  | 0 => none
  | n + 1 => x.spanAt i n

/-- The span of the last value. -/
def latest (x : Index) : Option Span := x.lastSpanAt x.lastLeaf

/-- The span of the value in force at time `t`. -/
def asOf (x : Index) (t : Time) : Option Span :=
  match x.last? with
  | none => none
  | some l =>
    if l.time ≤ t then x.latest
    else
      let leaf := x.leafFor t
      match ((x.entriesAt leaf).takeWhile (·.time ≤ t)).length with
      | pos + 1 => x.spanAt leaf pos
      -- Everything in the leaf is later: the value is the last one before it.
      | 0 => (x.prevOf leaf).bind x.lastSpanAt

/-- The entries of leaf `i` and of the leaves after it. -/
def entriesFrom (x : Index) : (fuel : Nat) → Nat → List Entry
  | 0, _ => []
  | fuel + 1, i =>
    x.entriesAt i ++ match x.nextOf i with
      | some j => entriesFrom x fuel j
      | none => []

/-- All entries, the earliest first. -/
def toList (x : Index) : List Entry := x.entriesFrom x.pages.size x.firstLeaf

/-- The spans of consecutive entries, the first of which begins at `start`. -/
def spansFrom (start : Offset) : List Entry → List Span
  | [] => []
  | e :: es => ⟨start, e.stop⟩ :: spansFrom e.stop es

/-- The spans of the values written at `first` or later, up to `final`. -/
def range (x : Index) (first final : Time) : List Span :=
  if final < first ∨ x.size = 0 then []
  else
    let leaf := x.leafFor first
    let pos := ((x.entriesAt leaf).takeWhile (·.time < first)).length
    let later := (x.entriesFrom x.pages.size leaf).drop pos
    spansFrom (x.endBefore leaf pos) (later.takeWhile (·.time ≤ final))

end Index

end ReplicaRing
