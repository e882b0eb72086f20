import ReplicaRing.Ring.Members

/-!
# Ring events

When a node joins or fails, its neighbours learn who their new neighbour is. An
`Event` is what one of them learns; a `Notification` is an event with the member
it is for.

`Members.joinNotifications` and `Members.failNotifications` say who learns what:
of a join, the successor of the new member learns of a new predecessor and its
predecessor of a new successor; of a failure, the same two learn of the loss and
of the member that replaces it, if one is left.
-/

namespace ReplicaRing

/-- A change in a member's immediate neighbours. -/
inductive Event
  /-- A node joined between the previous predecessor and the member. -/
  | newPredecessor (previous : Option Point) (current : Point)
  /-- A node joined between the member and the previous successor. -/
  | newSuccessor (previous : Option Point) (current : Point)
  /-- The predecessor is gone and handed nothing over. -/
  | predecessorFailed (failed : Point) (replacement : Option Point)
  /-- The successor is gone; there may be no replacement yet. -/
  | successorFailed (failed : Point) (replacement : Option Point)
deriving DecidableEq, Repr

namespace Event

/-- The name of the kind of event. -/
def kind : Event → String
  | newPredecessor _ _ => "new_predecessor"
  | newSuccessor _ _ => "new_successor"
  | predecessorFailed _ _ => "predecessor_failed"
  | successorFailed _ _ => "successor_failed"

/-- The neighbour before the event. -/
def before : Event → Option Point
  | newPredecessor previous _ | newSuccessor previous _ => previous
  | predecessorFailed failed _ | successorFailed failed _ => some failed

/-- The neighbour after the event. -/
def after : Event → Option Point
  | newPredecessor _ current | newSuccessor _ current => some current
  | predecessorFailed _ replacement | successorFailed _ replacement => replacement

/-- How a neighbour is shown; a dash stands for none. -/
def neighbourText : Option Point → String
  | some p => p.text
  | none => "-"

/-- How an event is shown. -/
def text (e : Event) : String :=
  e.kind ++ " " ++ neighbourText e.before ++ " -> " ++ neighbourText e.after

end Event

/-- An event and the member it is for. -/
abbrev Notification := Point × Event

namespace Members

/-- What the members learn when `p`, not one of them, joins. -/
def joinNotifications (m : Members) (p : Point) : List Notification :=
  let joined := m.insert p
  ((joined.successor p).map fun s => (s, Event.newPredecessor (m.predecessor s) p)).toList ++
    ((joined.predecessor p).map fun q => (q, Event.newSuccessor (m.successor q) p)).toList

/-- What the other members learn when `p`, one of them, fails. -/
def failNotifications (m : Members) (p : Point) : List Notification :=
  let left := m.erase p
  ((m.successor p).map fun s => (s, Event.predecessorFailed p (left.predecessor s))).toList ++
    ((m.predecessor p).map fun q => (q, Event.successorFailed p (left.successor q))).toList

/-- The members after `p` joins, and what they learn. A member that joins again
    changes nothing. -/
def join (m : Members) (p : Point) : List Notification × Members :=
  if p ∈ m then ([], m) else (m.joinNotifications p, m.insert p)

/-- The members after `p` fails, and what they learn. If `p` is no member nothing
    changes. -/
def fail (m : Members) (p : Point) : List Notification × Members :=
  if p ∈ m then (m.failNotifications p, m.erase p) else ([], m)

end Members

/-- The ring as one node sees it. A lone node sees no neighbours. -/
structure View where
  self : Point
  successor : Option Point
  predecessor : Option Point
  /-- The node that owns what is placed at a point. -/
  owner : Point → Point

namespace View

/-- The node owns what is placed at `p`. -/
def owns (v : View) (p : Point) : Bool := v.owner p = v.self

/-- The next node of a chain: the successor, unless that is the node itself. -/
def nextHop (v : View) : Option Point := v.successor.filter fun s => s ≠ v.self

end View

/-- The ring as the node at `self` sees it. A ring without members leaves all
    keys with the node. -/
def Members.view (m : Members) (self : Point) : View where
  self := self
  successor := m.successor self
  predecessor := m.predecessor self
  owner p := (m.owner p).getD self

end ReplicaRing
