import ReplicaRing.Ring.Event

/-!
# Membership with subscriptions

The members of a ring together with the channels on which they are told of
events. Subscribing for a member opens a channel; from then on every event for
the member is queued on it, until the member fails or somebody else subscribes
for it. A channel whose receiver is dropped is forgotten when the next event for
its member comes up.
-/

namespace ReplicaRing

/-- A queue of events for one member, oldest first. -/
structure Channel where
  member : Point
  queue : List Event
  /-- The receiver is gone. -/
  dropped : Bool
deriving DecidableEq, Repr

/-- A ring whose members can be listened to. -/
structure Subscriptions where
  members : Members
  /-- All channels ever opened, named by their position. -/
  channels : List Channel
  /-- The channel that events for a member go to. -/
  listeners : List (Point × Nat)

namespace Subscriptions

/-- No members, and nobody listening. -/
def empty : Subscriptions := ⟨.empty, [], []⟩

/-- Opens a channel for events of `member`, in place of the one before it. -/
def subscribe (s : Subscriptions) (member : Point) : Nat × Subscriptions :=
  (s.channels.length,
    { s with
      channels := s.channels ++ [⟨member, [], false⟩]
      listeners := (member, s.channels.length) :: s.listeners.filter fun l => l.1 ≠ member })

/-- The receiver of channel `i` is dropped. -/
def drop (s : Subscriptions) (i : Nat) : Subscriptions :=
  { s with channels := s.channels.modify i fun c => { c with dropped := true } }

/-- Nothing more will be queued on channel `i`. -/
def isClosed (s : Subscriptions) (i : Nat) : Bool := s.listeners.all fun l => l.2 ≠ i

/-- Takes everything queued on channel `i`. -/
def drain (s : Subscriptions) (i : Nat) : List Event × Subscriptions :=
  (match s.channels[i]? with
    | some c => c.queue
    | none => [],
    { s with channels := s.channels.modify i fun c => { c with queue := [] } })

/-- Queues an event for its member, or forgets the member's channel if its
    receiver is gone. -/
def send (s : Subscriptions) (n : Notification) : Subscriptions :=
  match s.listeners.lookup n.1 with
  | none => s
  | some i =>
    if (s.channels[i]?.map (·.dropped)).getD true then
      { s with listeners := s.listeners.filter fun l => l.1 ≠ n.1 }
    else
      { s with channels := s.channels.modify i fun c => { c with queue := c.queue ++ [n.2] } }

/-- A node joins, and the members it affects are told. -/
def join (s : Subscriptions) (p : Point) : List Notification × Subscriptions :=
  let (notes, members) := s.members.join p
  (notes, notes.foldl send { s with members })

/-- A member fails: nobody listens to it any more, and the members it affects
    are told. -/
def fail (s : Subscriptions) (p : Point) : List Notification × Subscriptions :=
  let (notes, members) := s.members.fail p
  let listeners := if p ∈ s.members then s.listeners.filter fun l => l.1 ≠ p else s.listeners
  (notes, notes.foldl send { s with members, listeners })

end Subscriptions

end ReplicaRing
