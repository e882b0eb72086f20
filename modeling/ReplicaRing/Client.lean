import ReplicaRing.Peer
import ReplicaRing.Ring.Event

/-!
# Clients

A client of a ring sends every request to the node that owns the key. The owner is
looked up anew for each request. A read is given the client's timeout; a put or a
deletion is answered only once its chain has been walked, and is given the timeout
once for each copy.
-/

namespace ReplicaRing

/-- A client. -/
structure Client where
  space : Space
  /-- In milliseconds. -/
  timeout : Nat
  /-- The number of copies that a write makes. -/
  chainLength : Nat
deriving Repr

namespace Client

/-- The client that counts on at least one copy. -/
def withChain (space : Space) (timeout : Nat) (copies : Nat) : Client :=
  ⟨space, timeout, max copies 1⟩

/-- The node that owns a key. -/
def owner (client : Client) (view : View) (key : String) : Point :=
  view.owner (client.space.key key).point

/-- The node a request goes to: the owner of its key, or the node that the client is
    attached to. -/
def route (client : Client) (view : View) : Request → Point
  | .putObject key _ | .getObject key | .getObjectAsOf key _ | .getObjectRange key _ _
  | .delete key => client.owner view key
  | .keySet | .putObjects _ | .makeReplicas _ => view.self

/-- How long a request may take. -/
def deadline (client : Client) : Request → Nat
  | .putObject _ _ | .delete _ => client.timeout * client.chainLength
  | _ => client.timeout

/-- Sends a request to a node, under its deadline. -/
def ask {σ : Type} (client : Client) (transport : Transport σ) : Transport σ :=
  fun target request => do
    return orTimeout (← Timed.within (client.deadline request) (transport target request))

/-- Sends a request to the node it belongs to. -/
def call {σ : Type} (client : Client) (view : View) (transport : Transport σ)
    (request : Request) : Timed σ (Except PeerError Reply) :=
  client.ask transport (client.route view request) request

end Client

end ReplicaRing
