import ReplicaRing.Client
import ReplicaRing.Peers
import ReplicaRing.Ring.Membership

/-!
# Clusters

A ring of nodes in one process, together with the clients that use it. Nodes join with
an empty store, and fail without a word; the notifications of either are delivered to
the nodes they are for, one after the other in the order of the ring's list, each
handled to its end before the next (`Cluster.deliverAll`). Or every node listens for its
notifications by itself; then they wait until the cluster is left to settle
(`Cluster.settle`).
-/

namespace ReplicaRing

/-- Settings that all nodes and clients of a cluster share. -/
structure ClusterOptions where
  space : Space
  /-- The number of copies of each key. -/
  copies : Rank
  /-- How long a peer may take, in milliseconds. -/
  rpcTimeout : Nat
  /-- How long a client waits for a read, in milliseconds. -/
  clientTimeout : Nat
  /-- The number of copies that clients count on. -/
  chainLength : Nat
  /-- The directory that the stores are in. -/
  home : Path
  flush : FlushPolicy := .never
  indexFanout : Nat := 16
  cacheCapacity : Nat := 1024
  /-- Nodes listen for their notifications by themselves. -/
  listening : Bool := false

/-- Nodes, the ring they form, and what happens between them. -/
structure Cluster where
  options : ClusterOptions
  ring : Subscriptions
  peers : Peers Node
  chaos : Chaos
  /-- The reading of the clock. -/
  now : Time
  /-- How many nodes have joined so far. -/
  joins : Nat
  /-- Stores of nodes that are gone. -/
  gone : List Store
  /-- The channels that nodes listen to. -/
  inboxes : List (Point × Nat)
  /-- The nodes with notifications waiting, in the order of the first. -/
  woken : List Point

namespace Cluster

/-- The cluster without nodes. -/
def empty (options : ClusterOptions) (chaos : Chaos) (now : Time) : Cluster :=
  ⟨options, .empty, .empty, chaos, now, 0, [], [], []⟩

/-- The members of the ring. -/
def members (c : Cluster) : Members := c.ring.members

/-! ## Requests -/

/-- What stays the same while a request is delivered. -/
def site (c : Cluster) : Site := ⟨c.members, c.now, c.chaos.weather⟩

/-- The greatest number of deliveries within each other: the first and one for each
    copy. -/
def hops (c : Cluster) : Nat := c.options.copies.toNat + 1

/-- Work among the nodes. -/
def amongPeers {α : Type} (w : Cluster → Timed (Peers Node) α) : Timed Cluster α :=
  fun now cutoff c =>
    let (o, peers) := w c now cutoff c.peers
    (o, { c with peers })

/-- Sends a request to a node. -/
def transport : Transport Cluster := fun target request =>
  amongPeers fun c => Peers.deliver c.site c.hops target request

/-- The clients of the cluster. -/
def client (c : Cluster) : Client :=
  .withChain c.options.space c.options.clientTimeout c.options.chainLength

/-- Sends the request of a client that is attached to the node `via`. -/
def request (via : Point) (r : Request) : Timed Cluster (Except PeerError Reply) :=
  fun now cutoff c => c.client.call (c.members.view via) transport r now cutoff c

/-- Asks the node at `p` itself. -/
def askNode (p : Point) (r : Request) : Timed Cluster (Except ReplicationError Reply) :=
  amongPeers fun c => Node.act (Peers.deliver c.site c.hops) p fun node =>
    node.start (c.members.view p) c.now r

/-! ## Notifications -/

/-- Lets the node that a notification is for handle it, if the node is alive. -/
def deliver (note : Notification) : Timed Cluster (Option (Except ReplicationError Reply)) :=
  amongPeers fun c =>
    if (c.peers.find? note.1).isNone then pure none
    else do
      return some (← Node.act (Peers.deliver c.site c.hops) note.1 fun node =>
        node.react (c.members.view note.1) note.2)

/-- Delivers notifications one after the other. -/
def deliverAll :
    List Notification → Timed Cluster (List (Option (Except ReplicationError Reply))) :=
  Timed.each deliver

/-- Delivers notifications, or leaves them to the nodes if those listen. -/
def announce (notes : List Notification) :
    Timed Cluster (List (Option (Except ReplicationError Reply))) := fun now cutoff c =>
  if c.options.listening then
    let woken := notes.foldl (fun w note => if note.1 ∈ w then w else w ++ [note.1]) c.woken
    (.done now (notes.map fun _ => none), { c with woken })
  else deliverAll notes now cutoff c

/-- Takes the notifications that wait for a node. -/
def takeWaiting (c : Cluster) (p : Point) : List Notification × Cluster :=
  match c.inboxes.lookup p with
  | none => ([], c)
  | some i =>
    let (events, ring) := c.ring.drain i
    (events.map fun e => (p, e), { c with ring })

/-- Lets the node at `p` handle the notifications that wait for it. -/
def settleAt (p : Point) : Timed Cluster Unit := do
  let notes ← Timed.act fun c => c.takeWaiting p
  let _ ← deliverAll notes

/-- Lets all nodes handle the notifications that wait for them. -/
def settle : Timed Cluster Unit := do
  let woken ← Timed.act fun c => (c.woken, { c with woken := [] })
  let _ ← Timed.each settleAt woken

/-! ## Topology -/

/-- The node at `p` is gone, and its store is left behind. -/
def drop (c : Cluster) (p : Point) : Cluster :=
  match c.peers.find? p with
  | none => c
  | some node => { c with peers := c.peers.drop p, gone := c.gone ++ [node.store] }

/-- The directory of the store of the `k`-th node. -/
def storeDir (options : ClusterOptions) (k : Nat) : Path := options.home ++ ["n" ++ toString k]

/-- An empty store in a directory of its own. -/
def newStore (options : ClusterOptions) (k : Nat) : Except StorageError Store :=
  (Store.openAt .empty
    ⟨storeDir options k, options.flush, options.indexFanout, options.cacheCapacity⟩ .zero).1

/-- A new node at `p`, in place of any other there, that is not in the ring yet. -/
def addNode (c : Cluster) (p : Point) : Cluster :=
  let c := { c.drop p with joins := c.joins + 1 }
  match newStore c.options c.joins with
  | .error _ => c
  | .ok store =>
    let node : Node := ⟨c.options.space, c.options.copies, c.options.rpcTimeout, store⟩
    let c := { c with peers := c.peers.register p node }
    if c.options.listening then
      let (i, ring) := c.ring.subscribe p
      { c with ring, inboxes := (p, i) :: c.inboxes.filter fun x => x.1 ≠ p }
    else c

/-- A new node is a member of the ring; what its neighbours are to be told. -/
def enroll (c : Cluster) (p : Point) : List Notification × Cluster :=
  let c := c.addNode p
  let (notes, ring) := c.ring.join p
  (notes, { c with ring })

/-- The ring has lost the member at `p`; what its neighbours are to be told. -/
def release (c : Cluster) (p : Point) : List Notification × Cluster :=
  let (notes, ring) := c.ring.fail p
  (notes, { c with ring })

/-- The node at `p` is out of reach and gone. -/
def crash (c : Cluster) (p : Point) : Cluster :=
  { c with peers := c.peers.deregister p }.drop p

/-- A new node joins at `p`; what became of each notification. -/
def join (p : Point) :
    Timed Cluster (List Notification × List (Option (Except ReplicationError Reply))) := do
  let notes ← Timed.act fun c => c.enroll p
  return (notes, ← announce notes)

/-- The ring loses the member at `p`; what became of each notification. -/
def expel (p : Point) :
    Timed Cluster (List Notification × List (Option (Except ReplicationError Reply))) := do
  let notes ← Timed.act fun c => c.release p
  return (notes, ← announce notes)

/-- The node at `p` fails; what became of each notification. -/
def fail (p : Point) :
    Timed Cluster (List Notification × List (Option (Except ReplicationError Reply))) := do
  Timed.act fun c => ((), c.crash p)
  expel p

/-! ## Looking at the cluster -/

/-- The nodes that are alive, in the order of their points. -/
def nodes (c : Cluster) : List (Point × Node) :=
  c.peers.alive.mergeSort fun a b => a.1 ≤ b.1

/-- The nodes that list a key, with the rank they list it under. -/
def holders (c : Cluster) (key : String) : List (Point × Rank) :=
  c.nodes.filterMap fun (p, node) => (node.store.replica? key).map fun r => (p, r.rank)

/-- The values of each key on each node that is alive, oldest first. -/
def histories (c : Cluster) :
    List (Point × List (Replica × Except StorageError (List Bytes))) × Cluster :=
  c.nodes.foldl (fun (found, c) (p, node) =>
    let (h, store) := node.store.histories
    (found ++ [(p, h)], { c with peers := c.peers.update p { node with store } })) ([], c)

/-- All stores there ever were, those of nodes that are gone first. -/
def stores (c : Cluster) : List Store := c.gone ++ c.peers.alive.map fun x => x.2.store

/-- The files of all stores. -/
def disk (c : Cluster) : FileTree := ⟨c.stores.flatMap fun s => s.disk.entries⟩

/-- What all nodes together have counted. -/
def tally (c : Cluster) : Tally := c.stores.foldl (fun t s => t.merge s.log.tally) c.peers.tally

end Cluster

end ReplicaRing
