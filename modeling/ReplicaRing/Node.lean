import ReplicaRing.Peer
import ReplicaRing.Ring.Event
import ReplicaRing.Store

/-!
# A node and its chains

Every key has a chain of copies, `copies` of them if the ring has as many nodes:
one on its owner, of rank 1, one on the owner's successor, of rank 2, and so on.
A node that stores a copy sends the next rank on to its successor, so a write
walks along the chain, and ends once it is long enough. On a ring with fewer nodes
than copies a chain comes back to the owner, which holds the key at a lower rank
and keeps that (`Node.lowerHeld?`).

When its neighbours change a node repairs the chains that run through it:

* to a new predecessor it hands the keys which that one owns now, and keeps its
  copies at rank 2;
* to a new successor it sends its copies, one rank higher;
* of the keys that a failed predecessor owned it is the owner now: its copies of
  rank 2 get rank 1, and their chains are walked anew.

A node asks at most one peer for each thing it is asked to do. So what it does is a
`Step`: it is done, or it waits for one peer's reply and finishes with that
(`Node.resume`). What was stored before stays, whatever the peer says.
-/

namespace ReplicaRing

/-- A node: its store, and what it has to know of the ring it belongs to. -/
structure Node where
  space : Space
  /-- The number of copies of each key. -/
  copies : Rank
  /-- How long a peer may take, in milliseconds. -/
  rpcTimeout : Nat
  store : Store
deriving Repr

/-- How a node finishes once a peer has replied. -/
inductive After
  /-- The peer was sent `count` replicas; if it has them the reply is `reply`. -/
  | forwarded (count : Nat) (reply : Reply)
  /-- The peer was handed these keys. -/
  | migrated (moved : List Replica)
deriving Repr

/-- Where a node stands with what it was asked to do. -/
inductive Step
  | done (result : Except ReplicationError Reply)
  /-- It waits for a peer. -/
  | ask (peer : Point) (request : Request) (after : After)

/-- A result of storage as a result of a node. -/
def ReplicationError.lift {α : Type} : Except StorageError α → Except ReplicationError α
  | .ok a => .ok a
  | .error e => .error (.storage e)

namespace Node

/-- A result of the store as a step of the node. -/
def finish {α : Type} (node : Node) (reply : α → Reply) (r : Except StorageError α × Store) :
    Step × Node :=
  (.done ((ReplicationError.lift r.1).map reply), { node with store := r.2 })

/-- The node with the counter `m` counted up `n` times. -/
def count (node : Node) (m : Metric) (n : Nat) : Node :=
  let log := node.store.log
  { node with store := { node.store with log := { log with tally := log.tally.add m n } } }

/-! ## Storing batches -/

/-- The error of a batch that has a rank outside the chain. -/
def rankError? (node : Node) (batch : Batch) : Option ReplicationError :=
  (batch.find? fun (r, _) => r.rank = 0 || node.copies < r.rank).map fun (r, _) =>
    .invalidRank r.name r.rank node.copies

/-- No fault is found with the ranks of a chain. -/
theorem rankError?_eq_none {node : Node} {batch : Batch}
    (h : ∀ x ∈ batch, 1 ≤ x.1.rank.toNat ∧ x.1.rank.toNat ≤ node.copies.toNat) :
    node.rankError? batch = none := by
  rw [rankError?, Option.map_eq_none_iff, List.find?_eq_none]
  intro x hx
  obtain ⟨hone, hle⟩ := h x hx
  have hzero : ¬x.1.rank = 0 := fun h => by
    rw [h] at hone
    cases hone
  have hlt : ¬node.copies < x.1.rank := mt UInt32.lt_iff_toNat_lt.1 (Nat.not_lt.2 hle)
  simp [hzero, hlt]

/-- The copy that the node holds of a key it owns, if a chain that came round the
    ring brings it a copy of higher rank. -/
def lowerHeld? (node : Node) (view : View) (r : Replica) : Option Replica :=
  if r.rank = 1 ∨ view.owns r.key.point = false then none
  else (node.store.replica? r.name).filter fun held => held.rank < r.rank

/-- Stores `value` under the rank held, unless it is the last value already. -/
def refresh (store : Store) (held : Replica) (value : Bytes) (now : Time) :
    Except StorageError Unit × Store :=
  match store.get held.name with
  | (.error e, store) => (.error e, store)
  | (.ok v, store) =>
    if v = some value then (.ok (), store)
    else
      let (r, store) := store.putReplica held value now
      (r.map fun _ => (), store)

/-- Stores one replica of a chain; says whether the chain goes on. -/
def storeReplica (node : Node) (view : View) (r : Replica) (value : Bytes) (now : Time) :
    Except StorageError Bool × Store :=
  match node.lowerHeld? view r with
  | some held =>
    let (result, store) := refresh node.store held value now
    (result.map fun _ => false, store)
  | none =>
    let (result, store) := node.store.putReplica r value now
    (result.map fun _ => decide (r.rank < node.copies), store)

/-- Stores the replicas of a batch one after the other, and gathers those whose
    chains go on, one rank higher. -/
def storeReplicas (node : Node) (view : View) (now : Time) (onward : Batch) :
    Batch → Except StorageError Batch × Node
  | [] => (.ok onward, node)
  | (r, value) :: rest =>
    match node.storeReplica view r value now with
    | (.error e, store) => (.error e, { node with store })
    | (.ok goesOn, store) =>
      let onward := if goesOn then Batch.insert { r with rank := r.rank + 1 } value onward
        else onward
      storeReplicas { node with store } view now onward rest

/-- Stores the replicas of a batch as they are. -/
def storeAll (store : Store) (now : Time) : Batch → Except StorageError Unit × Store
  | [] => (.ok (), store)
  | (r, value) :: rest =>
    match store.putReplica r value now with
    | (.error e, store) => (.error e, store)
    | (.ok _, store) => storeAll store now rest

/-- Sends a batch to a peer that carries its chains on. -/
def forward (peer : Point) (batch : Batch) (reply : Reply) : Step :=
  .ask peer (.makeReplicas batch) (.forwarded batch.length reply)

/-- Stores a batch and sends what goes on to the successor, if there is one. The
    reply is `reply` if all is well. -/
def makeReplicas (node : Node) (view : View) (now : Time) (batch : Batch) (reply : Reply) :
    Step × Node :=
  match node.rankError? batch with
  | some e => (.done (.error e), node)
  | none =>
    match node.storeReplicas view now [] batch with
    | (.error e, node) => (.done (.error (.storage e)), node)
    | (.ok [], node) => (.done (.ok reply), node)
    | (.ok onward, node) =>
      match view.nextHop with
      | none => (.done (.ok reply), node)
      | some peer => (forward peer onward reply, node)

/-- Of a node that stores replicas nothing changes but its store. -/
theorem storeReplicas_snd (node : Node) (view : View) (now : Time) (onward batch : Batch) :
    (node.storeReplicas view now onward batch).2 =
      { node with store := (node.storeReplicas view now onward batch).2.store } := by
  induction batch generalizing node onward with
  | nil => rfl
  | cons x rest ih =>
    rw [storeReplicas]
    split
    · rfl
    · exact ih _ _

theorem makeReplicas_snd (node : Node) (view : View) (now : Time) (batch : Batch) (reply : Reply) :
    (node.makeReplicas view now batch reply).2 =
      { node with store := (node.makeReplicas view now batch reply).2.store } := by
  have hstore := node.storeReplicas_snd view now [] batch
  rw [makeReplicas]
  split
  · rfl
  · split <;> rename_i heq <;> rw [heq] at hstore
    · exact hstore
    · exact hstore
    · split <;> exact hstore

/-- Stores a batch that was handed over. -/
def putObjects (node : Node) (now : Time) (batch : Batch) : Step × Node :=
  match node.rankError? batch with
  | some e => (.done (.error e), node)
  | none => node.finish (fun _ => .done) (storeAll node.store now batch)

/-! ## Requests -/

/-- The replica that a deletion of `key` starts from: the one listed, or the first
    of the chain if the key has a value but is not listed. -/
def deletable (node : Node) (key : String) : Except StorageError (Option Replica) × Store :=
  match node.store.replica? key with
  | some r => (.ok (some r), node.store)
  | none =>
    let (v, store) := node.store.get key
    (v.map fun v => v.map fun _ => .primary (node.space.key key), store)

/-- Writes a tombstone here and along the chain. A key the node never held is left
    alone. -/
def delete (node : Node) (view : View) (now : Time) (key : String) : Step × Node :=
  match node.deletable key with
  | (.error e, store) => (.done (.error (.storage e)), { node with store })
  | (.ok none, store) => (.done (.ok (.flag false)), { node with store })
  | (.ok (some r), store) => { node with store }.makeReplicas view now [(r, [])] (.flag true)

/-- Begins to do what the node is asked. -/
def start (node : Node) (view : View) (now : Time) : Request → Step × Node
  | .putObject key value =>
    node.makeReplicas view now [(.primary (node.space.key key), value)] .done
  | .getObject key => node.finish .value (node.store.get key)
  | .getObjectAsOf key t => node.finish .value (node.store.getAsOf key t)
  | .getObjectRange key first final =>
    node.finish .values (node.store.getRange key first final)
  | .delete key => node.delete view now key
  | .keySet => (.done (.ok (.replicas node.store.keySet)), node)
  | .putObjects batch => node.putObjects now batch
  | .makeReplicas batch => node.makeReplicas view now batch .done

/-! ## Events -/

/-- Replicas with the last values of their keys; a key without a value is left
    out. -/
def latestValues (store : Store) (batch : Batch) :
    List Replica → Except StorageError Batch × Store
  | [] => (.ok batch, store)
  | r :: rs =>
    match store.get r.name with
    | (.error e, store) => (.error e, store)
    | (.ok none, store) => latestValues store batch rs
    | (.ok (some v), store) => latestValues store (Batch.insert r v batch) rs

/-- Gathers the last values of `rs` and asks about them, unless there are none. -/
def sendLatest (node : Node) (rs : List Replica) (ask : Batch → Step) : Step × Node :=
  match latestValues node.store [] rs with
  | (.error e, store) => (.done (.error (.storage e)), { node with store })
  | (.ok [], store) => (.done (.ok .done), { node with store })
  | (.ok batch, store) => (ask batch, { node with store })

/-- Hands the owned keys between `lower` and the new predecessor over to it. -/
def migrate (node : Node) (view : View) (lower current : Point) : Step × Node :=
  if current = view.self then (.done (.ok .done), node)
  else
    let owned := node.store.keySet.filter fun r =>
      r.rank = 1 && r.key.point.inArc lower current false true
    node.sendLatest owned fun batch =>
      .ask current (.putObjects batch) (.migrated (batch.map (·.1)))

/-- Sends every copy that is not the last of its chain to the new successor, one
    rank higher. -/
def replicateTo (node : Node) (view : View) (peer : Point) : Step × Node :=
  if peer = view.self then (.done (.ok .done), node)
  else
    let next := (node.store.keySet.filter fun r => r.rank < node.copies).map fun r =>
      { r with rank := r.rank + 1 }
    node.sendLatest next fun batch => forward peer batch .done

/-- Gives the listed keys of `rs` another rank. -/
def setRanks (store : Store) (rank : Rank) : List Replica → Except StorageError Unit × Store
  | [] => (.ok (), store)
  | r :: rs =>
    match store.setRank r.name rank with
    | (.error e, store) => (.error e, store)
    | (.ok _, store) => setRanks store rank rs

/-- Makes the node the owner of the keys whose second copy it holds, and walks their
    chains anew. -/
def takeOver (node : Node) (view : View) : Step × Node :=
  let promoted := node.store.keySet.filter fun r => r.rank = 2
  match setRanks node.store 1 promoted with
  | (.error e, store) => (.done (.error (.storage e)), { node with store })
  | (.ok (), store) =>
    match view.nextHop with
    | none => (.done (.ok .done), { node with store })
    | some peer => { node with store }.sendLatest promoted fun batch => forward peer batch .done

/-- Counts an event of the given kind. -/
def countEvent (node : Node) (kind : String) : Node :=
  let log := node.store.log
  { node with store := { node.store with
      log := { log with tally := log.tally.addLabelled .topologyEvents kind 1 } } }

/-- Begins to repair what an event has broken. -/
def react (node : Node) (view : View) (event : Event) : Step × Node :=
  let node := node.countEvent event.kind
  match event with
  | .newPredecessor previous current => node.migrate view (previous.getD view.self) current
  | .newSuccessor _ current => node.replicateTo view current
  | .successorFailed _ (some peer) => node.replicateTo view peer
  | .successorFailed _ none => (.done (.ok .done), node)
  | .predecessorFailed _ _ => node.takeOver view

/-! ## After the reply -/

/-- Finishes what the node was asked once the peer has replied. -/
def resume (node : Node) (after : After) :
    Except PeerError Reply → Except ReplicationError Reply × Node
  | .error e => (.error (.peer e), node.count .replicationFailures 1)
  | .ok _ =>
    match after with
    | .forwarded n reply => (.ok reply, node.count .replicasForwarded n)
    | .migrated moved =>
      let node := node.count .objectsMigrated moved.length
      if 2 ≤ node.copies then
        let (r, store) := setRanks node.store 2 moved
        ((ReplicationError.lift r).map fun _ => .done, { node with store })
      else (.ok .done, node)

/-- A way to let the node finish, wherever it is kept in a state of type `σ`. -/
abbrev Finish (σ : Type) :=
  (Node → Except ReplicationError Reply × Node) → σ → Except ReplicationError Reply × σ

/-- What the node comes back with: its result, unless storage broke off. -/
def conclude {σ : Type} : Except ReplicationError Reply →
    Timed σ (Except ReplicationError Reply)
  | .error (.storage .overflow) => Timed.abort
  | r => pure r

/-- Takes a step to its end: asks the peer, under the node's deadline, and finishes
    with the reply. The peer's work may have changed the node meanwhile. -/
def complete {σ : Type} (transport : Transport σ) (finish : Finish σ) (rpcTimeout : Nat) :
    Step → Timed σ (Except ReplicationError Reply)
  | .done r => conclude r
  | .ask peer request after => do
    let r ← Timed.within rpcTimeout (transport peer request)
    Timed.act (finish fun node => node.resume after (orTimeout r))

end Node

end ReplicaRing
