import ReplicaRing.Replica
import ReplicaRing.StorageError
import ReplicaRing.Timed

/-!
# Talking to peers

What nodes and clients ask of a node (`Request`), what it answers (`Reply`), and
what may go wrong on the way (`PeerError`) or at the node (`ReplicationError`).

Values travel in batches: replicas with their values, at most one of each key, in
order of their names.
-/

namespace ReplicaRing

/-! ## Batches -/

/-- Replicas with their values. -/
abbrev Batch := List (Replica × Bytes)

/-- The batch with a replica and its value. If its key is there already, the
    replica there stays and gets the value. -/
def Batch.insert (r : Replica) (value : Bytes) : Batch → Batch
  | [] => [(r, value)]
  | (s, v) :: rest =>
    if r.name < s.name then (r, value) :: (s, v) :: rest
    else if r.name = s.name then (s, value) :: rest
    else (s, v) :: Batch.insert r value rest

/-- The batch of the given entries. -/
def Batch.ofList (entries : List (Replica × Bytes)) : Batch :=
  entries.foldl (fun b (r, v) => Batch.insert r v b) []

/-! ## Requests -/

/-- What a node can be asked. -/
inductive Request
  /-- Write a value to a key the node owns. -/
  | putObject (key : String) (value : Bytes)
  | getObject (key : String)
  | getObjectAsOf (key : String) (t : Time)
  | getObjectRange (key : String) (first final : Time)
  | delete (key : String)
  | keySet
  /-- Store a batch and leave it at that. -/
  | putObjects (batch : Batch)
  /-- Store a batch and carry its chains on. -/
  | makeReplicas (batch : Batch)
deriving Repr

/-- The name of a kind of request. -/
def Request.name : Request → String
  | putObject _ _ => "put_object"
  | getObject _ => "get_object"
  | getObjectAsOf _ _ => "get_object_as_of"
  | getObjectRange _ _ _ => "get_object_range"
  | delete _ => "delete"
  | keySet => "key_set"
  | putObjects _ => "put_objects"
  | makeReplicas _ => "make_replicas"

/-- What a node answers. -/
inductive Reply
  | done
  | value (v : Option Bytes)
  | values (vs : List Bytes)
  | flag (b : Bool)
  | replicas (rs : List Replica)
deriving Repr

/-! ## Errors -/

/-- Why a request got no reply. -/
inductive PeerError
  | unreachable (peer : Point)
  | timeout
  /-- The peer answered with an error of this text. -/
  | remote (text : String)
  | rpcFailed (text : String)
deriving DecidableEq, Repr

/-- The text of the error. -/
def PeerError.message : PeerError → String
  | .unreachable p => s!"peer {p.text} unreachable"
  | .timeout => "timeout"
  | .remote text => "remote error: " ++ text
  | .rpcFailed text => "RPC failed: " ++ text

/-- The name of the kind of error. -/
def PeerError.kind : PeerError → String
  | .unreachable _ => "Unreachable"
  | .timeout => "Timeout"
  | .remote _ => "Remote"
  | .rpcFailed _ => "RpcFailed"

/-- Why a node fails to do what it is asked. -/
inductive ReplicationError
  | storage (error : StorageError)
  | peer (error : PeerError)
  /-- A batch has a rank that no chain of at most `max` copies has. -/
  | invalidRank (key : String) (rank max : Rank)
deriving DecidableEq, Repr

/-- The text of the error. -/
def ReplicationError.message : ReplicationError → String
  | .storage e => "storage error: " ++ e.message
  | .peer e => "peer error: " ++ e.message
  | .invalidRank key rank max => s!"replica rank {rank} for {key} outside 1..={max}"

/-- The name of the kind of error. -/
def ReplicationError.kind : ReplicationError → String
  | .storage e => "Storage:" ++ e.kind
  | .peer e => "Peer:" ++ e.kind
  | .invalidRank _ _ _ => "InvalidRank"

/-- The result of a request under a deadline. -/
def orTimeout {α : Type} : Option (Except PeerError α) → Except PeerError α
  | some r => r
  | none => .error .timeout

/-- A way to reach peers, working on a state of type `σ`. -/
abbrev Transport (σ : Type) := Point → Request → Timed σ (Except PeerError Reply)

/-! ## Fates -/

/-- What happens to a request on its way: it takes some time, or for ever, and may
    then be refused instead of being delivered. -/
structure Fate where
  /-- How long it takes; nothing means for ever. -/
  delay : Option Nat
  refusal : Option PeerError
deriving DecidableEq, Repr

namespace Fate

/-- The request arrives at once. -/
def prompt : Fate := ⟨some 0, none⟩

/-- Lets the request travel, and then delivers it unless it is refused. -/
def deliver {σ α : Type} (f : Fate) (w : Timed σ (Except PeerError α)) :
    Timed σ (Except PeerError α) :=
  match f.delay with
  | none => Timed.hang
  | some d => do
    Timed.sleep d
    match f.refusal with
    | some e => return .error e
    | none => w

end Fate

end ReplicaRing
