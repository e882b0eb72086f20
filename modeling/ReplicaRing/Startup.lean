import ReplicaRing.Config
import ReplicaRing.Node

/-!
# Starting a node

A node is started as its configuration says: its point is made of the address it listens
at, and its store is opened in its data directory.
-/

namespace ReplicaRing

/-- Why a node does not start. -/
inductive StartupError
  | config (error : ConfigError)
  | storage (error : StorageError)
  | ring (error : Space.Error)
deriving DecidableEq, Repr

/-- The name of the kind of error. -/
def StartupError.kind : StartupError → String
  | .config e => "Config:" ++ e.kind
  | .storage e => "Storage:" ++ e.kind
  | .ring e => "Ring:" ++ e.kind

/-- The text of the error. -/
def StartupError.message : StartupError → String
  | .config e => "config error: " ++ e.message
  | .storage e => "storage error: " ++ e.message
  | .ring e => "ring error: " ++ e.message

namespace Config

/-- The identifier space. -/
def space (c : Config) : Except StartupError Space :=
  match Space.ofBits c.idBits with
  | .error e => .error (.ring e)
  | .ok space => .ok space

/-- The point of the node in the ring. -/
def point (c : Config) : Except StartupError Point := do
  return (← c.space).node c.listen

/-- The settings of the store. -/
def storeOptions (c : Config) : StoreOptions :=
  ⟨c.dataDir.splitOn "/", .ofText c.flush, c.indexFanout, c.cacheCapacity⟩

/-- The node, with its store on `disk`. The disk is returned too: directories made
    before an error stay. -/
def start (c : Config) (disk : FileTree) : Except StartupError Node × FileTree :=
  match c.validate, c.space with
  | .error e, _ => (.error (.config e), disk)
  | _, .error e => (.error e, disk)
  | .ok _, .ok space =>
    match Store.openAt disk c.storeOptions .zero with
    | (.error e, disk) => (.error (.storage e), disk)
    | (.ok store, disk) => (.ok ⟨space, UInt32.ofNat c.copies, c.rpcTimeout, store⟩, disk)

end Config

end ReplicaRing
