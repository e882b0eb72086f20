import ReplicaRing.Catalog
import ReplicaRing.Log

/-!
# The store of a node

A store keeps the logs of keys together with the catalog that lists the keys and
their ranks. A write lists the key first and then writes the value, so that no
value can be read whose key is not listed; a key may be listed without a value
if the write failed in between.

Deleting a key writes a tombstone, a value of no bytes.
-/

namespace ReplicaRing

/-- Settings of a store. -/
structure StoreOptions where
  /-- The directory the store is in. -/
  dataDir : Path
  flush : FlushPolicy := .always
  indexFanout : Nat := 16
  cacheCapacity : Nat := 1024
deriving Repr

/-- The logs of keys and the catalog that lists them. -/
structure Store where
  log : Log
  catalog : Catalog
deriving Repr

namespace Store

/-- The files of the store. -/
def disk (s : Store) : FileTree := s.log.disk

/-- The store in a directory of `disk`, made if it is missing. The disk is
    returned too: directories made before an error stay. -/
def openAt (disk : FileTree) (options : StoreOptions) (tally : Tally) :
    Except StorageError Store × FileTree :=
  match disk.makeDirs options.dataDir with
  | .error e => (.error (.io e), disk)
  | .ok disk =>
    match Log.openAt disk options.dataDir options.indexFanout options.cacheCapacity
        options.flush tally with
    | (.error e, disk) => (.error e, disk)
    | (.ok log, disk) =>
      match Catalog.load disk (options.dataDir ++ [Catalog.fileName]) with
      | .error e => (.error e, disk)
      | .ok catalog => (.ok ⟨log, catalog⟩, disk)

/-- The store with the counter `m` counted up. -/
def count (s : Store) (m : Metric) : Store :=
  { s with log := { s.log with tally := s.log.tally.add m 1 } }

/-- A result of the log, and the store with the log after it. -/
def ofLog {α : Type} (s : Store) (r : Except StorageError α × Log) :
    Except StorageError α × Store :=
  (r.1, { s with log := r.2 })

/-- A result of the catalog, and the store with the catalog and the files after
    it. -/
def ofCatalog {α : Type} (s : Store) (r : Except StorageError α × Catalog × FileTree) :
    Except StorageError α × Store :=
  (r.1, { s with catalog := r.2.1, log := { s.log with disk := r.2.2 } })

/-! ## Reading -/

/-- The last value of a key: empty after a deletion, none if it was never
    written to. -/
def get (s : Store) (key : String) : Except StorageError (Option Bytes) × Store :=
  let s := s.count .storeGets
  s.ofLog (s.log.readLatest key)

/-- The value of a key in force at time `t`. -/
def getAsOf (s : Store) (key : String) (t : Time) : Except StorageError (Option Bytes) × Store :=
  let s := s.count .storeGets
  s.ofLog (s.log.readAsOf key t)

/-- The values of a key written at `first` or later, up to `final`. -/
def getRange (s : Store) (key : String) (first final : Time) :
    Except StorageError (List Bytes) × Store :=
  let s := s.count .storeGets
  s.ofLog (s.log.readRange key first final)

/-- The replicas the store lists, in order of their names. -/
def keySet (s : Store) : List Replica := s.catalog.entries

/-- The replica of a listed key. -/
def replica? (s : Store) (key : String) : Option Replica := s.catalog.get? key

/-- All values of the given keys, oldest first. -/
def historiesOf (s : Store) :
    List Replica → List (Replica × Except StorageError (List Bytes)) × Store
  | [] => ([], s)
  | r :: rs =>
    let (history, s) := s.getRange r.name 0 (UInt64.ofNat (UInt64.size - 1))
    let (rest, s) := historiesOf s rs
    ((r, history) :: rest, s)

/-- All values of the listed keys, oldest first. -/
def histories (s : Store) : List (Replica × Except StorageError (List Bytes)) × Store :=
  s.historiesOf s.keySet

/-! ## Writing -/

/-- Writes `value` to a key once it is listed; tells the time of the write. -/
def appendListed (s : Store) (key : String) (value : Bytes) (now : Time) :
    Except StorageError Time × Store :=
  match s.ofLog (s.log.appendNow key value now) with
  | (.error e, s) => (.error e, s)
  | (.ok tip, s) => (.ok tip.time, s.count .storePuts)

/-- Lists `r`, unless its key is listed under any rank, and writes `value`. -/
def put (s : Store) (r : Replica) (value : Bytes) (now : Time) :
    Except StorageError Time × Store :=
  match s.ofCatalog (s.catalog.insert s.disk r) with
  | (.error e, s) => (.error e, s)
  | (.ok _, s) => s.appendListed r.name value now

/-- Lists `r`, whatever the rank its key was listed under, and writes `value`. -/
def putReplica (s : Store) (r : Replica) (value : Bytes) (now : Time) :
    Except StorageError Time × Store :=
  match s.ofCatalog (s.catalog.upsert s.disk r) with
  | (.error e, s) => (.error e, s)
  | (.ok _, s) => s.appendListed r.name value now

/-- Writes a tombstone to a key that has been written to; says whether it has. -/
def delete (s : Store) (key : String) (now : Time) : Except StorageError Bool × Store :=
  match s.ofLog (s.log.publishedTip key) with
  | (.error e, s) => (.error e, s)
  | (.ok none, s) => (.ok false, s)
  | (.ok (some _), s) =>
    match s.ofLog (s.log.appendNow key [] now) with
    | (.error e, s) => (.error e, s)
    | (.ok _, s) => (.ok true, s.count .storeDeletes)

/-- Gives a listed key another rank; says whether the key is listed. -/
def setRank (s : Store) (key : String) (rank : Rank) : Except StorageError Bool × Store :=
  s.ofCatalog (s.catalog.setRank s.disk key rank)

end Store

end ReplicaRing
