import ReplicaRing.StorageError
import ReplicaRing.Replica.Json

/-!
# The catalog of a node

Which keys a node holds, each with its rank. The catalog is kept in memory as a
list in order of names and on disk as one file: the checksum and the length of
the payload, and the payload, the same list as JSON. Every change writes the
whole file anew beside the old one and moves it over; only then does the memory
change. So memory and file agree after every change that succeeds, and after one
that fails before the move. But the directory is flushed after the move, and if
that fails the change is told to have failed: then the file has it, and the
memory does not.
-/

namespace ReplicaRing

/-- The replicas a node holds, in order of their names, and where they are
    stored. -/
structure Catalog where
  path : Path
  entries : List Replica
deriving Repr

namespace Catalog

/-- The name of the file of a catalog. -/
def fileName : String := "catalog.meta"

/-! ## Entries -/

/-- The entry of the given name. -/
def find? (entries : List Replica) (name : String) : Option Replica :=
  entries.find? fun r => r.name = name

/-- The entries with `r` in its place in the order of names, instead of an entry
    of the same name. -/
def place (r : Replica) : List Replica → List Replica
  | [] => [r]
  | s :: rest =>
    if r.name < s.name then r :: s :: rest
    else if r.name = s.name then r :: rest
    else s :: place r rest

/-! ## The file -/

/-- The payload of the file: the entries as JSON. -/
def payload (entries : List Replica) : Bytes :=
  (Json.array (entries.map Replica.toJson)).write

/-- A payload behind its checksum and length. -/
def frame (payload : Bytes) : Bytes :=
  Checksum.stored (Checksum.crc32 payload) ++ Bytes.little 4 payload.length ++ payload

/-- The bytes of the file for the given entries. -/
def encode (entries : List Replica) : Bytes := frame (payload entries)

/-- The payload of a frame. -/
def unframe (path : Path) (bs : Bytes) : Except StorageError Bytes :=
  if bs.length < 8 then .error (.corrupt path (.shortFrame bs.length))
  else
    let expected := Checksum.ofStored (bs.take 4)
    let declared := Bytes.littleValue ((bs.drop 4).take 4)
    let payload := bs.drop 8
    if payload.length ≠ declared then
      .error (.corrupt path (.frameLength declared payload.length))
    else if Checksum.crc32 payload ≠ expected then
      .error (.corrupt path (.frameChecksum expected (Checksum.crc32 payload)))
    else .ok payload

/-- The replicas that a payload lists. -/
def parse (payload : Bytes) : Option (List Replica) := do
  match ← Json.parse payload with
  | .array items => items.mapM Replica.ofJson?
  | _ => none

/-- The entries that the file holds. Of several with one name the last counts. -/
def decode (path : Path) (bs : Bytes) : Except StorageError (List Replica) :=
  match unframe path bs with
  | .error e => .error e
  | .ok payload =>
    match parse payload with
    | none => .error .malformed
    | some rs => .ok (rs.foldl (fun entries r => place r entries) [])

/-- The catalog stored at `path`; without a file it has no entries. -/
def load (disk : FileTree) (path : Path) : Except StorageError Catalog :=
  match disk.read path with
  | .error .notFound => .ok ⟨path, []⟩
  | .error e => .error (.io e)
  | .ok bs => (decode path bs).map fun entries => ⟨path, entries⟩

/-! ## Changes -/

/-- The steps by which a file is replaced: the bytes are written to a temporary
    file, which is then moved over it. -/
def replaceSteps (temp path : Path) (bs : Bytes) : List FileTree.Step :=
  [.clear temp, .add temp bs, .rename temp path]

/-- Stores `entries` in place of those of the catalog. If that fails, the
    temporary file is removed and the memory stays as it was. -/
def store (c : Catalog) (disk : FileTree) (entries : List Replica) :
    Except StorageError Unit × Catalog × FileTree :=
  let temp := disk.freshTemp c.path
  match disk.run (replaceSteps temp c.path (encode entries)) with
  | (.ok (), disk) => (.ok (), { c with entries }, disk)
  | (.error e, disk) => (.error (.ofStep e), c, disk.erase temp)

/-- Lists `r` unless its key is listed; says whether it was added. -/
def insert (c : Catalog) (disk : FileTree) (r : Replica) :
    Except StorageError Bool × Catalog × FileTree :=
  match find? c.entries r.name with
  | some _ => (.ok false, c, disk)
  | none =>
    match c.store disk (place r c.entries) with
    | (.ok (), c, disk) => (.ok true, c, disk)
    | (.error e, c, disk) => (.error e, c, disk)

/-- Lists `r`, in place of an entry for its key of another rank; tells the
    rank before. -/
def upsert (c : Catalog) (disk : FileTree) (r : Replica) :
    Except StorageError (Option Rank) × Catalog × FileTree :=
  let previous := (find? c.entries r.name).map (·.rank)
  if previous = some r.rank then (.ok previous, c, disk)
  else
    match c.store disk (place r c.entries) with
    | (.ok (), c, disk) => (.ok previous, c, disk)
    | (.error e, c, disk) => (.error e, c, disk)

/-- Gives a listed key another rank; says whether the key is listed. -/
def setRank (c : Catalog) (disk : FileTree) (name : String) (rank : Rank) :
    Except StorageError Bool × Catalog × FileTree :=
  match find? c.entries name with
  | none => (.ok false, c, disk)
  | some r =>
    if r.rank = rank then (.ok true, c, disk)
    else
      match c.store disk (place { r with rank } c.entries) with
      | (.ok (), c, disk) => (.ok true, c, disk)
      | (.error e, c, disk) => (.error e, c, disk)

/-- The entry of the given name. -/
def get? (c : Catalog) (name : String) : Option Replica := find? c.entries name

end Catalog

end ReplicaRing
