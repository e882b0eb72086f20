import ReplicaRing.Cache
import ReplicaRing.Digest
import ReplicaRing.Metrics
import ReplicaRing.StorageError

/-!
# Logs of keys

A node keeps every value ever written to a key, with the time it was written at.
Each key has two files: in the *data file* its values stand one behind the other,
and the *index file* tells where each of them ends. Both are named by the digest
of the key.

A write first adds the value to the data file and then puts a new index file,
with one more record, in place of the old one. The move is the moment at which
the write counts: bytes of the data file that no index tells of are cut off by
the next write.

A read needs the place of a value in the data file. For the last value it comes
from the cache or from the tail of the index file, for others from the whole
index. The cache only learns of a value once the index on disk does.
-/

namespace ReplicaRing

/-- When written files are flushed to the medium. What they hold does not depend
    on it. -/
inductive FlushPolicy
  /-- After every write, and after every move the directory too. -/
  | always
  /-- After every write. -/
  | batch
  /-- When the system sees fit. -/
  | never
deriving DecidableEq, Repr

/-- The policy of the given name in any case; a name that is none means
    `batch`. -/
def FlushPolicy.ofText (s : String) : FlushPolicy :=
  match s.toLower with
  | "always" => .always
  | "none" => .never
  | _ => .batch

/-- The logs of all keys of a node. -/
structure Log where
  /-- The files. -/
  disk : FileTree
  /-- The directory the files of the logs are in. -/
  root : Path
  /-- The fanout written into new index files. -/
  fanout : Nat
  flush : FlushPolicy
  cache : Cache
  tally : Tally
deriving Repr

namespace Log

/-! ## Files -/

/-- Where the data file or the index file of a key is: in two levels of
    directories named by the ends of its digest. -/
def filePath (root : Path) (key folder : String) : Path :=
  let stem := Bytes.hexDigits (Digest.sha1 (Bytes.ofString key))
  root ++ [folder, String.ofList (stem.take 2), String.ofList (stem.drop 38),
    String.ofList stem ++ "." ++ folder]

/-- Where the data file of a key is. -/
def dataPath (log : Log) (key : String) : Path := filePath log.root key "data"

/-- Where the index file of a key is. -/
def indexPath (log : Log) (key : String) : Path := filePath log.root key "index"

/-- The logs below `root`, with an empty cache, and the files with the
    directories of the logs made as far as possible. -/
def openAt (disk : FileTree) (root : Path) (fanout cacheCapacity : Nat) (flush : FlushPolicy)
    (tally : Tally) : Except StorageError Log × FileTree :=
  match disk.run [.makeDirs (root ++ ["data"]), .makeDirs (root ++ ["index"])] with
  | (.error e, disk) => (.error (.ofStep e), disk)
  | (.ok (), disk) => (.ok ⟨disk, root, fanout, flush, .empty cacheCapacity, tally⟩, disk)

/-- A key has been written to, or something else lies where its index file
    would. -/
def has (log : Log) (key : String) : Bool := log.disk.has (log.indexPath key)

/-! ## Reading files -/

/-- Counts an entry into a phase of work on files. -/
def enter (log : Log) (phase : String) : Log :=
  { log with tally := log.tally.addLabelled .storagePhase phase 1 }

/-- The tip that the tail of the index file at `path` tells of. -/
def tipAt (disk : FileTree) (path : Path) : Except StorageError (Option Index.Tip) :=
  match disk.read path with
  | .error .notFound => .ok none
  | .error e => .error (.io e)
  | .ok bs =>
    match Index.readTip bs with
    | .error e => .error (.corrupt path (.index e))
    | .ok tip => .ok tip

/-- The index in the file at `path`. -/
def indexAt (disk : FileTree) (path : Path) : Except StorageError (Option Index) :=
  match disk.read path with
  | .error .notFound => .ok none
  | .error e => .error (.io e)
  | .ok bs =>
    match Index.decode bs with
    | .error e => .error (.corrupt path (.index e))
    | .ok x => .ok (some x)

/-- The bytes of a span of a file. -/
def slice (bs : Bytes) (span : Index.Span) : Except StorageError Bytes :=
  let value := (bs.drop span.start.toNat).take span.length.toNat
  if value.length < span.length.toNat then .error (.io .shortRead) else .ok value

/-- The values of the given spans of a data file. Tombstones are not looked for
    in the file. -/
def valuesIn (bs : Bytes) : List Index.Span → Except StorageError (List Bytes)
  | [] => .ok []
  | s :: ss =>
    match if s.isEmpty then .ok [] else slice bs s with
    | .error e => .error e
    | .ok v => (valuesIn bs ss).map (v :: ·)

/-- The tip of a key as its index file tells it. -/
def storedTip (log : Log) (key : String) : Except StorageError (Option Index.Tip) × Log :=
  let log := log.enter "index_read"
  (tipAt log.disk (log.indexPath key), log)

/-- The whole index of a key. -/
def loadIndex (log : Log) (key : String) : Except StorageError (Option Index) × Log :=
  let log := log.enter "index_read"
  (indexAt log.disk (log.indexPath key), log)

/-- The values of the given spans of a key. If all are tombstones the data file is
    not opened. -/
def valuesAt (log : Log) (key : String) (spans : List Index.Span) :
    Except StorageError (List Bytes) × Log :=
  if spans.all (·.isEmpty) then (.ok (spans.map fun _ => []), log)
  else
    let log := log.enter "data_read"
    match log.disk.read (log.dataPath key) with
    | .error e => (.error (.io e), log)
    | .ok bs => (valuesIn bs spans, log)

/-- The value of a span of a key. -/
def valueAt (log : Log) (key : String) (span : Index.Span) : Except StorageError Bytes × Log :=
  let (r, log) := log.valuesAt key [span]
  (r.map fun vs => vs.headD [], log)

/-! ## Reading keys -/

/-- Looks a key up in the cache. -/
def cached (log : Log) (key : String) : Option Index.Tip × Log :=
  let (tip, cache) := log.cache.get key
  let metric := if tip.isSome then Metric.offsetCacheHits else .offsetCacheMisses
  (tip, { log with cache, tally := log.tally.add metric 1 })

/-- The tip of a key, from the cache or else from its index file. -/
def latestTip (log : Log) (key : String) : Except StorageError (Option Index.Tip) × Log :=
  match log.cached key with
  | (some tip, log) => (.ok (some tip), log)
  | (none, log) => log.storedTip key

/-- The value in an optional span. -/
def valueAt? (log : Log) (key : String) :
    Option Index.Span → Except StorageError (Option Bytes) × Log
  | none => (.ok none, log)
  | some span =>
    let (r, log) := log.valueAt key span
    (r.map some, log)

/-- The last value of a key: empty after a deletion, none if the key was never
    written to. -/
def readLatest (log : Log) (key : String) : Except StorageError (Option Bytes) × Log :=
  match log.latestTip key with
  | (.error e, log) => (.error e, log)
  | (.ok tip, log) => log.valueAt? key (tip.map (·.span))

/-- The value of a key in force at time `t`, found with the whole index. -/
def readAsOfIndex (log : Log) (key : String) (t : Time) :
    Except StorageError (Option Bytes) × Log :=
  match log.loadIndex key with
  | (.error e, log) => (.error e, log)
  | (.ok x, log) => log.valueAt? key (x.bind (·.asOf t))

/-- The value of a key in force at time `t`. -/
def readAsOf (log : Log) (key : String) (t : Time) : Except StorageError (Option Bytes) × Log :=
  match log.cached key with
  | (some tip, log) =>
    if tip.time ≤ t then log.valueAt? key (some tip.span) else log.readAsOfIndex key t
  | (none, log) => log.readAsOfIndex key t

/-- The values of a key written at `first` or later, up to `final`. -/
def readRange (log : Log) (key : String) (first final : Time) :
    Except StorageError (List Bytes) × Log :=
  match log.loadIndex key with
  | (.error e, log) => (.error e, log)
  | (.ok none, log) => (.ok [], log)
  | (.ok (some x), log) => log.valuesAt key (x.range first final)

/-! ## Writing keys -/

/-- The word `n` after `w`. There is none after the last. -/
def wordAfter? (w : UInt64) (n : Nat) : Option UInt64 :=
  if w.toNat + n < UInt64.size then some (w + UInt64.ofNat n) else none

/-- The tip of a key as its index file tells it, which the cache then knows. -/
def publishedTip (log : Log) (key : String) : Except StorageError (Option Index.Tip) × Log :=
  match log.storedTip key with
  | (.ok (some tip), log) => (.ok (some tip), { log with cache := log.cache.publish key tip })
  | r => r

/-- The directory a file is in. -/
def folderOf (p : Path) : Path := p.dropLast

/-- The steps that put `value` behind the first `start` bytes of a data file. -/
def dataSteps (path : Path) (start : Offset) (value : Bytes) : List FileTree.Step :=
  [.makeDirs (folderOf path), .create path, .cut path start.toNat, .add path value]

/-- The steps that build an index file out of `old` and one more record beside
    the one at `path`, and move it there. -/
def indexSteps (temp path : Path) (old : Bytes) (e : Index.Entry) : List FileTree.Step :=
  [.clear temp, .add temp old, .add temp (Index.encodeRecord e), .rename temp path]

/-- Adds `value` to the data file of a key. -/
def writeData (log : Log) (key : String) (start : Offset) (value : Bytes) :
    Except StorageError Unit × Log :=
  let log := log.enter "data_write"
  match log.disk.run (dataSteps (log.dataPath key) start value) with
  | (.ok (), disk) => (.ok (), { log with disk })
  | (.error e, disk) => (.error (.ofStep e), { log with disk })

/-- What an index file with one more record begins with: the file as it is, or
    a header if it tells of no value yet. -/
def indexBase (log : Log) (path : Path) (hasTip : Bool) : Except IoError Bytes :=
  if hasTip then log.disk.read path else .ok (Index.encodeHeader log.fanout)

/-- Adds a record to the index file of a key. If that fails, the temporary file is
    removed. -/
def writeIndex (log : Log) (key : String) (e : Index.Entry) (hasTip : Bool) :
    Except StorageError Unit × Log :=
  let log := log.enter "index_write"
  let path := log.indexPath key
  match log.disk.makeDirs (folderOf path) with
  | .error err => (.error (.io err), log)
  | .ok disk =>
    let log := { log with disk }
    match log.indexBase path hasTip with
    | .error err => (.error (.io err), log)
    | .ok old =>
      let temp := disk.freshTemp path
      match disk.run (indexSteps temp path old e) with
      | (.ok (), disk) => (.ok (), { log with disk })
      | (.error err, disk) => (.error (.ofStep err), { log with disk := disk.erase temp })

/-- Where a value begins that is written behind the one that `tip` tells of. -/
def startBehind : Option Index.Tip → Offset
  | some tip => tip.span.stop
  | none => 0

/-- Writes `value` to the span that `new` tells of, and then the record of it. -/
def writeSpan (log : Log) (key : String) (hasTip : Bool) (value : Bytes) (new : Index.Tip) :
    Except StorageError Index.Tip × Log :=
  match log.writeData key new.span.start value with
  | (.error e, log) => (.error e, log)
  | (.ok (), log) =>
    match log.writeIndex key ⟨new.time, new.span.stop⟩ hasTip with
    | (.error e, log) => (.error e, log)
    | (.ok (), log) => (.ok new, { log with cache := log.cache.publish key new })

/-- Writes `value` behind the value that `tip` tells of. Nothing is touched if it would
    end past the last offset. -/
def write (log : Log) (key : String) (tip : Option Index.Tip) (value : Bytes) (t : Time) :
    Except StorageError Index.Tip × Log :=
  match wordAfter? (startBehind tip) value.length with
  | none => (.error .overflow, log)
  | some stop => log.writeSpan key tip.isSome value ⟨t, startBehind tip, stop⟩

/-- Writes `value` at time `t`, which has to be later than the last write. -/
def append (log : Log) (key : String) (value : Bytes) (t : Time) :
    Except StorageError Index.Tip × Log :=
  match log.publishedTip key with
  | (.error e, log) => (.error e, log)
  | (.ok tip, log) =>
    match tip.filter fun tip => t ≤ tip.time with
    | some tip => (.error (.index (.nonMonotonic tip.time t)), log)
    | none => log.write key tip value t

/-- The time of a write at `now`: later than the last write, even if the clock is
    not. There is no such time if the last write was at the last of them. -/
def stamp (tip : Option Index.Tip) (now : Time) : Option Time :=
  match tip with
  | some tip => if now ≤ tip.time then wordAfter? tip.time 1 else some now
  | none => some now

/-- Writes `value` at time `now`, or right after the last write if that is
    later. Nothing is written if there is no such time. -/
def appendNow (log : Log) (key : String) (value : Bytes) (now : Time) :
    Except StorageError Index.Tip × Log :=
  match log.publishedTip key with
  | (.error e, log) => (.error e, log)
  | (.ok tip, log) =>
    match stamp tip now with
    | none => (.error .overflow, log)
    | some t => log.write key tip value t

end Log

end ReplicaRing
