import ReplicaRing.FileTree
import ReplicaRing.Index
import ReplicaRing.Quoted

/-!
# Errors of storage

Everything that can go wrong in the files of a node, by its cause.
-/

namespace ReplicaRing

/-- What is wrong with a file that should be intact. -/
inductive Corruption
  /-- It is no index. -/
  | index (error : Index.Error)
  /-- A data file ends before the index does. -/
  | shortData (length indexed : Nat)
  /-- A catalog does not even hold its frame header. -/
  | shortFrame (length : Nat)
  /-- A catalog is not as long as its frame says. -/
  | frameLength (declared found : Nat)
  /-- A catalog does not have the checksum its frame says. -/
  | frameChecksum (expected got : UInt32)
deriving DecidableEq, Repr

/-- The text of the corruption. -/
def Corruption.message : Corruption → String
  | .index e => e.message
  | .shortData n indexed => s!"data file is {n} bytes but the index ends at {indexed}"
  | .shortFrame n => s!"{n} bytes is shorter than the frame header"
  | .frameLength declared found => s!"frame declares {declared} bytes, found {found}"
  | .frameChecksum expected got =>
    s!"CRC mismatch: expected {Checksum.text expected}, got {Checksum.text got}"

/-- An error of storage. -/
inductive StorageError
  | io (error : IoError)
  /-- The index refuses a write. -/
  | index (error : Index.Error)
  /-- The text of a catalog is not a list of replicas. -/
  | malformed
  | corrupt (path : Path) (reason : Corruption)
  /-- A time or an offset would be past the last there is. It is no answer: the call
      breaks off, and so does all that waits for it. -/
  | overflow
deriving DecidableEq, Repr

/-- A path as text. -/
def Path.text (p : Path) : String := "/".intercalate p

/-- The text of the error. -/
def StorageError.message : StorageError → String
  | .io e => "storage I/O error: " ++ e.message
  | .index e => "index error: " ++ e.message
  | .malformed => "catalog serialization error"
  | .corrupt path reason => s!"corrupt file {Quoted.quote path.text}: {reason.message}"
  | .overflow => "attempt to add with overflow"

/-- The name of the kind of error, the kinds of an error and of its cause one behind
    the other. -/
def StorageError.kind : StorageError → String
  | .io _ => "Io"
  | .index e => "Index:" ++ e.kind
  | .malformed => "Malformed"
  | .corrupt _ _ => "Corrupt"
  | .overflow => "Overflow"

/-- The error of storage that a step on files ends with. -/
def StorageError.ofStep : FileTree.StepError → StorageError
  | .io e => .io e
  | .short path n wanted => .corrupt path (.shortData n wanted)

end ReplicaRing
