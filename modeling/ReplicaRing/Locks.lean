/-!
# Locks on files

One lock for each file, made when the file is first asked for and kept from then
on. Files are told apart by their path, and paths that differ only in repeated
separators, in single dots or in a separator at the end are one path; a single
dot in front counts, and double dots are names like any other.
-/

namespace ReplicaRing

/-- A part of a path. -/
inductive PathPart
  /-- The separator in front of an absolute path. -/
  | root
  /-- A single dot in front of a relative path. -/
  | here
  | name (s : String)
deriving DecidableEq, Repr

/-- The parts of a path that tell it from others. -/
def PathPart.ofText (path : String) : List PathPart :=
  let pieces := (path.splitOn "/").filter fun s => s ≠ ""
  let names := (pieces.filter fun s => s ≠ ".").map name
  if path.startsWith "/" then root :: names
  else if pieces.head? = some "." then here :: names
  else names

/-- Locks numbered in the order in which they were made, by the path they
    guard. -/
structure LockTable where
  paths : List (List PathPart)
deriving Repr

namespace LockTable

/-- The table without locks. -/
def empty : LockTable := ⟨[]⟩

/-- The number of the lock that guards the path, made if there is none yet. -/
def lockFor (table : LockTable) (path : List PathPart) : Nat × LockTable :=
  match table.paths.idxOf? path with
  | some i => (i, table)
  | none => (table.paths.length, ⟨table.paths ++ [path]⟩)

/-- The locks that guard the paths, each with the size of the table once it was
    asked for, and the table after all of them. -/
def lockAll (table : LockTable) : List (List PathPart) → List (Nat × Nat) × LockTable
  | [] => ([], table)
  | p :: ps =>
    let (i, table) := table.lockFor p
    let (rest, last) := lockAll table ps
    ((i, table.paths.length) :: rest, last)

/-- For each lock whether it can be taken while the lock numbered `held` is
    taken. -/
def free (table : LockTable) (held : Nat) : List Bool :=
  (List.range table.paths.length).map fun i => i ≠ held

end LockTable

end ReplicaRing
