import ReplicaRing.Bytes

/-!
# A tree of files

The disk a store writes to: directories and files below one root, named by their
path from it. The root itself is the empty path and always a directory.

Every operation says which error the file system would report. A path is walked
from the root: the first name that is missing, or that is a file though more
names follow, decides the error (`FileTree.reach`).

Changes are *steps* (`FileTree.Step`), the units in which an operation on files
takes effect; what is left after only some of them is what a crash leaves behind.
-/

namespace ReplicaRing

/-- The names from the root down to a file or directory. -/
abbrev Path := List String

/-- What a path can name. -/
inductive FileTree.Item
  | file (bytes : Bytes)
  | dir
deriving DecidableEq, Repr

/-- The errors of the file system. -/
inductive IoError
  | notFound
  | alreadyExists
  | notADirectory
  | isADirectory
  /-- A file ended before all the bytes wanted from it were read. -/
  | shortRead
  | invalidUtf8
deriving DecidableEq, Repr

/-- The text of the error. -/
def IoError.message : IoError → String
  | .notFound => "No such file or directory (os error 2)"
  | .alreadyExists => "File exists (os error 17)"
  | .notADirectory => "Not a directory (os error 20)"
  | .isADirectory => "Is a directory (os error 21)"
  | .shortRead => "failed to fill whole buffer"
  | .invalidUtf8 => "stream did not contain valid UTF-8"

/-- Removing a key from an association list is seen at that key only. -/
theorem lookup_filter_ne {α β : Type} [DecidableEq α] [BEq α] [LawfulBEq α] (l : List (α × β))
    (p q : α) : (l.filter fun x => x.1 ≠ p).lookup q = if q = p then none else l.lookup q := by
  induction l with
  | nil => simp
  | cons x l ih =>
    obtain ⟨r, e⟩ := x
    by_cases hr : r = p
    · subst hr
      by_cases hq : q = r
      · simpa [hq] using ih
      · have hb : (q == r) = false := by simpa using hq
        simpa [hq, List.lookup_cons, hb] using ih
    · by_cases hq : q = r
      · subst hq
        simp [hr]
      · have hb : (q == r) = false := by simpa using hq
        simpa [hr, List.lookup_cons, hb] using ih

/-- Files and directories by path. -/
structure FileTree where
  /-- Every path but the root, with what it names. -/
  entries : List (Path × FileTree.Item)
deriving Repr

namespace FileTree

/-- The tree with nothing below its root. -/
def empty : FileTree := ⟨[]⟩

/-! ## Looking things up -/

/-- What the path names. -/
def get? (t : FileTree) (p : Path) : Option Item :=
  if p = [] then some .dir else t.entries.lookup p

/-- The tree with the path naming `e`. -/
def set (t : FileTree) (p : Path) (e : Item) : FileTree :=
  ⟨(p, e) :: t.entries.filter fun x => x.1 ≠ p⟩

/-- The tree without the path. -/
def erase (t : FileTree) (p : Path) : FileTree :=
  ⟨t.entries.filter fun x => x.1 ≠ p⟩

/-- Setting a path is seen at that path only. -/
theorem get?_set (t : FileTree) {p : Path} (hp : p ≠ []) (e : Item) (q : Path) :
    (t.set p e).get? q = if q = p then some e else t.get? q := by
  rw [get?, get?, set, List.lookup_cons, lookup_filter_ne]
  by_cases hq : q = p
  · subst hq
    simp [hp]
  · have hb : (q == p) = false := by simpa using hq
    simp [hq, hb]

/-- Erasing a path is seen at that path only. -/
theorem get?_erase (t : FileTree) {p : Path} (hp : p ≠ []) (q : Path) :
    (t.erase p).get? q = if q = p then none else t.get? q := by
  rw [get?, get?, erase, lookup_filter_ne]
  by_cases hq : q = p
  · subst hq
    simp [hp]
  · simp [hq]

/-- The tree without the path and all that lies below it. -/
def prune (t : FileTree) (p : Path) : FileTree :=
  ⟨t.entries.filter fun x => !p.isPrefixOf x.1⟩

/-- The paths of all directories above `p`, the root first. -/
def above (p : Path) : List Path := (List.range p.length).map p.take

/-- The first error met on the way along `ps`, each of which has to be a
    directory. -/
def walk (t : FileTree) : List Path → Except IoError Unit
  | [] => .ok ()
  | p :: ps =>
    match t.get? p with
    | none => .error .notFound
    | some (.file _) => .error .notADirectory
    | some .dir => walk t ps

/-- Whether everything above `p` is a directory, and the error if not. -/
def reach (t : FileTree) (p : Path) : Except IoError Unit := t.walk (above p)

/-- What `p` names, or the error of looking it up. -/
def find (t : FileTree) (p : Path) : Except IoError Item :=
  match t.reach p with
  | .error e => .error e
  | .ok () =>
    match t.get? p with
    | none => .error .notFound
    | some e => .ok e

/-- Something is there to be found at `p`. -/
def has (t : FileTree) (p : Path) : Bool := (t.find p).isOk

/-- The bytes of the file at `p`. -/
def read (t : FileTree) (p : Path) : Except IoError Bytes :=
  match t.find p with
  | .error e => .error e
  | .ok .dir => .error .isADirectory
  | .ok (.file bytes) => .ok bytes

/-- All files with their paths. -/
def files (t : FileTree) : List (Path × Bytes) :=
  t.entries.filterMap fun
    | (p, .file bytes) => some (p, bytes)
    | (_, .dir) => none

/-! ## Changing things -/

/-- The directories `ps`, each below the one before, made where they are
    missing. A file in the place of the last one, or of one above it, is in the
    way. -/
def makeDirsAlong (t : FileTree) : List Path → Except IoError FileTree
  | [] => .ok t
  | p :: ps =>
    match t.get? p with
    | some .dir => makeDirsAlong t ps
    | some (.file _) => .error (if ps.isEmpty then .alreadyExists else .notADirectory)
    | none => makeDirsAlong (t.set p .dir) ps

/-- The directory `p` and all above it, made where they are missing. -/
def makeDirs (t : FileTree) (p : Path) : Except IoError FileTree :=
  t.makeDirsAlong ((List.range p.length).map fun i => p.take (i + 1))

/-- The file at `p` opened for writing, made empty if it is missing. -/
def openFile (t : FileTree) (p : Path) : Except IoError FileTree :=
  match t.find p with
  | .error .notFound =>
    match t.reach p with
    | .error e => .error e
    | .ok () => .ok (t.set p (.file []))
  | .error e => .error e
  | .ok .dir => .error .isADirectory
  | .ok (.file _) => .ok t

/-- The file at `p` holding `bytes` and nothing else, made if it is missing. -/
def writeFile (t : FileTree) (p : Path) (bytes : Bytes) : Except IoError FileTree :=
  match t.openFile p with
  | .error e => .error e
  | .ok t => .ok (t.set p (.file bytes))

/-- The file at `p` with its bytes changed by `f`. -/
def modifyFile (t : FileTree) (p : Path) (f : Bytes → Bytes) : Except IoError FileTree :=
  match t.read p with
  | .error e => .error e
  | .ok bytes => .ok (t.set p (.file (f bytes)))

/-- The file at `p` moved to `q`, over a file that may be there. -/
def rename (t : FileTree) (p q : Path) : Except IoError FileTree :=
  match t.read p, t.find q with
  | .error e, _ => .error e
  | .ok _, .ok .dir => .error .isADirectory
  | .ok bytes, .ok (.file _) => .ok ((t.erase p).set q (.file bytes))
  | .ok bytes, .error .notFound =>
    match t.reach q with
    | .error e => .error e
    | .ok () => .ok ((t.erase p).set q (.file bytes))
  | .ok _, .error e => .error e

/-- The tree without the file at `p`. -/
def removeFile (t : FileTree) (p : Path) : Except IoError FileTree :=
  match t.read p with
  | .error e => .error e
  | .ok _ => .ok (t.erase p)

/-- The tree without the directory at `p` and all that lies below it. -/
def removeDir (t : FileTree) (p : Path) : Except IoError FileTree :=
  match t.find p with
  | .error e => .error e
  | .ok (.file _) => .error .notADirectory
  | .ok .dir => .ok (t.prune p)

/-! ## Steps -/

/-- A change to the tree that takes effect on its own. -/
inductive Step
  /-- Make a directory and all above it. -/
  | makeDirs (p : Path)
  /-- Make a file if it is missing. -/
  | create (p : Path)
  /-- Cut a file to `length` bytes; one that is shorter is an error. -/
  | cut (p : Path) (length : Nat)
  /-- Make a file empty, or make it if it is missing. -/
  | clear (p : Path)
  /-- Add bytes at the end of a file. -/
  | add (p : Path) (bytes : Bytes)
  /-- Move a file over another. -/
  | rename (p q : Path)
deriving DecidableEq, Repr

/-- Why a step is not carried out. -/
inductive StepError
  | io (error : IoError)
  /-- The file at `p` has only `length` of the bytes it should have. -/
  | short (p : Path) (length wanted : Nat)
deriving DecidableEq, Repr

/-- An error of the file system stops the step. -/
def ioStep : Except IoError FileTree → Except StepError FileTree
  | .ok t => .ok t
  | .error e => .error (.io e)

/-- The tree after one step. -/
def Step.apply (t : FileTree) : Step → Except StepError FileTree
  | makeDirs p => ioStep (t.makeDirs p)
  | create p => ioStep (t.openFile p)
  | cut p length =>
    match t.read p with
    | .error e => .error (.io e)
    | .ok bytes =>
      if bytes.length < length then .error (.short p bytes.length length)
      else .ok (t.set p (.file (bytes.take length)))
  | clear p => ioStep (t.writeFile p [])
  | add p bytes => ioStep (t.modifyFile p (· ++ bytes))
  | rename p q => ioStep (t.rename p q)

/-- The steps one after the other. The first that fails ends the run; what the
    steps before it did stays done. -/
def run (t : FileTree) : List Step → Except StepError Unit × FileTree
  | [] => (.ok (), t)
  | s :: ss =>
    match s.apply t with
    | .error e => (.error e, t)
    | .ok t => run t ss

@[simp] theorem run_nil (t : FileTree) : t.run [] = (.ok (), t) := rfl

/-- A run can be cut in two; the second part is only run if the first one is carried out
    to its end. -/
theorem run_append (t : FileTree) (l r : List Step) :
    t.run (l ++ r) = match t.run l with
      | (.ok (), t) => t.run r
      | (.error e, t) => (.error e, t) := by
  induction l generalizing t with
  | nil => rfl
  | cons s l ih =>
    rw [List.cons_append, run, run]
    cases s.apply t with
    | error e => rfl
    | ok t => exact ih t

/-! ## Temporary files -/

/-- The `i`-th name for a temporary file beside `p`. -/
def tempName (p : Path) (i : Nat) : Path :=
  p.dropLast ++ [p.getLastD "" ++ ".tmp-" ++ toString i]

/-- A name for a temporary file beside `p` that is not taken: of one more name
    than there are entries, one is free. -/
def freshTemp (t : FileTree) (p : Path) : Path :=
  tempName p (((List.range (t.entries.length + 1)).find? fun i =>
    (t.entries.lookup (tempName p i)).isNone).getD 0)

end FileTree

end ReplicaRing
