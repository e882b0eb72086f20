import ReplicaRing.Startup

/-!
# The command line

Starts the node that a configuration file describes, on a ring of its own, and keeps it
until the input ends. The file is named by the first argument.
-/

namespace ReplicaRing.CommandLine

/-- The files of `disk` together with the file at `path`, if that can be read. -/
def fetchFile (disk : FileTree) (path : Path) : IO FileTree := do
  try
    let bytes ← IO.FS.readBinFile path.text
    return ((disk.makeDirs path.dropLast).toOption.getD disk).set path (.file bytes.toList)
  catch _ => return disk

/-- Starts the node of a configuration, with the catalog its store left behind. -/
def startNode (path : String) : IO (Except StartupError (Config × Point × Node)) := do
  let disk ← fetchFile .empty [path]
  match Config.load disk [path] with
  | .error e => return .error (.config e)
  | .ok c =>
    let disk ← fetchFile .empty (c.storeOptions.dataDir ++ [Catalog.fileName])
    match c.point, (c.start disk).1 with
    | .error e, _ | _, .error e => return .error e
    | .ok p, .ok node => return .ok (c, p, node)

/-- Makes the directories of the store. -/
def makeDirs (c : Config) : IO Unit := do
  IO.FS.createDirAll (c.dataDir ++ "/data")
  IO.FS.createDirAll (c.dataDir ++ "/index")

/-- Runs the command with the given arguments; the result is its exit code. -/
def run (args : List String) : IO UInt32 := do
  match ← startNode (args.headD "config.yaml") with
  | .error e =>
    IO.eprintln ("Error: " ++ e.message)
    return 1
  | .ok (c, p, node) =>
    makeDirs c
    let keys := node.store.keySet.length
    IO.println s!"node {p.text} serving {keys} keys from {Quoted.quote c.dataDir}"
    let _ ← (← IO.getStdin).readToEnd
    return 0

end ReplicaRing.CommandLine

def main (args : List String) : IO UInt32 := ReplicaRing.CommandLine.run args
