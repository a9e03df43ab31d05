import MiniC.CommandLine

/-!
# The program

Runs a command line on the files below the current directory and on the source files that are named.
Input is read when the program asks for it, and output is written as it comes.
-/

namespace MiniC.Main

/-- The nodes below a directory, whose path is given. -/
partial def nodesBelow (path : NodePath) (entries : Array IO.FS.DirEntry) :
    IO (List (NodePath × FileNode)) := do
  let mut nodes := []
  for entry in entries do
    let here := path ++ [entry.fileName]
    if ← entry.path.isDir then
      nodes := (here, .directory) :: (← nodesBelow here (← entry.path.readDir)) ++ nodes
    else
      try
        nodes := (here, .file (← IO.FS.readBinFile entry.path).data.toList) :: nodes
      catch _ => pure ()
  return nodes

/-- The files below the current directory, and those that are named. -/
def readStore (paths : List String) : IO FileStore := do
  let directory ← IO.currentDir
  let workingDirectory := directory.components.filter (· ≠ "")
  let nodes ← nodesBelow workingDirectory (← directory.readDir)
  let mut store : FileStore := ⟨nodes, workingDirectory⟩
  for path in paths do
    try
      let content := (← IO.FS.readBinFile path).data.toList
      store := store.put ((path.splitOn "/").foldl FileStore.child (store.origin path)) content
    catch _ => pure ()
  return store

/-- Puts the files that a run created or emptied where they belong. -/
def writeBack (before after : FileStore) : IO Unit := do
  for (path, node) in after.nodes do
    match node with
    | .file content =>
      if before.node? path ≠ some node then
        IO.FS.writeBinFile ("/" ++ String.intercalate "/" path) ⟨content.toArray⟩
    | .directory => pure ()

def writeOut (bytes : Array UInt8) : IO Unit := do
  let stdout ← IO.getStdout
  stdout.write ⟨bytes⟩
  stdout.flush

/-- Writes what the machine has put out. -/
def flush (s : Machine) : IO Machine := do
  if s.out.written.isEmpty then return s
  writeOut s.out.written
  return { s with out := Sink.empty none }

/-- Whether the next instruction reads the standard input while none is at hand. -/
def awaitsInput (loaded : Loaded) (s : Machine) : Bool :=
  match loaded.code[s.pc]?, s.memory.loadWord (Machine.wordsAbove s.sp 2) with
  | some (.service .fileRead), .ok 0 => s.files.input.isEmpty
  | _, _ => false

/-- Runs the machine step by step until it stops. -/
partial def drive (loaded : Loaded) (s : Machine) : IO (Stop × Machine) := do
  let s ← if awaitsInput loaded s then do
      let input := (← (← IO.getStdin).read 8192).data.toList
      pure { s with files := { s.files with input } }
    else pure s
  match Machine.step loaded Machine.plenty s with
  | .ok _ s => drive loaded (← flush s)
  | .error stop s => return (stop, ← flush s)

/-- Ends with the exit code for a result, after writing what belongs to it. -/
def finish (result : SessionEnd) : IO UInt32 := do
  let (code, last) := CommandLine.report result
  writeOut last.toArray
  return code.toUInt32

def runWords (words : List String) : IO UInt32 := do
  match CommandLine.read? words (← IO.getEnv "C4_POOL_SIZE") with
  | none => finish (.failed .usage)
  | some (options, paths, args) =>
    let store ← readStore paths
    match Session.start options paths args (.start store []) (Sink.empty none) with
    | .over result out => do
      writeOut out.written
      finish result
    | .ready loaded machine => do
      let (stop, machine) ← drive loaded (← flush machine)
      writeBack store machine.files.store
      finish (.ofStop stop)

end MiniC.Main

def main (words : List String) : IO UInt32 := MiniC.Main.runWords words
