/-!
# Files

The files and directories that a run can see, as a tree with a working directory. A path is walked
component by component, and every component but the last has to lead to a directory.
-/

namespace MiniC

inductive FileNode where
  | file (content : List UInt8)
  | directory
  deriving DecidableEq, Repr

/-- Why a path cannot be used. -/
inductive FileError where
  | notFound
  | notDirectory
  | isDirectory
  | nameTooLong
  | nulInPath
  deriving DecidableEq, Repr

def FileError.message : FileError → String
  | notFound => "No such file or directory (os error 2)"
  | notDirectory => "Not a directory (os error 20)"
  | isDirectory => "Is a directory (os error 21)"
  | nameTooLong => "File name too long (os error 36)"
  | nulInPath => "file name contained an unexpected NUL byte"

/-- The names on the way from the root of the tree to a node. -/
abbrev NodePath := List String

structure FileStore where
  nodes : List (NodePath × FileNode)
  workingDirectory : NodePath
  deriving DecidableEq, Repr

namespace FileStore

/-- The nodes of a working directory and of the directories below it, by their paths from there. -/
def ofList (workingDirectory : NodePath) (nodes : List (String × FileNode)) : FileStore where
  nodes := nodes.map fun (name, node) =>
    (workingDirectory ++ (name.splitOn "/").filter (· ≠ ""), node)
  workingDirectory

/-- What a path leads to. The way to the working directory and to every node is made of directories.
-/
def node? (store : FileStore) (path : NodePath) : Option FileNode :=
  match store.nodes.lookup path with
  | some node => some node
  | none =>
    if path.isPrefixOf store.workingDirectory
      || store.nodes.any fun (other, _) => path.isPrefixOf other
    then some .directory
    else none

/-- The nodes of the working directory itself, by name. -/
def topLevel (store : FileStore) : List (String × FileNode) :=
  store.nodes.filterMap fun (path, node) =>
    match path.getLast? with
    | some name => if path = store.workingDirectory ++ [name] then some (name, node) else none
    | none => none

/-- Where a name leads to from a directory. -/
def child (directory : NodePath) (name : String) : NodePath :=
  if name = "" ∨ name = "." then directory
  else if name = ".." then directory.dropLast
  else directory ++ [name]

/-- The greatest number of bytes in a name. -/
def maxName : Nat := 255

/-- The greatest number of bytes in a whole path. -/
def maxPath : Nat := 4095

/-- Walks names from a node. What the last name leads to may be missing. A name is looked up only
in a directory, so what is wrong with the way to it comes before its own length. -/
def walk (store : FileStore) (path : NodePath) : List String → Except FileError NodePath
  | [] => .ok path
  | name :: rest =>
    match store.node? path with
    | none => .error .notFound
    | some (.file _) => .error .notDirectory
    | some .directory =>
      if name.utf8ByteSize ≤ maxName then store.walk (child path name) rest
      else .error .nameTooLong

/-- The directory that a path starts from. -/
def origin (store : FileStore) (path : String) : NodePath :=
  if path.startsWith "/" then [] else store.workingDirectory

/-- Where a path leads to. The length of the whole path is checked before it is walked. -/
def resolve (store : FileStore) (path : String) : Except FileError NodePath :=
  if path.toList.contains (Char.ofNat 0) then .error .nulInPath
  else if path = "" then .error .notFound
  else if maxPath < path.utf8ByteSize then .error .nameTooLong
  else store.walk (store.origin path) (path.splitOn "/")

/-- The content of a file. -/
def read (store : FileStore) (path : String) : Except FileError (List UInt8) := do
  match store.node? (← store.resolve path) with
  | some (.file content) => .ok content
  | some .directory => .error .isDirectory
  | none => .error .notFound

/-- Puts a file in place of what was there. -/
def put (store : FileStore) (path : NodePath) (content : List UInt8) : FileStore :=
  { store with nodes := store.nodes.filter (·.1 ≠ path) ++ [(path, .file content)] }

end FileStore

end MiniC
