import MiniC.FileStore
import MiniC.Text.Utf8
import MiniC.Word

/-!
# Open files

A running program opens files by path and knows them by number. Numbers count from three and are
never given out again. Number zero reads the standard input, which cannot be opened or closed. Files
are only read: opening may create a file or empty it, and that is all that changes.
-/

namespace MiniC

/-- What a program asks for when it opens a file. -/
structure OpenFlags where
  read : Bool
  write : Bool
  create : Bool
  truncate : Bool
  append : Bool
  deriving DecidableEq, Repr

namespace OpenFlags

/-- The flags in a word: the low two bits say how the file is accessed, single bits ask for the
rest. -/
def ofWord (w : Word) : OpenFlags :=
  let access := w &&& 3
  { read := access ≠ 1
    write := access = 1 ∨ access = 2
    create := w &&& 0x40 ≠ 0
    truncate := w &&& 0x200 ≠ 0
    append := w &&& 0x400 ≠ 0 }

def writes (f : OpenFlags) : Bool := f.write || f.append

/-- A file is created or emptied only to be written, and one that is appended to is not emptied. -/
def consistent (f : OpenFlags) : Bool :=
  if f.append then !f.truncate else f.write || !(f.create || f.truncate)

end OpenFlags

/-- An open file and how far it has been read. -/
structure OpenFile where
  /-- The file, or nothing where a directory was opened. -/
  path : Option NodePath
  position : Nat
  readable : Bool
  deriving DecidableEq, Repr

structure Descriptors where
  store : FileStore
  /-- What is left of the standard input. -/
  input : List UInt8
  opened : List (Nat × OpenFile)
  next : Nat
  deriving DecidableEq, Repr

namespace Descriptors

/-- The first number that is given out. -/
def first : Nat := 3

def start (store : FileStore) (input : List UInt8) : Descriptors := ⟨store, input, [], first⟩

/-- What opening a node finds, and the store afterwards. -/
def openNode? (store : FileStore) (path : NodePath) (flags : OpenFlags) :
    Option (OpenFile × FileStore) :=
  match store.node? path with
  | some (.file _) =>
    some (⟨some path, 0, flags.read⟩, if flags.truncate then store.put path [] else store)
  | some .directory => if flags.writes then none else some (⟨none, 0, flags.read⟩, store)
  | none => if flags.create then some (⟨some path, 0, flags.read⟩, store.put path []) else none

/-- Opens a path, given as bytes. The number of the file, or minus one. -/
def openPath (d : Descriptors) (path : List UInt8) (flags : Word) : Word × Descriptors :=
  let flags := OpenFlags.ofWord flags
  match d.store.resolve (Utf8.decode path) with
  | .error _ => (-1, d)
  | .ok path =>
    match if flags.consistent then openNode? d.store path flags else none with
    | none => (-1, d)
    | some (file, store) =>
      (Word.ofNat d.next,
        { d with store, opened := (d.next, file) :: d.opened, next := d.next + 1 })

/-- The open file with a number. -/
def file? (d : Descriptors) (fd : Word) : Option (Nat × OpenFile) :=
  d.opened.find? fun (n, _) => (n : Int) = fd.toInt

/-- What is left to read of an open file. -/
def unread? (d : Descriptors) (file : OpenFile) : Option (List UInt8) :=
  if file.readable then
    match file.path.bind d.store.node? with
    | some (.file content) => some (content.drop file.position)
    | _ => none
  else none

/-- Reads at most `length` bytes, or nothing at all where reading fails. -/
def read (d : Descriptors) (fd : Word) (length : Nat) : Option (List UInt8) × Descriptors :=
  if fd = 0 then (some (d.input.take length), { d with input := d.input.drop length })
  else match d.file? fd with
    | none => (none, d)
    | some (n, file) =>
      match d.unread? file with
      | none => (none, d)
      | some rest =>
        let bytes := rest.take length
        let moved := { file with position := file.position + bytes.length }
        (some bytes,
          { d with opened := d.opened.map fun (k, f) => (k, if k = n then moved else f) })

/-- Closes a file: zero, or minus one where the number is not open. -/
def close (d : Descriptors) (fd : Word) : Word × Descriptors :=
  match d.file? fd with
  | none => (-1, d)
  | some (n, _) => (0, { d with opened := d.opened.filter fun (k, _) => k ≠ n })

end Descriptors

end MiniC
