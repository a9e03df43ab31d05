import MiniC.Memory

/-!
# The heap

Blocks are whole words and are never split or joined. A request takes the first block given back
that is large enough, whole, else a new block at the end of memory while the heap limit allows it.
Every block is handed out filled with zeros.
-/

namespace MiniC.Memory

def heapSize (m : Memory) : Nat := dataBase + m.bytes.size - m.stackTop

/-- The block in use that starts at an address. -/
def liveBlock? (m : Memory) (address : Word) : Option Block :=
  m.live.find? fun b => (b.start : Int) = address.toInt

/-- Takes back into use the first block given back that holds `size` bytes. -/
@[inline]
def reuse? (m : Memory) (size : Nat) : Option (Block × Memory) :=
  match m.freed.find? fun b => size ≤ b.size with
  | some block =>
    some (block, { m with
      bytes := overwriteAll m.bytes (block.start - dataBase) 0 block.size
      live := block :: m.live
      freed := m.freed.erase block })
  | none => none

/-- Adds a block at the end of memory. -/
@[inline]
def grow? (m : Memory) (size : Nat) : Option (Block × Memory) :=
  if m.heapSize + size ≤ m.heapLimit then
    let block : Block := ⟨dataBase + m.bytes.size, size⟩
    some (block, { m with
      bytes := m.bytes ++ Array.replicate size 0
      live := block :: m.live })
  else none

/-- A new block of at least `size` bytes, which are whole words. -/
@[inline]
def allocate? (m : Memory) (size : Nat) : Option (Block × Memory) :=
  match m.reuse? size with
  | some result => some result
  | none => m.grow? size

/-- The address of a new block, or zero where the size is not positive or the heap is full. -/
@[inline]
def malloc (m : Memory) (size : Word) : Word × Memory :=
  if size ≤ 0 then (0, m)
  else match m.allocate? (align size.toUInt64).toNat with
    | some (block, m) => (Word.ofNat block.start, m)
    | none => (0, m)

/-- Gives a block back. Any address that starts no block in use is refused. -/
@[inline]
def release? (m : Memory) (address : Word) : Option Memory :=
  match m.liveBlock? address with
  | some block => some { m with live := m.live.erase block, freed := m.freed ++ [block] }
  | none => none

/-- Gives a block back and says whether there was one; freeing zero does nothing and succeeds. -/
@[inline]
def free (m : Memory) (address : Word) : Bool × Memory :=
  if address = 0 then (true, m)
  else match m.release? address with
    | some m => (true, m)
    | none => (false, m)

/-- Makes room for `size` bytes. A block that is large enough stays where it is; otherwise its bytes
move to a new block, and where there is none the old block is kept and the result is zero. -/
def realloc (m : Memory) (address size : Word) : Word × Memory :=
  if address = 0 then m.malloc size
  else if size ≤ 0 then (0, (m.free address).2)
  else match m.liveBlock? address with
    | none => (0, m)
    | some old =>
      if (align size.toUInt64).toNat ≤ old.size then (address, m)
      else match m.allocate? (align size.toUInt64).toNat with
        | none => (0, m)
        | some (block, grown) =>
          let bytes := grown.slice (old.start - dataBase) old.size
          let moved := { grown with
            bytes := overwrite grown.bytes (block.start - dataBase) bytes }
          (Word.ofNat block.start, (moved.free address).2)

end MiniC.Memory
